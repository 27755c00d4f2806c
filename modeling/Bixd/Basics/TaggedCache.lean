import Bixd.Lib.HashMap

-- A cache that is also a map: entries hold an object strongly for some time, and track it weakly
-- for as long as anybody else holds it. An object is its identity; it is destroyed with the last
-- strong pointer to it.

namespace TaggedCache

structure Entry (O : Type) where
  ptr : Option O
  weakPtr : O
  lastAccess : Int

namespace Entry

variable {O : Type}

def new (lastAccess : Int) (ptr : O) : Entry O := ⟨some ptr, ptr, lastAccess⟩

def isCached (e : Entry O) : Bool := e.ptr.isSome

def touch (e : Entry O) (now : Int) : Entry O := { e with lastAccess := now }

def reset (e : Entry O) : Entry O := { e with ptr := none }

end Entry

end TaggedCache

structure TaggedCache (K O : Type) where
  targetSize : Nat
  targetAge  : Nat
  cacheCount : Int
  cache      : HashMap K (TaggedCache.Entry O)
  hits       : Nat
  misses     : Nat

namespace TaggedCache

variable {K O : Type}

def new (size expiration : Nat) : TaggedCache K O := ⟨size, expiration, 0, ∅, 0, 0⟩

section

variable [DecidableEq O]

-- The number of strong pointers to an object, of which `held` counts those outside the cache.
def useCount (held : O → Nat) (cache : HashMap K (Entry O)) (o : O) : Nat :=
  held o + cache.values.countP (·.ptr = some o)

def isExpired (held : O → Nat) (cache : HashMap K (Entry O)) (e : Entry O) : Bool :=
  useCount held cache e.weakPtr = 0

def lock (held : O → Nat) (cache : HashMap K (Entry O)) (e : Entry O) : Option O :=
  if isExpired held cache e then none else some e.weakPtr

end

-- The time up to which entries have expired. A cache that is too large ages faster.
def whenExpire (c : TaggedCache K O) (now : Int) : Int :=
  if c.targetSize = 0 ∨ c.cache.size ≤ c.targetSize then
    now - c.targetAge
  else
    let whenExpire := now - c.targetAge * c.targetSize / c.cache.size
    let minimumAge := 1000000000
    if whenExpire > now - minimumAge then now - minimumAge else whenExpire

section

variable [DecidableEq K] [DecidableEq O] (held : O → Nat)

-- The cache and the objects kept alive until a sweep is over.
structure Sweep (K O : Type) where
  cache : TaggedCache K O
  stuffToSweep : List O

def Sweep.holds (s : Sweep K O) (o : O) : Nat :=
  held o + s.stuffToSweep.count o

-- The visit of one entry.
def Sweep.visit (whenExpire : Int) (s : Sweep K O) (key : K) : Sweep K O :=
  let c := s.cache
  match c.cache.find? key with
  | none       => s
  | some entry =>
    match entry.ptr with
    | none =>
      if isExpired (s.holds held) c.cache entry then
        { s with cache := { c with cache := c.cache.erase key } }
      else
        s
    | some ptr =>
      if entry.lastAccess ≤ whenExpire then
        if useCount (s.holds held) c.cache ptr = 1 then
          { cache := { c with
              cache := c.cache.erase key
              cacheCount := c.cacheCount - 1 }
            stuffToSweep := ptr :: s.stuffToSweep }
        else
          { s with cache := { c with
              cache      := c.cache.insert key entry.reset
              cacheCount := c.cacheCount - 1 } }
      else
        s

-- `order` is the order in which the map happens to iterate over its keys.
def sweep (c : TaggedCache K O) (now : Int) (order : List K) : TaggedCache K O :=
  (order.foldl (Sweep.visit held (c.whenExpire now)) ⟨c, []⟩).cache

def del (c : TaggedCache K O) (key : K) (valid : Bool) : Bool × TaggedCache K O :=
  match c.cache.find? key with
  | none       => (false, c)
  | some entry =>
    let ret := entry.isCached
    let cache := if ret then c.cache.insert key entry.reset else c.cache
    let c := { c with cache, cacheCount := if ret then c.cacheCount - 1 else c.cacheCount }
    if !valid || isExpired held cache entry then
      (ret, { c with cache := cache.erase key })
    else
      (ret, c)

-- Returns whether the key was there, and the object that the caller's pointer then refers to.
def canonicalize (replace : Bool) (c : TaggedCache K O) (now : Int) (key : K) (data : O) :
    Bool × O × TaggedCache K O :=
  match c.cache.find? key with
  | none       =>
    (false, data, { c with
      cache      := c.cache.insert key (.new now data)
      cacheCount := c.cacheCount + 1 })
  | some entry =>
    let entry := entry.touch now
    match entry.ptr with
    | some ptr =>
      if replace then
        (true, data, { c with cache := c.cache.insert key ⟨some data, data, now⟩ })
      else
        (true, ptr, { c with cache := c.cache.insert key entry })
    | none =>
      match lock held c.cache entry with
      | some cachedData =>
        if replace then
          (true, data, { c with
            cache      := c.cache.insert key ⟨some data, data, now⟩
            cacheCount := c.cacheCount + 1 })
        else
          (true, cachedData, { c with
            cache      := c.cache.insert key { entry with ptr := some cachedData }
            cacheCount := c.cacheCount + 1 })
      | none =>
        (false, data, { c with
          cache      := c.cache.insert key ⟨some data, data, now⟩
          cacheCount := c.cacheCount + 1 })

def canonicalizeReplaceCache (c : TaggedCache K O) (now : Int) (key : K) (data : O) :
    Bool × TaggedCache K O :=
  let r := c.canonicalize held true now key data
  (r.1, r.2.2)

def canonicalizeReplaceClient (c : TaggedCache K O) (now : Int) (key : K) (data : O) :
    Bool × O × TaggedCache K O :=
  c.canonicalize held false now key data

def fetch (c : TaggedCache K O) (now : Int) (key : K) : Option O × TaggedCache K O :=
  match c.cache.find? key with
  | none       => (none, { c with misses := c.misses + 1 })
  | some entry =>
    let entry := entry.touch now
    match entry.ptr with
    | some ptr => (some ptr, { c with cache := c.cache.insert key entry, hits := c.hits + 1 })
    | none =>
      match lock held c.cache entry with
      | some ptr =>
        (some ptr, { c with
          cache      := c.cache.insert key { entry with ptr := some ptr }
          cacheCount := c.cacheCount + 1 })
      | none => (none, { c with cache := c.cache.erase key, misses := c.misses + 1 })

def refreshIfPresent (c : TaggedCache K O) (now : Int) (key : K) : Bool × TaggedCache K O :=
  match c.cache.find? key with
  | none       => (false, c)
  | some entry =>
    match entry.ptr with
    | none =>
      match lock held c.cache entry with
      | some ptr =>
        (true, { c with
          cache      := c.cache.insert key { entry.touch now with ptr := some ptr }
          cacheCount := c.cacheCount + 1 })
      | none => (false, { c with cache := c.cache.erase key })
    | some _ => (true, { c with cache := c.cache.insert key (entry.touch now) })

end

-- The cache together with the clients that use it.
structure World (C K O : Type) where
  cache : TaggedCache K O
  now   : Int
  -- The strong pointers of the clients.
  refs  : List (C × O)
  -- Which clients got an object from the cache, or gave one to it, for which key.
  got   : List (C × K × O)

namespace World

variable {C : Type} [DecidableEq C] [DecidableEq K] [DecidableEq O]

def heldBy (refs : List (C × O)) (o : O) : Nat :=
  refs.countP (·.2 = o)

def held (w : World C K O) : O → Nat :=
  heldBy w.refs

-- Nobody has seen the object yet.
structure Fresh (w : World C K O) (o : O) : Prop where
  refs    : ∀ c, (c, o) ∉ w.refs
  got     : ∀ c k, (c, k, o) ∉ w.got
  entries : ∀ k e, w.cache.cache.find? k = some e → e.ptr ≠ some o ∧ e.weakPtr ≠ o

def fetch (w : World C K O) (k : K) : Option O × TaggedCache K O :=
  w.cache.fetch w.held w.now k

def canonicalize (w : World C K O) (k : K) (data : O) : Bool × O × TaggedCache K O :=
  w.cache.canonicalizeReplaceClient w.held w.now k data

inductive Step (w : World C K O) : World C K O → Prop
  | make (c o) : w.Fresh o → Step w { w with refs := (c, o) :: w.refs }
  | copy (c c' o) : (c, o) ∈ w.refs → Step w { w with refs := (c', o) :: w.refs }
  | drop (c o) : (c, o) ∈ w.refs → Step w { w with refs := w.refs.erase (c, o) }
  -- The client's pointer refers to the canonical object afterwards.
  | canonicalize (c k o) : (c, o) ∈ w.refs →
    Step w { w with
      cache := (w.canonicalize k o).2.2
      refs  := (c, (w.canonicalize k o).2.1) :: w.refs.erase (c, o)
      got   := (c, k, (w.canonicalize k o).2.1) :: w.got }
  | fetch (c k o) : (w.fetch k).1 = some o →
    Step w { w with
      cache := (w.fetch k).2
      refs  := (c, o) :: w.refs
      got   := (c, k, o) :: w.got }
  | miss (k) : (w.fetch k).1 = none → Step w { w with cache := (w.fetch k).2 }
  | refreshIfPresent (k) :
    Step w { w with cache := (w.cache.refreshIfPresent w.held w.now k).2 }
  | del (k) : Step w { w with cache := (w.cache.del w.held k true).2 }
  | sweep (order) : order.Perm w.cache.cache.keys →
    Step w { w with cache := w.cache.sweep w.held w.now order }
  | tick (now) : w.now ≤ now → Step w { w with now }

inductive Run (size expiration : Nat) : World C K O → Prop
  | new (now) : Run size expiration ⟨.new size expiration, now, [], []⟩
  | step : Run size expiration w → Step w w' → Run size expiration w'

end World

end TaggedCache
