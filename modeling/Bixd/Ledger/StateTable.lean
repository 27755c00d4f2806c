import Bixd.Ledger.ReadView
import Bixd.Lib.Overlay

open RawView

-- The tables that buffer changes of the entries of a view.

namespace StateTable

variable {A : Type} (erased : A → Bool) (items : OrderedMap UInt256 (A × SLEPtr)) (base : ReadView)

-- The queries of both tables. `erased` tells the action of the entries that are erased.

def exists_ (k : Keylet) : Bool :=
  match items.find? k.key with
  | none => base.exists_ k
  | some (a, p) => if erased a then false else k.check p.sle

-- The successor in the base that is not erased in the table, or the one in the table that is not
-- erased. The base is asked once more for each entry of the table at most.
def succ (key : UInt256) (last : Option UInt256) : Option UInt256 :=
  let isErased k := (items.find? k).any (erased ·.1)
  let next := Overlay.skip (base.succ · last) isErased (items.size + 1) key
  Overlay.merge next (items.firstAbove key (fun item => !erased item.1)) last

def read (k : Keylet) : Option SLE :=
  match items.find? k.key with
  | none => base.read k
  | some (a, p) => if erased a then none else if k.check p.sle then some p.sle else none

end StateTable

inductive ApplyStateTable.Action
  | cache
  | erase
  | insert
  | modify
  deriving DecidableEq

structure ApplyStateTable where
  items : OrderedMap UInt256 (ApplyStateTable.Action × SLEPtr) := ∅
  dropsDestroyed : Int := 0
  -- Where the next entry is allocated.
  next : Addr := 0

namespace ApplyStateTable

def exists_ (t : ApplyStateTable) : ReadView → Keylet → Bool :=
  StateTable.exists_ (· = .erase) t.items

def succ (t : ApplyStateTable) : ReadView → UInt256 → Option UInt256 → Option UInt256 :=
  StateTable.succ (· = .erase) t.items

def read (t : ApplyStateTable) : ReadView → Keylet → Option SLE :=
  StateTable.read (· = .erase) t.items

def put (t : ApplyStateTable) (p : SLEPtr) (a : Action) : ApplyStateTable :=
  { t with items := t.items.insert p.key (a, p) }

def drop (t : ApplyStateTable) (p : SLEPtr) : ApplyStateTable :=
  { t with items := t.items.erase p.key }

-- An entry that is not in the table yet is copied from the base.
def peek (t : ApplyStateTable) (base : ReadView) (k : Keylet) : Option SLEPtr × ApplyStateTable :=
  match t.items.find? k.key with
  | none =>
    match base.read k with
    | none => (none, t)
    | some sle =>
      let p := ⟨t.next, sle⟩
      (some p, { t.put p .cache with next := t.next + 1 })
  | some (a, p) => (if a = .erase then none else if k.check p.sle then some p else none, t)

-- The pointer has the entry as it is when the call is made.
def erase (t : ApplyStateTable) (p : SLEPtr) : Except String ApplyStateTable :=
  match t.items.find? p.key with
  | none => .error "ApplyStateTable::erase: missing key"
  | some (a, q) =>
    if q.addr ≠ p.addr then
      .error "ApplyStateTable::erase: unknown SLE"
    else
      match a with
      | .erase  => .error "ApplyStateTable::erase: double erase"
      | .insert => .ok (t.drop p)
      | .cache  => .ok (t.put p .erase)
      | .modify => .ok (t.put p .erase)

def rawErase (t : ApplyStateTable) (p : SLEPtr) : Except String ApplyStateTable :=
  match t.items.find? p.key with
  | none => .ok (t.put p .erase)
  | some (.erase, _) => .error "ApplyStateTable::rawErase: double erase"
  | some (.insert, _) => .ok (t.drop p)
  | some (.cache, _) => .ok (t.put p .erase)
  | some (.modify, _) => .ok (t.put p .erase)

def insert (t : ApplyStateTable) (p : SLEPtr) : Except String ApplyStateTable :=
  match t.items.find? p.key with
  | none => .ok (t.put p .insert)
  | some (.cache, _) => .error "ApplyStateTable::insert: already cached"
  | some (.insert, _) => .error "ApplyStateTable::insert: already inserted"
  | some (.modify, _) => .error "ApplyStateTable::insert: already modified"
  | some (.erase, _) => .ok (t.put p .modify)

def replace (t : ApplyStateTable) (p : SLEPtr) : Except String ApplyStateTable :=
  match t.items.find? p.key with
  | none => .ok (t.put p .modify)
  | some (.erase, _) => .error "ApplyStateTable::replace: already erased"
  | some (.insert, _) => .ok (t.put p .insert)
  | some (.cache, _) => .ok (t.put p .modify)
  | some (.modify, _) => .ok (t.put p .modify)

def update (t : ApplyStateTable) (p : SLEPtr) : Except String ApplyStateTable :=
  match t.items.find? p.key with
  | none => .error "ApplyStateTable::update: missing key"
  | some (a, q) =>
    if q.addr ≠ p.addr then
      .error "ApplyStateTable::update: unknown SLE"
    else
      match a with
      | .erase  => .error "ApplyStateTable::update: erased"
      | .insert => .ok (t.put p .insert)
      | .cache  => .ok (t.put p .modify)
      | .modify => .ok (t.put p .modify)

def destroyBIXRP (t : ApplyStateTable) (fee : Int) : ApplyStateTable :=
  { t with dropsDestroyed := t.dropsDestroyed + fee }

def apply.item {V : Type} [RawView V] (target : V) : Action × SLEPtr → Except String V
  | (.cache, _)  => .ok target
  | (.erase, p)  => RawView.rawErase target p
  | (.insert, p) => rawInsert target p
  | (.modify, p) => rawReplace target p

def apply {V : Type} [RawView V] (t : ApplyStateTable) (target : V) : Except String V :=
  t.items.toList.foldlM (fun target e => apply.item target e.2)
    (rawDestroyBIXRP target t.dropsDestroyed)

def size (t : ApplyStateTable) : Nat :=
  t.items.toList.countP (fun e => e.2.1 ≠ .cache)

-- What `visit` calls its function with for each entry, in this order: the key, whether the entry is
-- deleted, and the entry before and after.
def visit (t : ApplyStateTable) (base : ReadView) :
    List (UInt256 × Bool × Option SLE × Option SLE) :=
  t.items.toList.filterMap fun
    | (_, .cache, _)    => none
    | (key, .erase, p)  => some (key, true, base.read (.unchecked key), some p.sle)
    | (key, .insert, p) => some (key, false, none, some p.sle)
    | (key, .modify, p) => some (key, false, base.read (.unchecked key), some p.sle)

end ApplyStateTable

inductive RawStateTable.Action
  | erase
  | insert
  | replace
  deriving DecidableEq

structure RawStateTable where
  items : OrderedMap UInt256 (RawStateTable.Action × SLEPtr) := ∅
  dropsDestroyed : Int := 0

namespace RawStateTable

def exists_ (t : RawStateTable) : ReadView → Keylet → Bool :=
  StateTable.exists_ (· = .erase) t.items

def succ (t : RawStateTable) : ReadView → UInt256 → Option UInt256 → Option UInt256 :=
  StateTable.succ (· = .erase) t.items

def read (t : RawStateTable) : ReadView → Keylet → Option SLE :=
  StateTable.read (· = .erase) t.items

def put (t : RawStateTable) (p : SLEPtr) (a : Action) : RawStateTable :=
  { t with items := t.items.insert p.key (a, p) }

def drop (t : RawStateTable) (p : SLEPtr) : RawStateTable :=
  { t with items := t.items.erase p.key }

def erase (t : RawStateTable) (p : SLEPtr) : Except String RawStateTable :=
  match t.items.find? p.key with
  | none => .ok (t.put p .erase)
  | some (.erase, _) => .error "RawStateTable::erase: already erased"
  | some (.insert, _) => .ok (t.drop p)
  | some (.replace, _) => .ok (t.put p .erase)

def insert (t : RawStateTable) (p : SLEPtr) : Except String RawStateTable :=
  match t.items.find? p.key with
  | none => .ok (t.put p .insert)
  | some (.erase, _) => .ok (t.put p .replace)
  | some (.insert, _) => .error "RawStateTable::insert: already inserted"
  | some (.replace, _) => .error "RawStateTable::insert: already exists"

def replace (t : RawStateTable) (p : SLEPtr) : Except String RawStateTable :=
  match t.items.find? p.key with
  | none => .ok (t.put p .replace)
  | some (.erase, _) => .error "RawStateTable::replace: was erased"
  | some (.insert, _) => .ok (t.put p .insert)
  | some (.replace, _) => .ok (t.put p .replace)

def destroyBIXRP (t : RawStateTable) (fee : Int) : RawStateTable :=
  { t with dropsDestroyed := t.dropsDestroyed + fee }

def apply.item {V : Type} [RawView V] (target : V) : Action × SLEPtr → Except String V
  | (.erase, p)   => rawErase target p
  | (.insert, p)  => rawInsert target p
  | (.replace, p) => rawReplace target p

def apply {V : Type} [RawView V] (t : RawStateTable) (target : V) : Except String V :=
  t.items.toList.foldlM (fun target e => apply.item target e.2)
    (rawDestroyBIXRP target t.dropsDestroyed)

end RawStateTable
