import Bixd.Consensus.LedgerTrie
import Bixd.Lib.HashMap

open LedgerTrie (Ledger)

-- Timing parameters in seconds.
structure ValidationParms where
  validationCURRENT_WALL  : Nat := 5 * 60
  validationCURRENT_LOCAL : Nat := 3 * 60
  validationCURRENT_EARLY : Nat := 3 * 60
  validationSET_EXPIRES   : Nat := 10 * 60
  validationFRESHNESS     : Nat := 20

-- The sequence number of the largest validation, with the time it was seen.
structure SeqEnforcer where
  seq  : Nat := 0
  when : Int := 0

-- The call operator: tries to advance the largest sequence number.
def SeqEnforcer.call (e : SeqEnforcer) (now : Int) (s : Nat) (p : ValidationParms) :
    Bool × SeqEnforcer :=
  let e := if now > e.when + p.validationSET_EXPIRES then { e with seq := 0 } else e
  if s ≤ e.seq then (false, e) else (true, ⟨s, now⟩)

def SeqEnforcer.largest (e : SeqEnforcer) : Nat :=
  e.seq

-- Times of the network clock. A seen time of zero stands for a validation that was not seen yet.
def isCurrent (p : ValidationParms) (now signTime seenTime : Int) : Bool :=
  signTime > now - p.validationCURRENT_EARLY &&
  signTime < now + p.validationCURRENT_WALL &&
  (seenTime == 0 || seenTime < now + p.validationCURRENT_LOCAL)

inductive ValStatus where
  | current
  | stale
  | badSeq
  | multiple
  | conflicting
deriving DecidableEq

-- The template parameter `Validation`, without what it wraps.
structure Validation (I : Type) where
  ledgerID : I
  seq      : Nat
  signTime : Int
  seenTime : Int
  trusted  : Bool
  full     : Bool
  key      : Nat
  cookie   : Nat
  loadFee  : Option Nat

namespace Validation

variable {I : Type}

def setTrusted (v : Validation I) : Validation I :=
  { v with trusted := true }

def setUntrusted (v : Validation I) : Validation I :=
  { v with trusted := false }

-- The key under which the validation's ledger is acquired.
def pair (v : Validation I) : Nat × I :=
  (v.seq, v.ledgerID)

end Validation

-- What the validations ask of their surroundings: the adaptor's network clock and ledgers, the
-- steady clock of the aged maps, and the order in which a hash container is iterated. An answer may
-- depend on everything asked before.
class Adaptor (A L : Type) {I : outParam Type} [Ledger L I] where
  now : A → Int × A
  clock : A → Int × A
  acquire : A → I → Option L × A
  order : {α : Type} → A → List α → List α × A
  acquire_id : ∀ {a i l}, (acquire a i).1 = some l → Ledger.id l = i
  order_perm : ∀ {α} a (l : List α), (order a l).1.Perm l

-- An entry of an aged container.
structure Aged (V : Type) where
  value : V
  when  : Int

-- The nodes that wait for a ledger to be acquired.
abbrev Acquiring (I N : Type) := HashMap (Nat × I) (List N)

namespace Acquiring

variable {I N : Type} [DecidableEq I] [DecidableEq N]

-- Drops a node from the nodes that wait for a ledger, and the ledger if it was the last one.
def erase (acquiring : Acquiring I N) (p : Nat × I) (nodeID : N) : Acquiring I N :=
  match acquiring.find? p with
  | none       => acquiring
  | some nodes =>
    let nodes := nodes.filter (· ≠ nodeID)
    if nodes.isEmpty then HashMap.erase acquiring p else HashMap.insert acquiring p nodes

def insert (acquiring : Acquiring I N) (p : Nat × I) (nodeID : N) : Acquiring I N :=
  HashMap.insert acquiring p (((acquiring.find? p).getD []).insert nodeID)

end Acquiring

structure Validations (A L I N : Type) where
  -- Validations from currently listed and trusted nodes, by node
  current : HashMap N (Validation I)
  localSeqEnforcer : SeqEnforcer
  seqEnforcers : HashMap N SeqEnforcer
  byLedger : HashMap I (Aged (HashMap N (Validation I)))
  bySequence : HashMap Nat (Aged (HashMap N (Validation I)))
  toKeep : Option Nat
  trie : LedgerTrie L
  -- Last ledger successfully acquired, by node. If in this map, it is accounted for in the trie
  lastLedger : HashMap N L
  acquiring : Acquiring I N
  parms : ValidationParms
  adaptor : A

namespace Validations

variable {A L I N : Type} [Ledger L I] [Adaptor A L] [LinearOrder I] [DecidableEq N]

def init (p : ValidationParms) (a : A) : Validations A L I N where
  current := ∅
  localSeqEnforcer := {}
  seqEnforcers := ∅
  byLedger := ∅
  bySequence := ∅
  toKeep := none
  trie := .empty
  lastLedger := ∅
  acquiring := ∅
  parms := p
  adaptor := a

variable (s : Validations A L I N)

def askNow : Int × Validations A L I N :=
  let (t, adaptor) := Adaptor.now L s.adaptor
  (t, { s with adaptor })

def askClock : Int × Validations A L I N :=
  let (t, adaptor) := Adaptor.clock L s.adaptor
  (t, { s with adaptor })

def acquire (i : I) : Option L × Validations A L I N :=
  let (r, adaptor) := Adaptor.acquire s.adaptor i
  (r, { s with adaptor })

def order {α : Type} (l : List α) : List α × Validations A L I N :=
  let (l, adaptor) := Adaptor.order L s.adaptor l
  (l, { s with adaptor })

def eraseAcquiring (p : Nat × I) (nodeID : N) : Validations A L I N :=
  { s with acquiring := Acquiring.erase s.acquiring p nodeID }

def insertAcquiring (p : Nat × I) (nodeID : N) : Validations A L I N :=
  { s with acquiring := Acquiring.insert s.acquiring p nodeID }

def removeTrie (nodeID : N) (val : Validation I) : Validations A L I N :=
  let s := s.eraseAcquiring val.pair nodeID
  match s.lastLedger.find? nodeID with
  | none => s
  | some ledger =>
    if Ledger.id ledger = val.ledgerID then
      { s with
        trie       := (s.trie.remove ledger).2
        lastLedger := s.lastLedger.erase nodeID }
    else
      s

-- `updateTrie` for an acquired ledger.
def updateTrieLedger (nodeID : N) (ledger : L) : Validations A L I N :=
  let trie :=
    match s.lastLedger.find? nodeID with
    | none     => s.trie
    | some old => (s.trie.remove old).2
  { s with
    lastLedger := s.lastLedger.insert nodeID ledger
    trie       := trie.insert ledger }

-- Gives an acquired ledger to the nodes that waited for it.
def acquired (e : (Nat × I) × List N) (ledger : L) : Validations A L I N :=
  let (nodes, s) := s.order e.2
  let s := nodes.foldl (fun s nodeID => s.updateTrieLedger nodeID ledger) s
  { s with acquiring := HashMap.erase s.acquiring e.1 }

-- The body of the loop of `checkAcquired`.
def checkEntry (e : (Nat × I) × List N) : Validations A L I N :=
  match s.acquire e.1.2 with
  | (none, s) => s
  | (some ledger, s) => s.acquired e ledger

def checkAcquired : Validations A L I N :=
  let (entries, s) := s.order s.acquiring.toList
  entries.foldl checkEntry s

-- `updateTrie` for a new validation.
def updateTrie (nodeID : N) (val : Validation I) (prior : Option (Nat × I)) :
    Validations A L I N :=
  let s :=
    match prior with
    | none   => s
    | some p => s.eraseAcquiring p nodeID
  let s := s.checkAcquired
  match s.acquiring.find? val.pair with
  | some _ => s.insertAcquiring val.pair nodeID
  | none =>
    match s.acquire val.ledgerID with
    | (some ledger, s) => s.updateTrieLedger nodeID ledger
    | (none, s) => s.insertAcquiring val.pair nodeID

-- The body of the loop of `current`, with the caller's `f`.
def currentEntry {β : Type} (t : Int) (f : β → N → Validation I → A → β × A)
    (r : β × Validations A L I N) (e : N × Validation I) : β × Validations A L I N :=
  let (b, s) := r
  if isCurrent s.parms t e.2.signTime e.2.seenTime then
    let (b, adaptor) := f b e.1 e.2 s.adaptor
    (b, { s with adaptor })
  else
    let s := s.removeTrie e.1 e.2
    (b, { s with current := s.current.erase e.1 })

-- Iterates the current validations and flushes those that are stale. Returns the time at which
-- staleness was checked as well.
def iterCurrent {β : Type} (b : β) (f : β → N → Validation I → A → β × A) :
    Int × β × Validations A L I N :=
  let (t, s) := s.askNow
  let (entries, s) := s.order s.current.toList
  (t, entries.foldl (currentEntry t f) (b, s))

-- The state in which `withTrie` calls its callback, with the time at which staleness was checked.
def withTrieState : Int × Validations A L I N :=
  let (t, _, s) := s.iterCurrent () fun _ _ _ a => ((), a)
  (t, s.checkAcquired)

def withTrie {β : Type} (f : LedgerTrie L → β × LedgerTrie L) : β × Validations A L I N :=
  let (_, s) := s.withTrieState
  let (b, trie) := f s.trie
  (b, { s with trie })

def canValidateSeq (seq : Nat) : Bool × Validations A L I N :=
  let (now, s) := s.askClock
  let (ok, enf) := s.localSeqEnforcer.call now seq s.parms
  (ok, { s with localSeqEnforcer := enf })

-- Stores the validation under its sequence number and returns the entry of the node there: the one
-- that was there, unless it was signed long ago.
def trackSequence (nodeID : N) (val : Validation I) : Validation I × Validations A L I N :=
  let (now, s) := s.askClock
  let aged := (s.bySequence.find? val.seq).getD ⟨∅, now⟩
  let tracked :=
    match aged.value.find? nodeID with
    | none       => val
    | some entry =>
      let diff := max entry.signTime val.signTime - min entry.signTime val.signTime
      if diff > s.parms.validationCURRENT_WALL && val.signTime > entry.signTime then val else entry
  let aged := { aged with value := aged.value.insert nodeID tracked }
  (tracked, { s with bySequence := s.bySequence.insert val.seq aged })

-- `byLedger_[val.ledgerID()].insert_or_assign(nodeID, val)`
def storeByLedger (nodeID : N) (val : Validation I) : Validations A L I N :=
  let (now, s) := s.askClock
  let aged := (s.byLedger.find? val.ledgerID).getD ⟨∅, now⟩
  let aged := { aged with value := aged.value.insert nodeID val }
  { s with byLedger := s.byLedger.insert val.ledgerID aged }

-- The checks that a validation passes before it may become the current one of its node. `none`
-- stands for a validation that passes.
def vet (nodeID : N) (val : Validation I) : Option ValStatus × Validations A L I N :=
  let (t, s) := s.askNow
  if !isCurrent s.parms t val.signTime val.seenTime then
    (some .stale, s)
  else
    let (now, s) := s.askClock
    let (tracked, s) := s.trackSequence nodeID val
    let (ok, enf) := ((s.seqEnforcers.find? nodeID).getD {}).call now val.seq s.parms
    let s := { s with seqEnforcers := s.seqEnforcers.insert nodeID enf }
    if ok then
      (none, s)
    else if tracked.seq = val.seq then
      if tracked.ledgerID ≠ val.ledgerID then (some .conflicting, s)
      else if tracked.cookie ≠ val.cookie then (some .multiple, s)
      else (some .badSeq, s)
    else
      (some .badSeq, s)

def add (nodeID : N) (val : Validation I) : ValStatus × Validations A L I N :=
  match s.vet nodeID val with
  | (some status, s) => (status, s)
  | (none, s) =>
    let s := s.storeByLedger nodeID val
    match s.current.find? nodeID with
    | some oldVal =>
      if val.signTime > oldVal.signTime then
        let s := { s with current := s.current.insert nodeID val }
        (.current, if val.trusted then s.updateTrie nodeID val (some oldVal.pair) else s)
      else
        (.stale, s)
    | none =>
      let s := { s with current := s.current.insert nodeID val }
      (.current, if val.trusted then s.updateTrie nodeID val none else s)

def setSeqToKeep (seq : Nat) : Validations A L I N :=
  { s with toKeep := some seq }

-- `beast::expire`: removes the entries that were not touched for the given time.
def expireAged {K V : Type} [DecidableEq K] (m : HashMap K (Aged V)) (now : Int) (age : Nat) :
    HashMap K (Aged V) :=
  m.toList.foldl (fun m e => if e.2.when ≤ now - age then m.erase e.1 else m) m

def touch {K V : Type} [DecidableEq K] (m : HashMap K (Aged V)) (k : K) (now : Int) :
    HashMap K (Aged V) :=
  match m.find? k with
  | none   => m
  | some e => m.insert k { e with when := now }

-- Touches the sets of validations that are to be kept.
def keep (seq : Nat) : Validations A L I N :=
  let (now, s) := s.askClock
  let (ledgers, s) := s.order s.byLedger.toList
  let s := ledgers.foldl (fun s e =>
    let (vals, s) := s.order e.2.value.toList
    match vals with
    | (_, val) :: _ => if val.seq ≥ seq then { s with byLedger := touch s.byLedger e.1 now } else s
    | [] => s) s
  s.bySequence.toList.foldl (fun s e =>
    if e.1 ≥ seq then { s with bySequence := touch s.bySequence e.1 now } else s) s

def expire : Validations A L I N :=
  let s :=
    match s.toKeep with
    | some seq => s.keep seq
    | none     => s
  let (now, s) := s.askClock
  { s with
    byLedger   := expireAged s.byLedger now s.parms.validationSET_EXPIRES
    bySequence := expireAged s.bySequence now s.parms.validationSET_EXPIRES }

-- The body of the first loop of `trustChanged`.
def trustEntry (added removed : List N) (e : N × Validation I) : Validations A L I N :=
  if e.1 ∈ added then
    let s := { s with current := s.current.insert e.1 e.2.setTrusted }
    s.updateTrie e.1 e.2.setTrusted none
  else if e.1 ∈ removed then
    let s := { s with current := s.current.insert e.1 e.2.setUntrusted }
    s.removeTrie e.1 e.2.setUntrusted
  else
    s

-- The new status of a stored validation of a node.
def retrust (added removed : List N) (e : N × Validation I) : Validation I :=
  if e.1 ∈ added then e.2.setTrusted
  else if e.1 ∈ removed then e.2.setUntrusted
  else e.2

def trustChanged (added removed : List N) : Validations A L I N :=
  let (entries, s) := s.order s.current.toList
  let s := entries.foldl (trustEntry · added removed) s
  s.byLedger.toList.foldl (fun s e =>
    let vals := e.2.value.toList.foldl
      (fun m v => m.insert v.1 (retrust added removed v)) e.2.value
    { s with byLedger := s.byLedger.insert e.1 { e.2 with value := vals } }) s

-- The first largest element of a list.
def maxElement {α : Type} (lt : α → α → Bool) : List α → Option α
  | []      => none
  | x :: xs => some (xs.foldl (fun m y => if lt m y then y else m) x)

-- How a pair of a ledger id and the number that supports it compares, by the number first.
def countLt (a b : Nat × I) : Bool :=
  decide (a.1 < b.1) || (a.1 == b.1 && decide (a.2 < b.2))

def getPreferred (ps : LedgerTrie.PartialSort L) (curr : L) :
    Option (Nat × I) × Validations A L I N :=
  let (preferred, s) :=
    s.withTrie fun trie => trie.getPreferred ps s.localSeqEnforcer.largest
  match preferred with
  | none =>
    let (entries, s) := s.order s.acquiring.toList
    let best := maxElement (fun a b => countLt (a.2.length, a.1.2) (b.2.length, b.1.2)) entries
    (best.map (·.1), s)
  | some tip =>
    let pick :=
      -- the parent of the preferred ledger might be about to generate it
      if tip.seq = Ledger.seq curr + 1 ∧ tip.ancestor (Ledger.seq curr) = Ledger.id curr then
        (Ledger.seq curr, Ledger.id curr)
      else if tip.seq > Ledger.seq curr then
        (tip.seq, tip.id)
      -- an earlier ledger is taken only if it is on another chain
      else if Ledger.ancestor curr tip.seq ≠ tip.id then
        (tip.seq, tip.id)
      else
        (Ledger.seq curr, Ledger.id curr)
    (some pick, s)

def getPreferredMin (ps : LedgerTrie.PartialSort L) (curr : L) (minValidSeq : Nat) :
    I × Validations A L I N :=
  match s.getPreferred ps curr with
  | (some (seq, id), s) => (if seq ≥ minValidSeq then id else Ledger.id curr, s)
  | (none, s) => (Ledger.id curr, s)

def getPreferredLCL (ps : LedgerTrie.PartialSort L) (lcl : L) (minSeq : Nat)
    (peerCounts : List (I × Nat)) : I × Validations A L I N :=
  match s.getPreferred ps lcl with
  | (some (seq, id), s) => (if seq ≥ minSeq then id else Ledger.id lcl, s)
  | (none, s) =>
    match maxElement (fun a b => countLt (a.2, a.1) (b.2, b.1)) peerCounts with
    | some (id, _) => (id, s)
    | none => (Ledger.id lcl, s)

def getNodesAfter (ledger : L) (ledgerID : I) : Nat × Validations A L I N :=
  if Ledger.id ledger = ledgerID then
    s.withTrie fun trie =>
      (LedgerTrie.sub32 (trie.branchSupport ledger) (trie.tipSupport ledger), trie)
  else
    (s.lastLedger.toList.countP fun e =>
      decide (Ledger.seq e.2 > 0) && Ledger.ancestor e.2 (Ledger.seq e.2 - 1) == ledgerID, s)

def currentTrusted : List (Validation I) × Validations A L I N :=
  let (_, r) := s.iterCurrent [] fun ret _ v a =>
    (if v.trusted && v.full then ret ++ [v] else ret, a)
  r

def getCurrentNodeIDs : List N × Validations A L I N :=
  let (_, r) := s.iterCurrent [] fun ret nodeID _ a => (ret.insert nodeID, a)
  r

-- Iterates the validations for a ledger and marks the set as used.
def iterByLedger {β : Type} (ledgerID : I) (b : β) (f : β → N → Validation I → β) :
    β × Validations A L I N :=
  match s.byLedger.find? ledgerID with
  | none   => (b, s)
  | some e =>
    let (now, s) := s.askClock
    let s := { s with byLedger := touch s.byLedger ledgerID now }
    let (vals, s) := s.order e.value.toList
    (vals.foldl (fun b v => f b v.1 v.2) b, s)

def numTrustedForLedger (ledgerID : I) : Nat × Validations A L I N :=
  s.iterByLedger ledgerID 0 fun count _ v => if v.trusted && v.full then count + 1 else count

def getTrustedForLedger (ledgerID : I) : List (Validation I) × Validations A L I N :=
  s.iterByLedger ledgerID [] fun res _ v => if v.trusted && v.full then res ++ [v] else res

def fees (ledgerID : I) (baseFee : Nat) : List Nat × Validations A L I N :=
  s.iterByLedger ledgerID [] fun res _ v =>
    if v.trusted && v.full then res ++ [v.loadFee.getD baseFee] else res

-- Returns the number of laggards with the keys that are left.
def laggards (seq : Nat) (trustedKeys : List Nat) : (Nat × List Nat) × Validations A L I N :=
  let p := s.parms
  let (_, r) := s.iterCurrent (0, trustedKeys) fun (laggards, keys) _ v a =>
    let (now, a) := Adaptor.now L a
    if now < v.seenTime + p.validationFRESHNESS && keys.contains v.key then
      ((if seq > v.seq then laggards + 1 else laggards, keys.filter (· ≠ v.key)), a)
    else
      ((laggards, keys), a)
  r

end Validations
