import Mathlib

namespace LedgerTrie

-- The template parameter `Ledger`: a ledger is a string of ids, one for each sequence number up to
-- its own, and an id names one ledger. The laws are the "unique history invariant" that the header
-- requires, and what it documents of the genesis ledger and of `mismatch`.
class Ledger (L : Type) (I : outParam Type) where
  seq : L → Nat
  ancestor : L → Nat → I
  genesis : L
  mismatch : L → L → Nat
  seq_genesis : seq genesis = 0
  genesis_anc : ∀ a, ancestor a 0 = ancestor genesis 0
  unique : ∀ {a b s p}, s ≤ seq a → s ≤ seq b → ancestor a s = ancestor b s → p ≤ s →
                  ancestor a p = ancestor b p
  anc_seq : ∀ {a b s t}, s ≤ seq a → t ≤ seq b → ancestor a s = ancestor b t → s = t
  id_inj : ∀ {a b}, ancestor a (seq a) = ancestor b (seq b) → a = b
  mismatch_le : ∀ a b, mismatch a b ≤ min (seq a) (seq b) + 1
  mismatch_eq : ∀ {a b p}, p < mismatch a b → ancestor a p = ancestor b p
  mismatch_ne : ∀ {a b}, mismatch a b ≤ min (seq a) (seq b) →
                  ancestor a (mismatch a b) ≠ ancestor b (mismatch a b)

variable {L I : Type} [Ledger L I]

def Ledger.id (l : L) : I :=
  ancestor l (seq l)

-- Arithmetic of `std::uint32_t`.
def add32 (a b : Nat) : Nat :=
  (a + b) % 2 ^ 32

def sub32 (a b : Nat) : Nat :=
  (a + 2 ^ 32 - b) % 2 ^ 32

structure SpanTip (L I : Type) where
  seq    : Nat
  id     : I
  ledger : L

def SpanTip.ancestor (t : SpanTip L I) (s : Nat) : I :=
  Ledger.ancestor t.ledger s

-- The half-open interval `[start, end)` of a ledger's history.
structure Span (L : Type) where
  start  : Nat
  «end»  : Nat
  ledger : L

namespace Span

def root : Span L :=
  ⟨0, 1, Ledger.genesis⟩

def ofLedger (ledger : L) : Span L :=
  ⟨0, Ledger.seq ledger + 1, ledger⟩

def clamp (s : Span L) (val : Nat) : Nat :=
  min (max s.start val) s.end

def sub (s : Span L) (a b : Nat) : Option (Span L) :=
  let newFrom := s.clamp a
  let newTo := s.clamp b
  if newFrom < newTo then some ⟨newFrom, newTo, s.ledger⟩ else none

def «from» (s : Span L) (spot : Nat) : Option (Span L) :=
  s.sub spot s.end

def before (s : Span L) (spot : Nat) : Option (Span L) :=
  s.sub s.start spot

def startID (s : Span L) : I :=
  Ledger.ancestor s.ledger s.start

def diff (s : Span L) (o : L) : Nat :=
  s.clamp (Ledger.mismatch s.ledger o)

def tip (s : Span L) : SpanTip L I :=
  let tipSeq := s.end - 1
  ⟨tipSeq, Ledger.ancestor s.ledger tipSeq, s.ledger⟩

def merge (a b : Span L) : Span L :=
  if a.end < b.end then
    ⟨min a.start b.start, b.end, b.ledger⟩
  else
    ⟨min a.start b.start, a.end, a.ledger⟩

end Span

-- `addr` is the address of the node: it is what the `parent` pointers of its children hold.
structure Node (L : Type) where
  addr : Nat
  span : Span L
  tipSupport : Nat
  branchSupport : Nat
  children : List (Node L)
  parent : Option Nat

-- A `Node*` into the trie is the path that leads to the node from the root: the child indices.
abbrev Path := List Nat

namespace Node

def ofSpan (addr : Nat) (span : Span L) (parent : Option Nat) : Node L :=
  ⟨addr, span, 0, 0, [], parent⟩

def startID (n : Node L) : I :=
  n.span.startID

-- The child is swapped with the last one, which is then dropped.
def erase (n : Node L) (i : Nat) : Node L :=
  match n.children.getLast? with
  | none      => n
  | some last => { n with children := (n.children.set i last).dropLast }

def addChild (n c : Node L) : Node L :=
  { n with children := n.children ++ [c] }

def get? : Path → Node L → Option (Node L)
  | [],     n => some n
  | i :: p, n => n.children[i]?.bind (get? p)

def modifyAt (f : Node L → Node L) : Path → Node L → Node L
  | [],     n => f n
  | i :: p, n => { n with children := n.children.modify i (modifyAt f p) }

-- Applies `f` to the node at the path and then to every node on its chain of parents.
def modifyUp (f : Node L → Node L) : Path → Node L → Node L
  | [],     n => f n
  | i :: p, n => f { n with children := n.children.modify i (modifyUp f p) }

def incBranch (count : Nat) (n : Node L) : Node L :=
  { n with branchSupport := add32 n.branchSupport count }

def decBranch (count : Nat) (n : Node L) : Node L :=
  { n with branchSupport := sub32 n.branchSupport count }

mutual

-- The loop of `find` standing on a node, with `pos` the first difference with the node's span.
def find (ledger : L) (pos : Nat) : Node L → Path × Nat
  | ⟨_, span, _, _, children, _⟩ =>
    if pos = span.end then findChild ledger pos 0 children else ([], pos)

def findChild (ledger : L) (pos : Nat) (i : Nat) : List (Node L) → Path × Nat
  | [] => ([], pos)
  | child :: rest =>
    let childPos := child.span.diff ledger
    if pos < childPos then
      let (p, q) := find ledger childPos child
      (i :: p, q)
    else
      findChild ledger pos (i + 1) rest

end

mutual

def findByLedgerID [DecidableEq I] (ledger : L) : Node L → Option Path
  | ⟨_, span, _, _, children, _⟩ =>
    if Ledger.id ledger = span.tip.id then some [] else findByLedgerIDs ledger 0 children

def findByLedgerIDs [DecidableEq I] (ledger : L) (i : Nat) : List (Node L) → Option Path
  | [] => none
  | child :: rest =>
    match findByLedgerID ledger child with
    | some p => some (i :: p)
    | none   => findByLedgerIDs ledger (i + 1) rest

end

-- `loc` truncates to the prefix and a new node at `addr` takes over what `loc` held.
def split (addr diffSeq : Nat) (loc : Node L) : Node L :=
  match loc.span.from diffSeq, loc.span.before diffSeq with
  | some oldSuffix, some pre =>
    let newNode : Node L := {
      addr := addr
      span := oldSuffix
      tipSupport := loc.tipSupport
      branchSupport := loc.branchSupport
      children := loc.children.map fun child => { child with parent := some addr }
      parent := some loc.addr
    }
    { loc with span := pre, children := [newNode], tipSupport := 0 }
  | _, _ => loc

-- The node whose tip support grows is the new one where there is a suffix, `loc` where there is
-- none.
def addTip (addr diffSeq : Nat) (ledger : L) (count : Nat) (loc : Node L) : Node L :=
  match (Span.ofLedger ledger).from diffSeq with
  | some newSuffix =>
    let newNode := ofSpan addr newSuffix (some loc.addr)
    loc.addChild { newNode with
      tipSupport    := add32 newNode.tipSupport count
      branchSupport := add32 newNode.branchSupport count }
  | none => { loc with tipSupport := add32 loc.tipSupport count }

-- The body of `insert` for the place that `find` has found.
def insertAt (next diffSeq : Nat) (ledger : L) (count : Nat) (loc : Path) (n : Node L) : Node L :=
  let n := modifyAt (fun m => addTip (next + 1) diffSeq ledger count (split next diffSeq m)) loc n
  modifyUp (incBranch count) loc n

-- One round of the compressing loop of `remove`: `loc` is what the child of `n` with the index `i`
-- has become, and `reached` tells whether the loop has come up to it.
def compressStep (n : Node L) (i : Nat) (loc : Node L) (reached : Bool) : Node L × Bool :=
  let n := { n with children := n.children.set i loc }
  if reached && loc.tipSupport == 0 then
    match loc.children with
    | []      => (n.erase i, true)
    | [child] =>
      let child := { child with span := loc.span.merge child.span, parent := some n.addr }
      ((n.addChild child).erase i, true)
    | _       => (n, false)
  else
    (n, false)

-- The compressing loop runs up the path from the node at its end. The root is never compressed
-- itself.
def compress : Path → Node L → Node L × Bool
  | [],     n => (n, true)
  | i :: p, n =>
    match n.children[i]? with
    | none     => (n, false)
    | some loc =>
      let (loc, reached) := compress p loc
      n.compressStep i loc reached

-- The body of `remove` for the place that `findByLedgerID` has found.
def removeAt (count : Nat) (loc : Path) (n : Node L) : Node L :=
  let n := modifyAt (fun m => { m with tipSupport := sub32 m.tipSupport count }) loc n
  let n := modifyUp (decBranch count) loc n
  (compress loc n).1

end Node

-- The `std::map` from sequence numbers to support.
abbrev SeqSupport := Std.ExtTreeMap Nat Nat

namespace SeqSupport

def inc (m : SeqSupport) (seq count : Nat) : SeqSupport :=
  m.alter seq fun c => some (add32 (c.getD 0) count)

def dec (m : SeqSupport) (seq count : Nat) : SeqSupport :=
  m.alter seq fun
    | none   => none
    | some c => if sub32 c count = 0 then none else some (sub32 c count)

end SeqSupport

namespace Node

mutual

-- The body of the loop of `checkInvariants` for a node and then for all nodes below it. `none` is
-- the early `return false`; as the nodes are kept on a stack, the last child comes first.
def expectedSeqSupport (isRoot : Bool) (m : SeqSupport) : Node L → Option SeqSupport
  | ⟨addr, span, tipSupport, branchSupport, children, _⟩ =>
    if !isRoot && tipSupport == 0 && decide (children.length < 2) then
      none
    else
      let m := if tipSupport ≠ 0 then m.inc (span.end - 1) tipSupport else m
      let support := tipSupport + (children.map (·.branchSupport)).sum
      if children.any (·.parent ≠ some addr) then none
      else if support ≠ branchSupport then none
      else expectedSeqSupports m children

def expectedSeqSupports (m : SeqSupport) : List (Node L) → Option SeqSupport
  | [] => some m
  | child :: rest => do expectedSeqSupport false (← expectedSeqSupports m rest) child

end

-- The order of `std::partial_sort` in `getPreferred`: the better child comes first.
def better [LinearOrder I] (a b : Node L) : Bool :=
  decide (b.branchSupport < a.branchSupport) ||
    (b.branchSupport == a.branchSupport && decide (b.startID < a.startID))

end Node

-- What `std::partial_sort` does with the middle two behind the front: the two best come first, in
-- order, and the order of the others is not specified.
structure PartialSort (L : Type) {I : Type} [Ledger L I] [LinearOrder I] where
  sort : List (Node L) → List (Node L)
  perm : ∀ cs, (sort cs).Perm cs
  top  : ∀ {cs a b rest}, sort cs = a :: b :: rest →
          b.better a = false ∧ ∀ c ∈ rest, c.better a = false ∧ c.better b = false

namespace Node

-- Adds the support of the sequences before `bound`; the iterator is the rest of `seqSupport`.
def addUncommitted (bound : Nat) : Nat → List (Nat × Nat) → Nat × List (Nat × Nat)
  | uncommitted, [] => (uncommitted, [])
  | uncommitted, (s, c) :: rest =>
    if s < bound then
      addUncommitted bound (add32 uncommitted c) rest
    else
      (uncommitted, (s, c) :: rest)

-- Advances `nextSeq` along a span that ends at `stop`.
def advance (stop branchSupport : Nat) :
    Nat → Nat → List (Nat × Nat) → Nat × Nat × List (Nat × Nat)
  | nextSeq, uncommitted, [] =>
    if nextSeq < stop && decide (branchSupport > uncommitted) then
      (stop, uncommitted, [])
    else
      (nextSeq, uncommitted, [])
  | nextSeq, uncommitted, (s, c) :: rest =>
    if nextSeq < stop && decide (branchSupport > uncommitted) then
      if s < stop then
        advance stop branchSupport (s + 1) (add32 uncommitted c) rest
      else
        (stop, uncommitted, (s, c) :: rest)
    else
      (nextSeq, uncommitted, (s, c) :: rest)

theorem sizeOf_lt_of_mem_children {n : Node L} (h : c ∈ n.children) : sizeOf c < sizeOf n := by
  cases n
  have := List.sizeOf_lt_of_mem h
  simp only [mk.sizeOf_spec] at *
  omega

-- How far the best child is ahead of the second one. A best child that also holds the tie-breaker is
-- one further ahead.
def margin [LinearOrder I] (best second : Node L) : Nat :=
  let margin := sub32 best.branchSupport second.branchSupport
  if best.startID > second.startID then add32 margin 1 else margin

-- The loop of `getPreferred` standing on a node. The node comes back with the children that were
-- sorted on the way.
def preferred [LinearOrder I] (ps : PartialSort L) (largestIssued uncommitted : Nat)
    (it : List (Nat × Nat)) (n : Node L) : Option (SpanTip L I) × Node L :=
  let nextSeq := n.span.start + 1
  let (uncommitted, it) := addUncommitted (max nextSeq largestIssued) uncommitted it
  let (nextSeq, uncommitted, it) := advance n.span.end n.branchSupport nextSeq uncommitted it
  if nextSeq < n.span.end then
    ((n.span.before nextSeq).map (·.tip), n)
  else
    match _h : n.children with
    | []   => (some n.span.tip, n)
    | [best] =>
      if uncommitted < best.branchSupport || uncommitted == 0 then
        let (r, best) := preferred ps largestIssued uncommitted it best
        (r, { n with children := [best] })
      else
        (some n.span.tip, n)
    | _ :: _ :: _ =>
      match _hs : ps.sort n.children with
      | best :: second :: rest =>
        if uncommitted < margin best second || uncommitted == 0 then
          let (r, best) := preferred ps largestIssued uncommitted it best
          (r, { n with children := best :: second :: rest })
        else
          (some n.span.tip, { n with children := best :: second :: rest })
      | cs => (none, { n with children := cs })
termination_by sizeOf n
decreasing_by
  · apply sizeOf_lt_of_mem_children
    simp [_h]
  · apply sizeOf_lt_of_mem_children
    apply ps.perm n.children |>.subset
    simp [_hs]

end Node
end LedgerTrie

-- `nextAddr` is the address of the next node to be allocated.
structure LedgerTrie (L : Type) where
  root       : LedgerTrie.Node L
  seqSupport : LedgerTrie.SeqSupport
  nextAddr   : Nat

namespace LedgerTrie

variable {L I : Type} [Ledger L I]

def empty : LedgerTrie L :=
  ⟨.ofSpan 0 .root none, ∅, 1⟩

def isEmpty (t : LedgerTrie L) : Bool :=
  t.root.branchSupport == 0

def find (t : LedgerTrie L) (ledger : L) : Path × Nat :=
  t.root.find ledger (t.root.span.diff ledger)

def findByLedgerID [DecidableEq I] (t : LedgerTrie L) (ledger : L) : Option Path :=
  t.root.findByLedgerID ledger

def insert (t : LedgerTrie L) (ledger : L) (count : Nat := 1) : LedgerTrie L :=
  let (loc, diffSeq) := t.find ledger
  { root       := t.root.insertAt t.nextAddr diffSeq ledger count loc
    seqSupport := t.seqSupport.inc (Ledger.seq ledger) count
    nextAddr   := t.nextAddr + 2 }

def remove [DecidableEq I] (t : LedgerTrie L) (ledger : L) (count : Nat := 1) :
    Bool × LedgerTrie L :=
  match t.findByLedgerID ledger with
  | none   => (false, t)
  | some p =>
    match t.root.get? p with
    | none     => (false, t)
    | some loc =>
      if loc.tipSupport = 0 then
        (false, t)
      else
        let count := min count loc.tipSupport
        (true, { t with
          root       := t.root.removeAt count p
          seqSupport := t.seqSupport.dec (Ledger.seq ledger) count })

def tipSupport [DecidableEq I] (t : LedgerTrie L) (ledger : L) : Nat :=
  match (t.findByLedgerID ledger).bind (t.root.get? ·) with
  | some loc => loc.tipSupport
  | none     => 0

def branchSupport [DecidableEq I] (t : LedgerTrie L) (ledger : L) : Nat :=
  match (t.findByLedgerID ledger).bind (t.root.get? ·) with
  | some loc => loc.branchSupport
  | none     =>
    let (p, diffSeq) := t.find ledger
    match t.root.get? p with
    | some loc =>
      if diffSeq > Ledger.seq ledger ∧ Ledger.seq ledger < loc.span.end then
        loc.branchSupport
      else
        0
    | none     => 0

def getPreferred [LinearOrder I] (t : LedgerTrie L) (ps : PartialSort L) (largestIssued : Nat) :
    Option (SpanTip L I) × LedgerTrie L :=
  if t.isEmpty then
    (none, t)
  else
    let (r, root) := t.root.preferred ps largestIssued 0 t.seqSupport.toList
    (r, { t with root })

def checkInvariants (t : LedgerTrie L) : Bool :=
  match t.root.expectedSeqSupport true ∅ with
  | some expected => expected.toList == t.seqSupport.toList
  | none => false

end LedgerTrie
