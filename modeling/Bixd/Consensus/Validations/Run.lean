import Bixd.Consensus.Validations
import Bixd.Consensus.LedgerTrie.Chain

open LedgerTrie (Ledger)

namespace Validations

-- The calls on the validations.
inductive Op (L I N : Type) [Ledger L I] [LinearOrder I] where
  | add (nodeID : N) (val : Validation I)
  | trustChanged (added removed : List N)
  | expire
  | setSeqToKeep (seq : Nat)
  | canValidateSeq (seq : Nat)
  | getPreferred (ps : LedgerTrie.PartialSort L) (curr : L)
  | getPreferredMin (ps : LedgerTrie.PartialSort L) (curr : L) (minValidSeq : Nat)
  | getPreferredLCL (ps : LedgerTrie.PartialSort L) (lcl : L) (minSeq : Nat)
    (peerCounts : List (I × Nat))
  | getNodesAfter (ledger : L) (ledgerID : I)
  | currentTrusted
  | getCurrentNodeIDs
  | numTrustedForLedger (ledgerID : I)
  | getTrustedForLedger (ledgerID : I)
  | fees (ledgerID : I) (baseFee : Nat)
  | laggards (seq : Nat) (trustedKeys : List Nat)

variable {A L I N : Type} [Ledger L I] [Adaptor A L] [LinearOrder I] [DecidableEq N]

def exec (s : Validations A L I N) : Op L I N → Validations A L I N
  | .add nodeID val => (s.add nodeID val).2
  | .trustChanged added removed => s.trustChanged added removed
  | .expire => s.expire
  | .setSeqToKeep seq => s.setSeqToKeep seq
  | .canValidateSeq seq => (s.canValidateSeq seq).2
  | .getPreferred ps curr => (s.getPreferred ps curr).2
  | .getPreferredMin ps curr minValidSeq => (s.getPreferredMin ps curr minValidSeq).2
  | .getPreferredLCL ps lcl minSeq counts => (s.getPreferredLCL ps lcl minSeq counts).2
  | .getNodesAfter ledger ledgerID => (s.getNodesAfter ledger ledgerID).2
  | .currentTrusted => s.currentTrusted.2
  | .getCurrentNodeIDs => s.getCurrentNodeIDs.2
  | .numTrustedForLedger ledgerID => (s.numTrustedForLedger ledgerID).2
  | .getTrustedForLedger ledgerID => (s.getTrustedForLedger ledgerID).2
  | .fees ledgerID baseFee => (s.fees ledgerID baseFee).2
  | .laggards seq trustedKeys => (s.laggards seq trustedKeys).2

-- A call in surroundings that may have changed since the last one.
def step (s : Validations A L I N) (a : A) (op : Op L I N) : Validations A L I N :=
  exec { s with adaptor := a } op

-- The states that are reached by calls that meet a condition.
inductive Reachable (ok : Validations A L I N → Op L I N → Prop) : Validations A L I N → Prop
  | init (p : ValidationParms) (a : A) : Reachable ok (init p a)
  | step {s : Validations A L I N} (a : A) (op : Op L I N) :
    Reachable ok s → ok { s with adaptor := a } op → Reachable ok (s.step a op)

end Validations

-- Surroundings with a time and the ledgers that can be acquired, where the id of a ledger is the
-- ledger.
structure Site where
  time    : Int
  ledgers : List LedgerTrie.Chain

namespace Site

open LedgerTrie (Chain)

-- The comparison of ids that the validations use.
scoped instance : DecidableEq Chain :=
  LinearOrder.toDecidableEq

instance : Adaptor Site Chain where
  now a := (a.time, a)
  clock a := (a.time, a)
  acquire a i := (if i ∈ a.ledgers then some i else none, a)
  order a l := (l, a)
  acquire_id := by
    intro a i l h
    split at h
    case isTrue => cases h; exact List.take_length
    case isFalse => contradiction
  order_perm _ := .refl

-- A full validation of a ledger that is seen when it is signed.
def vote (ledgerID : Chain) (time : Int) (trusted : Bool) : Validation Chain where
  ledgerID := ledgerID
  seq      := ledgerID.length
  signTime := time
  seenTime := time
  trusted  := trusted
  full     := true
  key      := 0
  cookie   := 0
  loadFee  := none

end Site
