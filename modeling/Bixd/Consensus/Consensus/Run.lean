import Bixd.Consensus.Consensus

namespace Consensus

-- The calls on the consensus.
inductive Op (τ : Traits) where
  | startRound (now : Nat) (prevLedgerID : τ.LedgerID) (prevLedger : Ledger τ)
    (nowUntrusted : List τ.NodeID) (proposing : Bool)
  | peerProposal (now : Nat) (newPeerPos : Proposal τ)
  | gotTxSet (now : Nat) (txSet : τ.TxSet)
  | timerEntry (now : Nat)
  | simulate (now : Nat) (consensusDelay : Option Int)

variable {A : Type} [Adaptor τ A]

def exec (s : Consensus τ A) (depth : Nat) : Op τ → Option (Consensus τ A)
  | .startRound now prevLedgerID prevLedger nowUntrusted proposing =>
    s.startRound depth now prevLedgerID prevLedger nowUntrusted proposing
  | .peerProposal now newPeerPos => some (s.peerProposal now newPeerPos).2
  | .gotTxSet now txSet => some (s.gotTxSet now txSet)
  | .timerEntry now => timerEntry depth s now
  | .simulate now consensusDelay => some (s.simulate now consensusDelay)

-- The states after the calls of a run, in surroundings that may change between the calls.
inductive Reachable : Consensus τ A → Prop
  | init (prevLedgerID : τ.LedgerID) (previousLedger : Ledger τ) (adaptor : A) :
    Reachable { prevLedgerID, previousLedger, adaptor }
  | step {s s' : Consensus τ A} (a : A) (depth : Nat) (op : Op τ) :
    Reachable s → { s with adaptor := a }.exec depth op = some s' → Reachable s'

-- The calls of a run one after another.
def execAll (s : Consensus τ A) (depth : Nat) : List (Op τ) → Option (Consensus τ A)
  | [] => some s
  | op :: ops => (s.exec depth op).bind fun s => s.execAll depth ops

theorem Reachable.execAll {s' : Consensus τ A} (h : Reachable s)
    (hs : s.execAll depth ops = some s') : Reachable s' := by
  induction ops generalizing s
  case nil =>
    cases hs
    exact h
  case cons op ops ih =>
    have ⟨s₁, hs₁, hs'⟩ := Option.bind_eq_some_iff.mp hs
    exact ih (.step s.adaptor depth op h hs₁) hs'

-- An application with two transactions, where a set says which of them it has.
def Traits.two : Traits where
  NodeID := Nat
  LedgerID := Nat
  Tx := Bool
  TxID := Bool
  TxSet := Bool × Bool
  TxSetID := Bool × Bool
  txID := id
  setID := id
  «exists» s t := if t then s.1 else s.2
  find s t := if (if t then s.1 else s.2) then some t else none
  insert s x := if x then (true, s.2) else (s.1, true)
  erase s t := if t then (false, s.2) else (s.1, false)
  compare s o :=
    (if s.1 = o.1 then [] else [(true, s.1)]) ++ if s.2 = o.2 then [] else [(false, s.2)]
  exists_of_id h := by rw [id.eq_1, id.eq_1] at h; rw [h]
  find_exists := by decide
  find_id {s t x} h := by revert s t x; decide
  exists_insert := by decide
  exists_erase := by decide
  mem_compare {s o t b} := by revert s o t b; decide

-- Surroundings in which every set can be acquired, nothing is known of other ledgers, and our
-- ledgers close with the given set.
structure Site where
  time  : Int
  close : Bool × Bool

instance : Adaptor Traits.two Site where
  parms _ := {}
  clock a := (a.time, a)
  order a l := (l, a)
  acquireLedger a _ := (none, a)
  acquireTxSet a i := (some i, a)
  hasOpenTransactions a := (true, a)
  proposersValidated a _ := (0, a)
  proposersFinished a _ _ := (0, a)
  getPrevLedger a i _ _ := (i, a)
  getValidLedgerIndex a := (0, a)
  getQuorumKeys a := ((0, []), a)
  laggards a _ ks := ((0, ks), a)
  validator a := (true, a)
  haveValidated a := (true, a)
  onClose a l t _ := ((a.close, ⟨l.id, a.close, t, t, 0, (0 : Nat)⟩), a)
  notify a _ := a
  order_perm _ _ := .refl _
  onClose_position := rfl

end Consensus
