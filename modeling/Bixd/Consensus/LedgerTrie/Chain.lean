import Bixd.Consensus.LedgerTrie

namespace LedgerTrie

-- A ledger given by the choices that lead to it from the genesis ledger: the ledger that follows
-- it by the choice `c` is `l ++ [c]`, and the id of a ledger is the ledger.
abbrev Chain := List Nat

namespace Chain

-- The length of the longest common prefix.
def common : Chain → Chain → Nat
  | x :: a, y :: b => if x = y then common a b + 1 else 0
  | _, _ => 0

theorem common_le : ∀ a b, common a b ≤ min a.length b.length
  | x :: a, y :: b => by
    have := common_le a b
    simp only [common, List.length_cons]
    split <;> omega
  | [], _ => by simp [common]
  | _ :: _, [] => by simp [common]

theorem take_common : ∀ {a b : Chain} {p : Nat}, p ≤ common a b → a.take p = b.take p
  | _, _, 0, _ => by simp
  | x :: a, y :: b, p + 1, h => by
    simp only [common] at h
    split at h
    case isTrue he => simp [he, take_common (a := a) (b := b) (p := p) (by omega)]
    case isFalse he => omega
  | [], _, _ + 1, h => by simp [common] at h
  | _ :: _, [], _ + 1, h => by simp [common] at h

theorem take_common_succ :
    ∀ {a b : Chain}, common a b + 1 ≤ min a.length b.length →
      a.take (common a b + 1) ≠ b.take (common a b + 1)
  | x :: a, y :: b, h => by
    simp only [common, List.length_cons] at h ⊢
    split at h
    case isTrue he => simpa [he] using take_common_succ (a := a) (b := b) (by omega)
    case isFalse he => simp [he]
  | [], _, h => by simp at h
  | _ :: _, [], h => by simp at h

end Chain

instance : Ledger Chain Chain where
  seq := List.length
  ancestor l s := l.take s
  genesis := []
  mismatch a b := Chain.common a b + 1
  seq_genesis := rfl
  genesis_anc _ := rfl
  unique := by
    intro a b s p _ _ h hp
    have := congrArg (List.take p) h
    simpa [List.take_take, Nat.min_eq_left hp] using this
  anc_seq := by
    intro a b s t hs ht h
    have := congrArg List.length h
    simp only [List.length_take] at this
    omega
  id_inj := by simp
  mismatch_le := fun a b => by have := Chain.common_le a b; omega
  mismatch_eq := fun h => Chain.take_common (by omega)
  mismatch_ne := Chain.take_common_succ

end LedgerTrie
