import Bixd.Consensus.RCLValidations
import Bixd.Consensus.LedgerTrie.Chain
import Bixd.Consensus.LedgerTrie.Words
import Bixd.Lib.Window

open LedgerTrie

namespace RCLValidatedLedger

variable {L I : Type} [Ledger L I] {x y : L} {a b : RCLValidatedLedger I}

-- What is known of a ledger of the tree is right.
structure Knows (a : RCLValidatedLedger I) (x : L) : Prop where
  id : a.ledgerID = Ledger.id x
  seq : a.seq = Ledger.seq x
  ancestors : ∃ n ≤ Ledger.seq x, a.ancestors = window (Ledger.ancestor x) (Ledger.seq x - n) n

variable [Inhabited I]

theorem Knows.get (h : Knows a x) (hmin : a.minSeq ≤ s) (hs : s ≤ a.seq) :
    a.get s = Ledger.ancestor x s := by
  rw [RCLValidatedLedger.get, if_pos ⟨hmin, hs⟩]
  split
  case isTrue he => rw [h.id, he, h.seq, Ledger.id]
  case isFalse hne =>
    have ⟨n, hn, hw⟩ := h.ancestors
    have hl : a.ancestors.length = n := by rw [hw, window.length]
    have hseq := h.seq
    unfold minSeq at hmin
    rw [hl, hw, window.getElem?_sub (by omega) (by omega), Option.getD_some]
    congr 1
    omega

variable [DecidableEq I] (ha : Knows a x) (hb : Knows b y)

include ha hb

-- The loop ends at the last common ancestor, or below what both ledgers know.
theorem loop_spec {n : Nat} (hc : Ledger.mismatch x y ≤ n + 1) (hn : n ≤ min a.seq b.seq) :
    let lower := max a.minSeq b.minSeq
    let curr := mismatch.loop a b lower n
    (lower < Ledger.mismatch x y → curr + 1 = Ledger.mismatch x y) ∧
      (Ledger.mismatch x y ≤ lower → curr < lower) := by
  have hpos := Ledger.mismatch_pos x y
  have hseq := ha.seq
  have hseq' := hb.seq
  induction n
  case zero =>
    simp only [mismatch.loop]
    omega
  case succ n hi =>
    simp only [mismatch.loop]
    by_cases hlow : max a.minSeq b.minSeq ≤ n + 1
    case neg =>
      rw [if_neg fun h => hlow h.right]
      omega
    case pos =>
      rw [ha.get (by omega) (by omega), hb.get (by omega) (by omega)]
      obtain he | hlt := hc.eq_or_lt
      case inl =>
        rw [if_neg fun h => h.left (Ledger.mismatch_eq (by omega))]
        omega
      case inr =>
        have hne : Ledger.ancestor x (n + 1) ≠ Ledger.ancestor y (n + 1) := fun h =>
          Ledger.mismatch_ne (by omega) (Ledger.unique (by omega) (by omega) h (by omega))
        rw [if_pos ⟨hne, hlow⟩]
        exact hi (by omega) (by omega)

-- What is found is where the ledgers differ, if both know their last common ancestor.
theorem mismatch_sound (hlt : min a.seq b.seq + 1 < 2 ^ 32) :
    (mismatch a b ≤ Ledger.mismatch x y) ∧ mismatch a b =
      if a.minSeq < Ledger.mismatch x y ∧ b.minSeq < Ledger.mismatch x y then
        Ledger.mismatch x y
      else
        1 := by
  have hpos := Ledger.mismatch_pos x y
  have hle := Ledger.mismatch_le x y
  rw [← ha.seq, ← hb.seq] at hle
  have ⟨hin, hout⟩ := loop_spec ha hb hle le_rfl
  simp only [mismatch, add32, ← max_lt_iff]
  by_cases hlow : max a.minSeq b.minSeq < Ledger.mismatch x y
  case pos =>
    have := hin hlow
    rw [if_neg (by omega), if_pos hlow, this, Nat.mod_eq_of_lt (by omega)]
    exact ⟨le_rfl, rfl⟩
  case neg =>
    rw [if_pos (hout (by omega)), if_neg hlow]
    exact ⟨hpos, rfl⟩

omit ha hb

-- Two ledgers after a common one, of which the first does not know the genesis ledger.
theorem mismatch_sound_fork :
    let a : RCLValidatedLedger Chain := ⟨[7, 1], 2, [[7]]⟩
    let b : RCLValidatedLedger Chain := ⟨[7, 2, 3], 3, [[], [7], [7, 2]]⟩
    (mismatch a b ≤ 2) ∧ mismatch a b = 2 :=
  mismatch_sound (x := ([7, 1] : Chain)) (y := ([7, 2, 3] : Chain))
    ⟨rfl, rfl, 1, by decide, rfl⟩ ⟨rfl, rfl, 3, by decide, rfl⟩ (by decide)

theorem loop_self {lower : Nat} : mismatch.loop a a lower n = n := by
  cases n <;> simp [mismatch.loop]

-- The sequence after the largest one is zero.
theorem mismatch_wraps : ∃ (a : RCLValidatedLedger Chain) (x : Chain), Knows a x ∧
    (mismatch a a = 0) := by
  have ⟨x, hx⟩ : ∃ x : Chain, x.length = 2 ^ 32 - 1 := ⟨.replicate _ 0, List.length_replicate⟩
  refine ⟨⟨x, 0xFFFFFFFF, []⟩, x, ⟨List.take_length.symm, hx.symm, 0, Nat.zero_le _, rfl⟩, ?_⟩
  simp [mismatch, loop_self, minSeq, seq, add32]

end RCLValidatedLedger
