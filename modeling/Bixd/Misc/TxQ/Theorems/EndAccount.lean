import Bixd.Misc.TxQ.Queue

open List

-- The average of the fee levels of the account at the end of a full queue.

namespace TxQ.TxQAccount

variable {levels : List FeeLevel64}

-- The quotients and the remainders that are added up.
def quotients (levels : List FeeLevel64) (d : Nat) : Nat :=
  (levels.map (·.toNat / d)).sum

def remainders (levels : List FeeLevel64) (d : Nat) : Nat :=
  (levels.map (·.toNat % d)).sum

theorem saturates_iff {x y : FeeLevel64} : x ≥ maxLevel - y ↔ 2 ^ 64 - 1 ≤ x.toNat + y.toNat := by
  have hm : maxLevel.toNat = 2 ^ 64 - 1 := rfl
  have hy : y ≤ maxLevel := UInt64.le_iff_toNat_le.mpr (Nat.le_of_lt_succ y.toNat_lt)
  rw [ge_iff_le, UInt64.le_iff_toNat_le, UInt64.toNat_sub_of_le _ _ hy, hm]
  omega

-- Sums that have saturated stay so, and since they never decrease, it does not matter at which of
-- the levels they do.
theorem foldl_accumulate (size : UInt64) (levels : List FeeLevel64) :
    let total := levels.foldl (accumulate size) (0, 0)
    let q := quotients levels size.toNat
    let r := remainders levels size.toNat
    (2 ^ 64 - 1 ≤ q ∨ 2 ^ 64 - 1 ≤ r → total = (maxLevel, 0)) ∧
      (q < 2 ^ 64 - 1 ∧ r < 2 ^ 64 - 1 → total.1.toNat = q ∧ total.2.toNat = r) := by
  induction levels using reverseRecOn
  case nil => simp [quotients, remainders]
  case append_singleton ls l hi =>
    have hq : quotients (ls ++ [l]) size.toNat = quotients ls size.toNat + (l / size).toNat := by
      simp [quotients]
    have hr : remainders (ls ++ [l]) size.toNat =
        remainders ls size.toNat + (l % size).toNat := by
      simp [remainders]
    simp only [foldl_append, foldl_cons, foldl_nil, accumulate, saturates_iff, hq,
      hr] at hi ⊢
    have ⟨hsat, hfit⟩ := hi
    refine ⟨fun h => if_pos ?_, fun h => ?_⟩
    case refine_1 =>
      by_cases hs : quotients ls size.toNat < 2 ^ 64 - 1 ∧ remainders ls size.toNat < 2 ^ 64 - 1
      case pos => rwa [(hfit hs).left, (hfit hs).right]
      case neg =>
        rw [hsat (by omega)]
        exact .inl (Nat.le_add_right _ _)
    case refine_2 =>
      have ⟨h₁, h₂⟩ := hfit (by omega)
      rw [if_neg (by omega), UInt64.toNat_add, UInt64.toNat_add, h₁, h₂]
      exact ⟨Nat.mod_eq_of_lt (by omega), Nat.mod_eq_of_lt (by omega)⟩

theorem sum_eq (levels : List FeeLevel64) (d : Nat) :
    (levels.map UInt64.toNat).sum = d * quotients levels d + remainders levels d := by
  unfold quotients remainders
  rw [← sum_map_mul_left, ← sum_map_add]
  simp [Nat.div_add_mod]

theorem sum_map_le (f : FeeLevel64 → Nat) {b : Nat} (h : ∀ l, f l ≤ b) :
    (levels.map f).sum ≤ levels.length * b := by
  simpa using (levels.map f).sum_le_card_nsmul b (by simpa using fun l _ => h l)

theorem average_of_saturated (hn : (UInt64.ofNat levels.length).toNat = n)
    (h : 2 ^ 64 - 1 ≤ quotients levels n ∨ 2 ^ 64 - 1 ≤ remainders levels n) :
    average levels = maxLevel := by
  subst hn
  rw [average, (foldl_accumulate _ _).left h, UInt64.zero_div, UInt64.add_zero]

-- The remainders of at most 2 ^ 32 levels fit. If the quotients do not, then all levels are the
-- largest one.
theorem toNat_average (hn : 0 < levels.length) (hs : levels.length ≤ 2 ^ 32) :
    (average levels).toNat = (levels.map UInt64.toNat).sum / levels.length := by
  have hsize := UInt64.toNat_ofNat_of_lt' (hs.trans_lt (by decide))
  have hr : remainders levels levels.length < 2 ^ 64 - 1 := calc
    _ ≤ levels.length * (levels.length - 1) :=
      sum_map_le _ fun l => Nat.le_pred_of_lt (Nat.mod_lt _ hn)
    _ ≤ 2 ^ 32 * (2 ^ 32 - 1) := Nat.mul_le_mul hs (Nat.sub_le_sub_right hs 1)
    _ < 2 ^ 64 - 1 := by decide
  have hle : (levels.map UInt64.toNat).sum / levels.length ≤ 2 ^ 64 - 1 :=
    Nat.div_le_of_le_mul (sum_map_le _ fun l => Nat.le_of_lt_succ l.toNat_lt)
  rw [sum_eq levels levels.length, Nat.mul_add_div hn] at hle ⊢
  by_cases hq : quotients levels levels.length < 2 ^ 64 - 1
  case pos =>
    have hfit := (foldl_accumulate (.ofNat levels.length) levels).right
    rw [hsize] at hfit
    have ⟨h₁, h₂⟩ := hfit ⟨hq, hr⟩
    rw [average, UInt64.toNat_add, UInt64.toNat_div, h₁, h₂, hsize]
    exact Nat.mod_eq_of_lt (Nat.lt_succ_of_le hle)
  case neg =>
    rw [average_of_saturated hsize (.inl (not_lt.mp hq))]
    exact le_antisymm ((not_lt.mp hq).trans (Nat.le_add_right _ _)) hle

theorem average_exact (hne : levels ≠ []) (hs : levels.length ≤ 2 ^ 32) :
    ((average levels).toNat = (levels.map UInt64.toNat).sum / levels.length) ∧
      ∀ levels', levels'.Perm levels → average levels' = average levels := by
  have hn := length_pos_of_ne_nil hne
  refine ⟨toNat_average hn hs, fun levels' hp => UInt64.toNat_inj.mp ?_⟩
  rw [toNat_average hn hs, toNat_average (hp.length_eq ▸ hn) (hp.length_eq ▸ hs), hp.length_eq,
    (hp.map _).sum_eq]

theorem average_exact_two : (average [600, 303]).toNat = 451 ∧
    ∀ levels', levels'.Perm [600, 303] → average levels' = average [600, 303] :=
  average_exact (by decide) (by decide)

-- There are too many levels for their remainders, although all of them are the same.
theorem average_saturates :
    let levels : List FeeLevel64 := replicate (2 ^ 32 + 1) (2 ^ 32)
    (average levels = maxLevel) ∧ ((levels.map UInt64.toNat).sum / levels.length = 2 ^ 32) := by
  intro levels
  have hl : levels.length = 2 ^ 32 + 1 := length_replicate
  have hm (f : FeeLevel64 → Nat) : (levels.map f).sum = (2 ^ 32 + 1) * f (2 ^ 32) := by
    rw [map_replicate, sum_replicate, nsmul_eq_mul, Nat.cast_id]
  refine ⟨average_of_saturated (n := 2 ^ 32 + 1) (by rw [hl]; decide) (.inr ?_), ?_⟩
  case refine_1 => rw [remainders, hm]; decide
  case refine_2 => rw [hm, hl]; decide

end TxQ.TxQAccount
