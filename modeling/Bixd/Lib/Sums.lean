import Mathlib

-- Sums of squares in closed form, and sums of quotients against the quotient of the sum.

open Finset

theorem six_mul_sum_sq (n : Nat) :
    6 * ∑ i ∈ range (n + 1), i * i = n * (n + 1) * (2 * n + 1) := by
  induction n
  case zero => rfl
  case succ n hi =>
    rw [sum_range_succ, mul_add, hi]
    ring

theorem sum_sq_eq_div (n : Nat) :
    ∑ i ∈ range (n + 1), i * i = n * (n + 1) * (2 * n + 1) / 6 := by
  rw [← six_mul_sum_sq, Nat.mul_div_cancel_left _ (by decide)]

section

variable {ι : Type*} {s : Finset ι} {f : ι → Nat} {d : Nat}

theorem sum_div_le_div_sum (hd : 0 < d) : ∑ i ∈ s, f i / d ≤ (∑ i ∈ s, f i) / d := by
  rw [Nat.le_div_iff_mul_le hd, sum_mul]
  exact sum_le_sum fun i _ => Nat.div_mul_le_self (f i) d

theorem div_sum_lt_sum_div (hd : 0 < d) (hs : s.Nonempty) :
    (∑ i ∈ s, f i) / d < ∑ i ∈ s, f i / d + s.card := by
  rw [Nat.div_lt_iff_lt_mul hd, card_eq_sum_ones, ← sum_add_distrib, sum_mul]
  exact sum_lt_sum_of_nonempty hs fun i _ => by
    rw [← Nat.div_lt_iff_lt_mul hd]
    exact Nat.lt_succ_self _

end
