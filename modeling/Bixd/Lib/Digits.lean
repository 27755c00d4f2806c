import Mathlib

-- The digits of numbers of a fixed length `n` in base `b`, the most significant one first.
namespace Digits

-- The number that the first `d` of the `n` digits of `x` form.
def front (b n d x : Nat) : Nat :=
  x / b ^ (n - d)

def digit (b n d x : Nat) : Nat :=
  x / b ^ (n - 1 - d) % b

theorem front_zero (hx : x < b ^ n) : front b n 0 x = 0 :=
  Nat.div_eq_of_lt hx

@[simp]
theorem front_self : front b n n x = x := by
  simp [front]

theorem front_succ (hd : d < n) : front b n (d + 1) x = b * front b n d x + digit b n d x := by
  have he : n - d = (n - (d + 1)) + 1 := by omega
  have he' : n - 1 - d = n - (d + 1) := by omega
  rw [front, front, digit, he, he', pow_succ, ← Nat.div_div_eq_div_mul]
  exact (Nat.div_add_mod _ _).symm

theorem front_mono (h : x ≤ y) : front b n d x ≤ front b n d y :=
  Nat.div_le_div_right h

theorem lt_of_front_lt (h : front b n d x < front b n d y) : x < y := by
  by_contra hc
  exact absurd (front_mono (Nat.le_of_not_lt hc)) (Nat.not_le_of_lt h)

section

variable {x b n y : Nat} (hx : x < b ^ n) (hy : y < b ^ n)

include hx hy

theorem front_eq_of_digits (hd : d ≤ n) (h : ∀ i < d, digit b n i x = digit b n i y) :
    front b n d x = front b n d y := by
  induction d
  case zero => rw [front_zero hx, front_zero hy]
  case succ d hi =>
    have hf := hi (Nat.le_of_succ_le hd) (fun i hl => h i (Nat.lt_succ_of_lt hl))
    rw [front_succ hd, front_succ hd, hf, h d (Nat.lt_succ_self d)]

theorem eq_of_digits (h : ∀ i < n, digit b n i x = digit b n i y) : x = y := by
  have hf := front_eq_of_digits hx hy le_rfl h
  simpa using hf

theorem lt_of_digit_lt (hd : d < n) (h : ∀ i < d, digit b n i x = digit b n i y)
    (hl : digit b n d x < digit b n d y) : x < y := by
  apply lt_of_front_lt (b := b) (n := n) (d := d + 1)
  rw [front_succ hd, front_succ hd, front_eq_of_digits hx hy hd.le h]
  exact Nat.add_lt_add_left hl _

theorem exists_first_digit_ne (hne : x ≠ y) :
    ∃ d < n, (digit b n d x ≠ digit b n d y) ∧ (∀ i < d, digit b n i x = digit b n i y) := by
  have hex : ∃ d, d < n ∧ digit b n d x ≠ digit b n d y := by
    by_contra hc
    push Not at hc
    exact hne (eq_of_digits hx hy hc)
  refine ⟨Nat.find hex, (Nat.find_spec hex).left, (Nat.find_spec hex).right, ?_⟩
  intro i hi
  by_contra hc
  exact Nat.find_min hex hi ⟨hi.trans (Nat.find_spec hex).left, hc⟩

end

end Digits
