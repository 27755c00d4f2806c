import Mathlib

-- Multiplication followed by division, without losing bits in between.

namespace MulDiv

def limit : UInt64 := 0xFFFFFFFFFFFFFFFF

@[simp]
theorem toNat_limit : limit.toNat = 2 ^ 64 - 1 :=
  rfl

end MulDiv

-- The overload of plain 64-bit numbers. It is never called with a divisor of zero.
def mulDiv (value mul div : UInt64) : Bool × UInt64 :=
  let result := value.toNat * mul.toNat / div.toNat
  if result > MulDiv.limit.toNat then (false, MulDiv.limit) else (true, .ofNat result)

-- The overload of amounts with a unit, with the unit of `mul` in the result. It throws when it
-- gets to divide by zero.
def mulDivU (value : Nat) (mul : UInt64) (div : Nat) : Option (Bool × UInt64) :=
  if value = div then
    some (true, mul)
  else if mul.toNat = div then
    if value > MulDiv.limit.toNat then some (false, MulDiv.limit) else some (true, .ofNat value)
  else if div = 0 then
    none
  else
    let quotient := value * mul.toNat / div
    if quotient > MulDiv.limit.toNat then some (false, MulDiv.limit)
    else some (true, .ofNat quotient)

theorem toNat_mulDiv_snd :
    (mulDiv value mul div).2.toNat =
      min (value.toNat * mul.toNat / div.toNat) MulDiv.limit.toNat := by
  unfold mulDiv
  dsimp only
  split
  case isTrue h => rw [Nat.min_eq_right h.le]
  case isFalse h =>
    have hle := Nat.le_of_not_lt h
    rw [Nat.min_eq_left hle]
    refine UInt64.toNat_ofNat_of_lt' (Nat.lt_of_le_of_lt hle ?_)
    decide

theorem mulDivU_eq (hd : 0 < div) :
    mulDivU value mul div =
      if value * mul.toNat / div > MulDiv.limit.toNat then some (false, MulDiv.limit)
      else some (true, .ofNat (value * mul.toNat / div)) := by
  unfold mulDivU
  split
  case isTrue h =>
    rw [h, Nat.mul_div_cancel_left _ hd, if_neg, UInt64.ofNat_toNat]
    have := mul.toNat_lt
    rw [MulDiv.toNat_limit]
    omega
  case isFalse =>
    split
    case isTrue h => rw [h, Nat.mul_div_cancel _ hd]
    case isFalse => rw [if_neg hd.ne']

theorem mulDivU_eq_some (hd : 0 < div)
    (h : mulDivU value mul div = some (true, r)) : r.toNat = value * mul.toNat / div := by
  rw [mulDivU_eq hd] at h
  split at h
  case isTrue => cases h
  case isFalse hle =>
    cases h
    refine UInt64.toNat_ofNat_of_lt' (Nat.lt_of_le_of_lt (Nat.le_of_not_lt hle) ?_)
    decide

theorem mulDivU_eq_of_le (hd : 0 < div)
    (h : mulDivU value mul div = some (true, r)) (hle : value' ≤ value) :
    ∃ r', mulDivU value' mul div = some (true, r') ∧ r'.toNat = value' * mul.toNat / div := by
  have hr := mulDivU_eq_some hd h
  have hq : value' * mul.toNat / div ≤ value * mul.toNat / div :=
    Nat.div_le_div_right (Nat.mul_le_mul_right _ hle)
  have hlt := r.toNat_lt
  have hn : ¬ value' * mul.toNat / div > MulDiv.limit.toNat := by
    rw [MulDiv.toNat_limit]
    omega
  have h' : mulDivU value' mul div = some (true, .ofNat (value' * mul.toNat / div)) := by
    rw [mulDivU_eq hd, if_neg hn]
  exact ⟨_, h', mulDivU_eq_some hd h'⟩
