import Mathlib

-- Flags in words of 32 bits.

namespace UInt32

variable {x m f : UInt32}

-- Flags other than those that are set or cleared.

theorem or_and_flag (h : m &&& f = 0) : (x ||| m) &&& f = x &&& f := by
  have h0 : m.toNat &&& f.toNat = 0 := congrArg toNat h
  refine UInt32.toNat_inj.mp ?_
  rw [UInt32.toNat_and, UInt32.toNat_or, UInt32.toNat_and, Nat.and_or_distrib_right, h0,
    Nat.or_zero]

theorem and_not_and_flag (h : ~~~m &&& f = f) : (x &&& ~~~m) &&& f = x &&& f := by
  rw [UInt32.and_assoc, h]

theorem and_flag (i : Nat) (hi : i < 32) :
    x &&& .ofNat (2 ^ i) = 0 ∨ x &&& .ofNat (2 ^ i) = .ofNat (2 ^ i) := by
  have hlt : 2 ^ i < 2 ^ 32 := Nat.pow_lt_pow_right (by omega) hi
  have hand : (x &&& .ofNat (2 ^ i)).toNat = (x.toNat.testBit i).toNat * 2 ^ i := by
    rw [UInt32.toNat_and, toNat_ofNat_of_lt' hlt, Nat.and_two_pow]
  cases hb : x.toNat.testBit i
  case false =>
    refine .inl (UInt32.toNat_inj.mp ?_)
    rw [hand, hb]
    simp
  case true =>
    refine .inr (UInt32.toNat_inj.mp ?_)
    rw [hand, hb, toNat_ofNat_of_lt' hlt]
    simp

end UInt32
