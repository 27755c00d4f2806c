import Bixd.Lib.Digits

open Digits

-- `uint256`: a big-endian number of 32 bytes, compared as a number.
abbrev UInt256 := BitVec 256

instance : LawfulBEq UInt256 := inferInstance

instance UInt256.neZero_nibbles : NeZero 16 := inferInstance

instance : LinearOrder UInt256 where
  le_refl _ := BitVec.le_refl _
  le_trans _ _ _ := BitVec.le_trans
  le_antisymm _ _ := BitVec.le_antisymm
  le_total := BitVec.le_total
  lt_iff_le_not_ge _ _ := by rw [BitVec.not_le]; exact ⟨fun h => ⟨BitVec.le_of_lt h, h⟩, And.right⟩
  toDecidableLE := inferInstance
  toDecidableEq := inferInstance
  toDecidableLT := inferInstance

namespace UInt256

variable {x y : UInt256}

-- The `i`-th byte in memory, `*(x.begin() + i)`.
def byte (x : UInt256) (i : Nat) : Nat :=
  digit 256 32 i x.toNat

def bytes (x : UInt256) : List UInt8 :=
  (List.range 32).map (fun i => UInt8.ofNat (x.byte i))

-- The `d`-th group of four bits. A byte holds two of them, the first one in its upper half.
def nibble (x : UInt256) (d : Nat) : Fin 16 :=
  if d % 2 = 1 then Fin.ofNat 16 (x.byte (d / 2) &&& 0xf) else Fin.ofNat 16 (x.byte (d / 2) >>> 4)

theorem toNat_lt (x : UInt256) : x.toNat < 16 ^ 64 :=
  x.isLt

theorem nibble_val (hd : d < 64) : (x.nibble d).val = digit 16 64 d x.toNat := by
  have hp (k : Nat) : 16 ^ (2 * k) = 256 ^ k := by rw [pow_mul]; norm_num
  have hand (n : Nat) : n &&& 0xf = n % 16 := Nat.and_two_pow_sub_one_eq_mod n 4
  by_cases ho : d % 2 = 1
  case pos =>
    have he : 64 - 1 - d = 2 * (32 - 1 - d / 2) := by omega
    simp only [nibble, ho, byte, digit, he, hp, if_true, hand, Fin.val_ofNat]
    omega
  case neg =>
    have he : 64 - 1 - d = 2 * (32 - 1 - d / 2) + 1 := by omega
    simp only [nibble, ho, byte, digit, he, pow_succ, hp, if_false, Fin.val_ofNat,
      Nat.shiftRight_eq_div_pow, ← Nat.div_div_eq_div_mul]
    omega

theorem lt_of_nibble_lt (hd : d < 64) (h : ∀ i < d, x.nibble i = y.nibble i)
    (hl : x.nibble d < y.nibble d) : x < y := by
  apply BitVec.lt_def.mpr
  apply lt_of_digit_lt (b := 16) (n := 64) (d := d) x.toNat_lt y.toNat_lt hd
  case h =>
    intro i hi
    rw [← nibble_val (hi.trans hd), ← nibble_val (hi.trans hd), h i hi]
  case hl =>
    rw [← nibble_val hd, ← nibble_val hd]
    exact hl

theorem exists_first_nibble_ne (hne : x ≠ y) :
    ∃ d < 64, (x.nibble d ≠ y.nibble d) ∧ (∀ i < d, x.nibble i = y.nibble i) := by
  have hne' : x.toNat ≠ y.toNat := fun he => hne (BitVec.eq_of_toNat_eq he)
  have ⟨d, hd, h₁, h₂⟩ := exists_first_digit_ne x.toNat_lt y.toNat_lt hne'
  refine ⟨d, hd, ?_, fun i hi => ?_⟩
  · intro he
    rw [← nibble_val hd, ← nibble_val hd, he] at h₁
    exact h₁ rfl
  · apply Fin.ext
    rw [nibble_val (hi.trans hd), nibble_val (hi.trans hd), h₂ i hi]

end UInt256
