import Mathlib

open Nat

-- Numbers written with a fixed number of bytes, the most significant one first.
namespace Bytes

variable {bs : List UInt8}

def ofNat : Nat → Nat → List UInt8
  | 0, _     => []
  | n + 1, x => UInt8.ofNat (x / 256 ^ n) :: ofNat n x

def toNat : List UInt8 → Nat
  | []      => 0
  | b :: bs => b.toNat * 256 ^ bs.length + toNat bs

@[simp]
theorem length_ofNat : (ofNat n x).length = n := by
  induction n
  case zero => rfl
  case succ n hi => simp [ofNat, hi]

theorem toNat_lt : toNat bs < 256 ^ bs.length := by
  induction bs
  case nil => simp [toNat]
  case cons b bs hi =>
    have hb := b.toNat_lt
    calc b.toNat * 256 ^ bs.length + toNat bs
        < b.toNat * 256 ^ bs.length + 256 ^ bs.length := by omega
      _ = (b.toNat + 1) * 256 ^ bs.length := by ring
      _ ≤ 256 * 256 ^ bs.length := mul_le_mul_right _ hb
      _ = 256 ^ (b :: bs).length := by rw [List.length_cons, pow_succ]; ring

theorem toNat_ofNat : toNat (ofNat n x) = x % 256 ^ n := by
  induction n
  case zero => simp [ofNat, toNat, mod_one]
  case succ n hi =>
    have hm : x % 256 ^ (n + 1) = x % 256 ^ n + 256 ^ n * (x / 256 ^ n % 256) := by
      rw [pow_succ]; exact mod_mul
    rw [ofNat, toNat, length_ofNat, hi, hm, UInt8.toNat_ofNat']
    ring_nf

theorem toNat_ofNat_of_lt (h : x < 256 ^ n) : toNat (ofNat n x) = x := by
  rw [toNat_ofNat, mod_eq_of_lt h]

theorem ofNat_add_mul : ofNat n (k * 256 ^ n + x) = ofNat n x := by
  induction n generalizing k
  case zero => rfl
  case succ n hi =>
    have he : k * 256 ^ (n + 1) + x = k * 256 * 256 ^ n + x := by rw [pow_succ]; ring
    have hd : (k * 256 * 256 ^ n + x) / 256 ^ n = k * 256 + x / 256 ^ n := by
      rw [add_comm, add_mul_div_right _ _ (Nat.pow_pos (by omega)), add_comm]
    rw [ofNat, ofNat, he, hi, hd]
    congr 1
    apply UInt8.toNat_inj.mp
    rw [UInt8.toNat_ofNat', UInt8.toNat_ofNat']
    omega

theorem ofNat_toNat : ofNat bs.length (toNat bs) = bs := by
  induction bs
  case nil => rfl
  case cons b bs hi =>
    have hd : (b.toNat * 256 ^ bs.length + toNat bs) / 256 ^ bs.length = b.toNat := by
      rw [add_comm, add_mul_div_right _ _ (Nat.pow_pos (by omega)), div_eq_of_lt toNat_lt,
        zero_add]
    rw [List.length_cons, toNat, ofNat, hd, ofNat_add_mul, hi, UInt8.ofNat_toNat]

theorem eq_of_toNat (hl : bs.length = bs'.length) (h : toNat bs = toNat bs') : bs = bs' :=
  calc bs = ofNat bs.length (toNat bs) := ofNat_toNat.symm
    _ = ofNat bs'.length (toNat bs') := by rw [hl, h]
    _ = bs' := ofNat_toNat

theorem forall_byte {P : UInt8 → Prop} (h : ∀ b : Fin 256, P (UInt8.ofNat b)) (d : UInt8) : P d :=
  UInt8.ofNat_toNat (x := d) ▸ h ⟨d.toNat, d.toNat_lt⟩

theorem eq_of_toNat_one_cons (h : toNat (1 :: bs) = toNat (1 :: bs')) : bs = bs' := by
  have hone : (1 : UInt8).toNat = 1 := rfl
  simp only [toNat, hone, one_mul] at h
  have hle {cs cs' : List UInt8} (hlt : cs.length < cs'.length)
      (h : 256 ^ cs.length + toNat cs = 256 ^ cs'.length + toNat cs') : False := by
    have hp : 256 ^ (cs.length + 1) ≤ 256 ^ cs'.length := Nat.pow_le_pow_right (by omega) hlt
    have hc : toNat cs < 256 ^ cs.length := toNat_lt
    omega
  obtain hlt | heq | hlt := lt_trichotomy bs.length bs'.length
  case inl => exact (hle hlt h).elim
  case inr.inr => exact (hle hlt h.symm).elim
  rw [heq] at h
  exact eq_of_toNat heq (add_left_cancel h)

end Bytes
