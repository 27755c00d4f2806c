import Bixd.NodeStore.Varint

open Option List

namespace NodeStore

variable {d : UInt8} {n : Nat} {t : UInt64}

-- The number that bytes encode, without a bound.
def number (p : Blob) : Nat :=
  Nat.ofDigits 127 (p.map fun d => d.toNat % 128)

-- The first `n` bytes end at the first byte without the highest bit.
def Ends (buf : Blob) (n : Nat) : Prop :=
  ∃ p d rest, buf = p ++ d :: rest ∧ n = p.length + 1 ∧ (∀ b ∈ p, 128 ≤ b.toNat) ∧ d.toNat < 128

theorem and_highest : d &&& 0x80 ≠ 0 ↔ 128 ≤ d.toNat :=
  Bytes.forall_byte (P := fun d => d &&& 0x80 ≠ 0 ↔ 128 ≤ d.toNat) (by decide +kernel) d

theorem toNat_and_lowest : (d &&& 0x7f).toNat = d.toNat % 128 :=
  Bytes.forall_byte (P := fun d => (d &&& 0x7f).toNat = d.toNat % 128) (by decide +kernel) d

theorem toNat_or_highest (h : d.toNat < 128) : (d ||| 0x80).toNat = d.toNat + 128 :=
  Bytes.forall_byte (P := fun d => d.toNat < 128 → (d ||| 0x80).toNat = d.toNat + 128)
    (by decide +kernel) d h

namespace readVarint

theorem digits_eq_some (h : digits buf = some p) :
    ∃ l d rest, p = l ++ [d] ∧ buf = p ++ rest ∧ (∀ b ∈ l, 128 ≤ b.toNat) ∧ d.toNat < 128 := by
  induction buf generalizing p
  case nil => cases h
  case cons b buf hi =>
    rw [digits] at h
    split at h
    case isTrue hb =>
      have ⟨q, hq, hp⟩ := map_eq_some_iff.mp h
      have ⟨l, d, rest, hl, hr, hm, hd⟩ := hi hq
      refine ⟨b :: l, d, rest, ?_, ?_, ?_, hd⟩
      · rw [← hp, hl, cons_append]
      · rw [← hp, hr, cons_append]
      · exact forall_mem_cons.mpr ⟨and_highest.mp hb, hm⟩
    case isFalse hb =>
      cases h
      exact ⟨[], b, buf, rfl, rfl, nofun, Nat.not_le.mp (and_highest.not.mp hb)⟩

theorem digits_append (h : digits p = some p) : digits (p ++ rest) = some p := by
  induction p
  case nil => cases h
  case cons d p hi =>
    rw [digits] at h
    rw [cons_append, digits]
    split at h
    case isTrue hd =>
      have ⟨q, hq, hp⟩ := map_eq_some_iff.mp h
      cases hp
      rw [if_pos hd, hi hq]
      rfl
    case isFalse hd =>
      cases h
      rw [if_neg hd]

-- The loop computes modulo the word size.
theorem loop_eq_some (h : loop p = some t) : t.toNat = number p % 2 ^ 64 := by
  induction p generalizing t
  case nil => cases h; rfl
  case cons d p hi =>
    have ⟨t₀, h₀, h⟩ := bind_eq_some_iff.mp h
    dsimp only at h
    have ⟨_, h⟩ := Option.ite_none_left_eq_some.mp h
    cases h
    have ht := hi h₀
    have hd : (d &&& 0x7f).toUInt64.toNat = d.toNat % 128 := toNat_and_lowest
    have hn : number (d :: p) = d.toNat % 128 + 127 * number p := by
      simp [number, Nat.ofDigits_cons]
    simp only [UInt64.toNat_add, UInt64.toNat_mul, hd, ht, hn, UInt64.reduceToNat]
    omega

end readVarint

open readVarint

theorem readVarint_eq_some (h : readVarint buf = some (n, t)) :
    Ends buf n ∧ t.toNat = number (buf.take n) % 2 ^ 64 := by
  have ⟨p, hp, h⟩ := bind_eq_some_iff.mp h
  have ⟨l, d, rest, hl, hb, hm, hd⟩ := digits_eq_some hp
  have hend : Ends buf p.length := by
    refine ⟨l, d, rest, ?_, ?_, hm, hd⟩
    · rw [hb, hl, append_assoc, singleton_append]
    · rw [hl, length_append, length_singleton]
  have htake : buf.take p.length = p := by rw [hb, take_left]
  split at h
  case isTrue hz =>
    cases h
    rw [hz, length_singleton] at hend htake
    exact ⟨hend, by rw [htake]; rfl⟩
  case isFalse =>
    have ⟨t', ht, h⟩ := bind_eq_some_iff.mp h
    cases h
    exact ⟨hend, htake.symm ▸ loop_eq_some ht⟩

theorem length_writeVarint : (writeVarint v).length = sizeVarint v := by
  fun_induction writeVarint v
  case case1 v d h hi =>
    rw [sizeVarint, if_pos h, ← hi]
    rfl
  case case2 v d h =>
    rw [sizeVarint, if_neg h]
    rfl

-- A digit is below 127, so its highest bit is free.
theorem toNat_digit : (UInt8.ofNat (v % 127)).toNat = v % 127 := by
  rw [UInt8.toNat_ofNat']
  omega

theorem toNat_digit_or : (UInt8.ofNat (v % 127) ||| 0x80).toNat = v % 127 + 128 := by
  rw [toNat_or_highest (by rw [toNat_digit]; omega), toNat_digit]

theorem digits_writeVarint : digits (writeVarint v) = some (writeVarint v) := by
  fun_induction writeVarint v
  case case1 v d h hi =>
    have hd : (d ||| 0x80) &&& 0x80 ≠ 0 := by
      rw [and_highest, toNat_digit_or]
      omega
    rw [digits, if_pos hd, hi]
    rfl
  case case2 v d h =>
    have hd : ¬ d &&& 0x80 ≠ 0 := by
      rw [and_highest, toNat_digit]
      omega
    rw [digits, if_neg hd]

-- The number grows with each digit that is read, since the last one is not zero.
theorem loop_cons_of_digit (hv : v ≠ 0) (hlt : v < 2 ^ 64)
    (h : loop p = some (UInt64.ofNat (v / 127))) (hd : d.toNat % 128 = v % 127) :
    loop (d :: p) = some (UInt64.ofNat v) := by
  have ht : UInt64.ofNat (v / 127) * 127 + (d &&& 0x7f).toUInt64 = UInt64.ofNat v := by
    rw [← UInt64.toNat_inj]
    simp only [UInt64.toNat_add, UInt64.toNat_mul, UInt64.toNat_ofNat', UInt8.toNat_toUInt64,
      toNat_and_lowest, hd, UInt64.reduceToNat]
    omega
  have hgt : ¬ UInt64.ofNat v ≤ UInt64.ofNat (v / 127) := by
    rw [UInt64.le_iff_toNat_le, UInt64.toNat_ofNat', UInt64.toNat_ofNat']
    omega
  rw [loop, h, bind_eq_bind, bind_some, ht, if_neg hgt]

theorem loop_writeVarint (hv : v ≠ 0) (hlt : v < 2 ^ 64) :
    loop (writeVarint v) = some (UInt64.ofNat v) := by
  fun_induction writeVarint v
  case case1 v d h hi =>
    refine loop_cons_of_digit hv hlt (hi h (by omega)) ?_
    rw [toNat_digit_or]
    omega
  case case2 v d h =>
    refine loop_cons_of_digit hv hlt ?_ ?_
    case refine_1 => rw [not_not.mp h]; rfl
    case refine_2 =>
      rw [toNat_digit]
      omega

theorem readVarint_writeVarint (hlt : v < 2 ^ 64) :
    readVarint (writeVarint v ++ rest) = some (sizeVarint v, UInt64.ofNat v) := by
  rw [readVarint, digits_append digits_writeVarint, bind_eq_bind, bind_some]
  by_cases hv : v = 0
  case pos =>
    have hw : writeVarint 0 = [0] := by simp [writeVarint]
    rw [hv, hw, if_pos rfl]
    simp [sizeVarint]
  case neg =>
    have hw : writeVarint v ≠ [0] := by
      intro hw
      have h := loop_writeVarint hv hlt
      rw [hw] at h
      cases h
    rw [if_neg hw, loop_writeVarint hv hlt, length_writeVarint]
    rfl

end NodeStore
