import Bixd.Lib.Except
import Bixd.Protocol.Serializer

open List Bytes Except Nat

@[simp]
theorem Serializer.length_addBitString {v : BitVec 256} : (addBitString v).length = 32 :=
  length_ofNat

namespace SerialIter

open Serializer

theorem get_append {b : Blob} (h : b.length = n) : get n what (b ++ rest) = .ok (b, rest) := by
  subst h
  simp [get]

theorem eq_append_of_get (h : get n what s = .ok (b, rest)) : s = b ++ rest ∧ b.length = n := by
  have ⟨hn, h⟩ := ite_error_eq_ok.mp h
  cases h
  exact ⟨(take_append_drop n s).symm, by simp; omega⟩

@[simp]
theorem get8_cons : get8 (b :: rest) = .ok (b, rest) := by
  have h : get 1 "get8" (b :: rest) = .ok ([b], rest) := get_append (b := [b]) rfl
  simp [get8, h, Bytes.toNat]

@[simp]
theorem get16_add16 : get16 (add16 i ++ rest) = .ok (i, rest) := by
  have hi : i.toNat < 256 ^ 2 := i.toNat_lt
  simp [get16, add16, get_append, toNat_ofNat_of_lt hi]

@[simp]
theorem get32_add32 : get32 (add32 i ++ rest) = .ok (i, rest) := by
  have hi : i.toNat < 256 ^ 4 := i.toNat_lt
  simp [get32, add32, get_append, toNat_ofNat_of_lt hi]

@[simp]
theorem get64_add64 : get64 (add64 i ++ rest) = .ok (i, rest) := by
  have hi : i.toNat < 256 ^ 8 := i.toNat_lt
  simp [get64, add64, get_append, toNat_ofNat_of_lt hi]

theorem getBitString_addBitString (hn : 8 ∣ n) :
    getBitString n (addBitString v ++ rest) = .ok (v, rest) := by
  have hv : v.toNat < 256 ^ (n / 8) := by
    rw [show (256 : Nat) = 2 ^ 8 from rfl, ← pow_mul, Nat.mul_div_cancel' hn]
    exact v.isLt
  simp [getBitString, addBitString, get_append, toNat_ofNat_of_lt hv]

theorem addBitString_injective {v' : BitVec n} (hn : 8 ∣ n)
    (h : addBitString v = addBitString v') : v = v' := by
  have hg : getBitString n (addBitString v ++ []) = _ := getBitString_addBitString hn
  rw [h, getBitString_addBitString hn] at hg
  simpa using hg.symm

theorem eq_append_of_get64 (h : get64 s = .ok (i, rest)) : s = add64 i ++ rest := by
  have ⟨⟨b, s'⟩, hg, h⟩ := bind_eq_ok.mp h
  have ⟨hs, hl⟩ := eq_append_of_get hg
  cases h
  have hb : Bytes.toNat b < 2 ^ 64 := by
    have hlt : Bytes.toNat b < _ := toNat_lt
    rwa [hl] at hlt
  rw [hs, add64, UInt64.toNat_ofNat', mod_eq_of_lt hb, ← hl, ofNat_toNat]

theorem eq_append_of_getBitString (hn : 8 ∣ n)
    (h : getBitString n s = .ok (v, rest)) : s = addBitString v ++ rest := by
  have ⟨⟨b, s'⟩, hg, h⟩ := bind_eq_ok.mp h
  have ⟨hs, hl⟩ := eq_append_of_get hg
  cases h
  have hb : Bytes.toNat b < 2 ^ n := by
    have hlt : Bytes.toNat b < _ := toNat_lt
    rwa [hl, show (256 : Nat) = 2 ^ 8 from rfl, ← pow_mul, Nat.mul_div_cancel' hn] at hlt
  rw [hs, addBitString, BitVec.toNat_ofNat, mod_eq_of_lt hb, ← hl, ofNat_toNat]

theorem toNat_ofNat_byte (h : x < 256) : (UInt8.ofNat x).toNat = x := by
  rw [UInt8.toNat_ofNat', mod_eq_of_lt h]

theorem uncommon_zero (h : 16 ≤ x) (h' : x < 256) :
    getFieldID.uncommon what 0 (UInt8.ofNat x :: rest) = .ok (x, rest) := by
  have hb := toNat_ofNat_byte h'
  generalize UInt8.ofNat x = b at hb
  have hl : ¬ b < 16 := by
    rw [UInt8.lt_iff_toNat_lt, hb]
    exact Nat.not_lt_of_le h
  simp [getFieldID.uncommon, hl, hb]

theorem uncommon_pos (h : 0 < x) : getFieldID.uncommon what x s = .ok (x, s) :=
  if_neg h.ne'

theorem getFieldID_cons {b : UInt8} (ht : b.toNat / 16 = t) (hn : b.toNat % 16 = n) :
    getFieldID (b :: rest) = (do
      let (type, s) ← getFieldID.uncommon "type" t rest
      let (name, s) ← getFieldID.uncommon "name" n s
      return ((type, name), s)) := by
  have hs : b.toNat >>> 4 = b.toNat / 16 := shiftRight_eq_div_pow _ _
  simp only [getFieldID, get8_cons, ok_bind, hs, ht, hn]

theorem getFieldID_addFieldID (ht : 0 < type) (ht' : type < 256) (hn : 0 < name)
    (hn' : name < 256) : getFieldID (addFieldID type name ++ rest) = .ok ((type, name), rest) := by
  have hs : type <<< 4 = 16 * type := by rw [shiftLeft_eq]; omega
  unfold addFieldID
  split <;> split
  case isTrue.isTrue h₁ h₂ =>
    have ho : (type <<< 4) ||| name = 16 * type + name := by
      rw [← shiftLeft_add_eq_or_of_lt h₂, hs]
    have hb := toNat_ofNat_byte (x := (type <<< 4) ||| name) (by omega)
    rw [cons_append, getFieldID_cons (t := type) (n := name) (by omega) (by omega)]
    simp [uncommon_pos ht, uncommon_pos hn]
  case isTrue.isFalse h₁ h₂ =>
    have hb := toNat_ofNat_byte (x := type <<< 4) (by omega)
    rw [cons_append, getFieldID_cons (t := type) (n := 0) (by omega) (by omega)]
    simp [uncommon_pos ht, uncommon_zero (Nat.le_of_not_lt h₂) hn']
  case isFalse.isTrue h₁ h₂ =>
    have hb := toNat_ofNat_byte hn'
    rw [cons_append, getFieldID_cons (t := 0) (n := name) (by omega) (by omega)]
    simp [uncommon_zero (Nat.le_of_not_lt h₁) ht', uncommon_pos hn]
  case isFalse.isFalse h₁ h₂ =>
    rw [cons_append, getFieldID_cons (t := 0) (n := 0) rfl rfl]
    simp [uncommon_zero (Nat.le_of_not_lt h₁) ht', uncommon_zero (Nat.le_of_not_lt h₂) hn']

theorem uncommon_lt (hh : half < 256)
    (h : getFieldID.uncommon what half s = .ok (x, rest)) : x < 256 := by
  unfold getFieldID.uncommon at h
  split at h
  case isTrue =>
    have ⟨⟨b, s₁⟩, _, h⟩ := bind_eq_ok.mp h
    simp only at h
    have ⟨_, h⟩ := Except.ite_error_eq_ok.mp h
    cases h
    exact b.toNat_lt
  case isFalse => cases h; exact hh

theorem getFieldID_name_lt (h : getFieldID s = .ok ((type, name), rest)) : name < 256 := by
  have ⟨⟨b, s₁⟩, _, h⟩ := bind_eq_ok.mp h
  have ⟨⟨_, s₂⟩, _, h⟩ := bind_eq_ok.mp h
  have ⟨⟨_, s₃⟩, hn, h⟩ := bind_eq_ok.mp h
  cases h
  exact uncommon_lt (lt_trans (mod_lt _ (by decide)) (by decide)) hn

theorem addEncoded_isOk : (∃ b, addEncoded n = .ok b) ↔ n ≤ 918744 := by
  unfold addEncoded
  split
  case isTrue => simp; omega
  split
  case isTrue => simp; omega
  case isFalse => split <;> simp <;> omega

theorem getVLDataLength_cons : getVLDataLength (b :: rest) =
    if b.toNat ≤ 192 then
      .ok (b.toNat, rest)
    else if b.toNat ≤ 240 then do
      let (b2, s) ← get8 rest
      return (193 + (b.toNat - 193) * 256 + b2.toNat, s)
    else if b.toNat ≤ 254 then do
      let (b2, s) ← get8 rest
      let (b3, s) ← get8 s
      return (12481 + (b.toNat - 241) * 65536 + b2.toNat * 256 + b3.toNat, s)
    else
      .error "b1>254" := by
  have hle (c : UInt8) : (b ≤ c) = (b.toNat ≤ c.toNat) := rfl
  have hlt (c : UInt8) : (b < c) = (b.toNat < c.toNat) := rfl
  have hgt (c : UInt8) : (b > c) = (c.toNat < b.toNat) := rfl
  simp only [getVLDataLength, get8_cons, ok_bind, decodeLengthLength, decodeVLLength₁,
    decodeVLLength₂, decodeVLLength₃, hle, hlt, hgt, UInt8.reduceToNat]
  split
  case isTrue h₁ => rw [if_neg (by omega)]; rfl
  case isFalse h₁ =>
    split
    case isTrue h₂ =>
      have h₃ : ¬ b.toNat < 193 := by omega
      have h₄ : ¬ 240 < b.toNat := by omega
      simp only [ok_bind, h₃, h₄, if_false]
    case isFalse h₂ =>
      split
      case isTrue h₃ =>
        have h₄ : ¬ b.toNat < 241 := by omega
        have h₅ : ¬ 254 < b.toNat := by omega
        simp only [ok_bind, h₄, h₅, if_false]
      case isFalse h₃ => rfl

theorem getVLDataLength_addEncoded (h : addEncoded n = .ok b) :
    getVLDataLength (b ++ rest) = .ok (n, rest) := by
  have hsum (c x : Nat) (h : c + x < 256) : (UInt8.ofNat c + UInt8.ofNat x).toNat = c + x := by
    rw [← UInt8.ofNat_add, toNat_ofNat_byte h]
  simp only [addEncoded, shiftRight_eq_div_pow] at h
  split at h
  case isTrue h₁ =>
    cases h
    have hb := toNat_ofNat_byte (x := n) (by omega)
    rw [cons_append, getVLDataLength_cons, hb, if_pos h₁, nil_append]
  case isFalse h₁ =>
    split at h
    case isTrue h₂ =>
      cases h
      have hb : (193 + UInt8.ofNat ((n - 193) / 2 ^ 8) : UInt8).toNat = 193 + (n - 193) / 2 ^ 8 :=
        hsum 193 _ (by omega)
      have hb' := toNat_ofNat_byte (x := (n - 193) % 256) (by omega)
      have hn : 193 + (193 + (n - 193) / 2 ^ 8 - 193) * 256 + (n - 193) % 256 = n := by omega
      rw [cons_append, getVLDataLength_cons, hb, if_neg (by omega), if_pos (by omega)]
      simp only [cons_append, nil_append, get8_cons, ok_bind, hb', hn, pure_eq_ok]
    case isFalse h₂ =>
      split at h
      case isTrue h₃ =>
        cases h
        have hb : (241 + UInt8.ofNat ((n - 12481) / 2 ^ 16) : UInt8).toNat =
            241 + (n - 12481) / 2 ^ 16 := hsum 241 _ (by omega)
        have hb' := toNat_ofNat_byte (x := (n - 12481) / 2 ^ 8 % 256) (by omega)
        have hb'' := toNat_ofNat_byte (x := (n - 12481) % 256) (by omega)
        have hn : 12481 + (241 + (n - 12481) / 2 ^ 16 - 241) * 65536 +
            (n - 12481) / 2 ^ 8 % 256 * 256 + (n - 12481) % 256 = n := by omega
        rw [cons_append, getVLDataLength_cons, hb, if_neg (by omega), if_neg (by omega),
          if_pos (by omega)]
        simp only [cons_append, nil_append, get8_cons, ok_bind, hb', hb'', hn,
          pure_eq_ok]
      case isFalse => cases h

theorem getVL_addVL (h : addVL data = .ok b) : getVL (b ++ rest) = .ok (data, rest) := by
  have ⟨e, he, hb⟩ := bind_eq_ok.mp h
  cases hb
  rw [getVL, append_assoc, getVLDataLength_addEncoded he, ok_bind]
  exact get_append rfl

end SerialIter
