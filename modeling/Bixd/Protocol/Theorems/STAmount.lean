import Bixd.Protocol.STAmount
import Bixd.Protocol.Theorems.Serializer

open UInt64 Except Nat

namespace STAmount

open Serializer SerialIter

variable {a : STAmount}

-- The amounts that have a representation on the wire, up to the bound of 62 bits for native ones.
structure Native (a : STAmount) : Prop where
  isNative : a.mIsNative = true
  issue    : a.mIssue = bixrpIssue
  value    : a.mValue < cPosNative
  offset   : a.mOffset = 0
  nonzero  : a.mIsNegative = true → a.mValue ≠ 0

structure Issued (a : STAmount) : Prop where
  notNative : a.mIsNative = false
  currency  : a.mIssue.currency ≠ 0
  account   : a.mIssue.account ≠ 0
  value     : (a.mValue = 0 ∧ a.mOffset = -100 ∧ a.mIsNegative = false) ∨
    (cMinValue ≤ a.mValue ∧ a.mValue ≤ cMaxValue ∧ cMinOffset ≤ a.mOffset ∧ a.mOffset ≤ cMaxOffset)

def InRange (a : STAmount) : Prop :=
  a.Native ∨ a.Issued

theorem canonicalize_of_bounds (hc : a.mIssue.currency ≠ 0) (hv : cMinValue ≤ a.mValue)
    (hv' : a.mValue ≤ cMaxValue) (ho : cMinOffset ≤ a.mOffset) (ho' : a.mOffset ≤ cMaxOffset) :
    a.canonicalize = .ok { a with mIsNative := false } := by
  have hz : a.mValue ≠ 0 := by
    intro hz
    rw [hz] at hv
    exact absurd hv (by decide)
  have hl := UInt64.not_lt.mpr hv
  have hg := UInt64.not_lt.mpr hv'
  have hb : a.isBIXRP = false := by simpa [isBIXRP] using hc
  simp [canonicalize, hb, canonicalize.issued, hz, canonicalize.raise, canonicalize.lower, hl, hg,
    Int.not_lt.mpr ho, Int.not_lt.mpr ho']

theorem canonicalize_zero {issue : Issue} (hc : issue.currency ≠ 0) :
    canonicalize ⟨issue, 0, offset, native, negative⟩ = .ok ⟨issue, 0, -100, false, false⟩ := by
  have hb : isBIXRP ⟨issue, 0, offset, native, negative⟩ = false := by simpa [isBIXRP] using hc
  simp [canonicalize, hb, canonicalize.issued]

theorem toNat_or_shiftLeft {v : UInt64} {k : Nat} (hv : v.toNat < 2 ^ 54) (hk : k < 1024) :
    (v ||| (ofNat k <<< 54)).toNat = k * 2 ^ 54 + v.toNat := by
  have hs : (ofNat k <<< 54).toNat = k <<< 54 := by
    have hk' : k < 2 ^ 64 := by omega
    have hs : k * 2 ^ 54 < 2 ^ 64 := by omega
    rw [UInt64.toNat_shiftLeft, toNat_ofNat', mod_eq_of_lt hk', show toNat 54 % 64 = 54 from rfl,
      shiftLeft_eq, mod_eq_of_lt hs]
  rw [UInt64.toNat_or, hs, Nat.or_comm, ← shiftLeft_add_eq_or_of_lt hv, shiftLeft_eq]

theorem ofInt_eq_ofNat {z : Int} {k : Nat} (h : z = k) : ofInt z = ofNat k := by
  apply UInt64.toNat_inj.mp
  rw [ofInt, toNat_ofNat', toNat_ofNat']
  omega

theorem toNat_cPosNative : cPosNative.toNat = 2 ^ 62 := rfl

theorem toNat_cNotNative : cNotNative.toNat = 2 ^ 63 := rfl

theorem toNat_or_cPosNative (hv : v < cPosNative) :
    (v ||| cPosNative).toNat = 2 ^ 62 + v.toNat := by
  have ho := two_pow_add_eq_or_of_lt (b := v.toNat) (i := 62) hv 1
  rw [UInt64.toNat_or, Nat.or_comm, toNat_cPosNative]
  simpa using ho.symm

theorem Native.ofSerialIter_add (h : a.Native) : ofSerialIter (a.add ++ rest) = .ok (a, rest) := by
  have ⟨⟨c, i⟩, v, o, n, neg⟩ := a
  obtain ⟨rfl, hi, hv, rfl, hz⟩ := h
  cases hi
  simp only at hv hz
  have hv' : v.toNat < 2 ^ 62 := hv
  cases neg
  case false =>
    have hp := toNat_or_cPosNative hv
    have hn : v ||| cPosNative < cNotNative := by
      rw [lt_iff_toNat_lt, hp, toNat_cNotNative]
      omega
    have hc : cPosNative ≤ v ||| cPosNative := by
      rw [le_iff_toNat_le, hp, toNat_cPosNative]
      omega
    have hs : (v ||| cPosNative) - cPosNative = v := by
      apply UInt64.toNat_inj.mp
      rw [UInt64.toNat_sub_of_le _ _ hc, hp, toNat_cPosNative]
      omega
    simp [add, ofSerialIter, hn, hc, hs, bixrpIssue]
  case true =>
    have hn : v < cNotNative := by
      rw [lt_iff_toNat_lt, toNat_cNotNative]
      omega
    have hc := UInt64.not_le.mpr hv
    simp [add, ofSerialIter, hn, hc, hz, bixrpIssue]

theorem ofSerialIter_not_native (hw : cNotNative ≤ w) (hc : c ≠ 0)
    (hi : i ≠ 0) : ofSerialIter (add64 w ++ addBitString c ++ addBitString i ++ rest) = (do
      return (← ofSerialIter.issued ⟨c, i⟩ (w.toNat / 2 ^ 54) (w % 2 ^ 54), rest)) := by
  have hn := UInt64.not_lt.mpr hw
  have hsh : (w >>> 54).toNat = w.toNat / 2 ^ 54 := by
    rw [UInt64.toNat_shiftRight, shiftRight_eq_div_pow]
    rfl
  simp only [ofSerialIter, List.append_assoc, get64_add64, ok_bind, hn, if_false, hc, hi,
    getBitString_addBitString (n := 160) (by decide), hsh]

-- The ten highest bits `k` of an issued amount, and the mantissa below them.
theorem ofSerialIter_packed {v : UInt64} (hc : c ≠ 0) (hi : i ≠ 0) (hv : v.toNat < 2 ^ 54)
    (hk : 512 ≤ k) (hk' : k < 1024) :
    ofSerialIter (add64 (v ||| (ofNat k <<< 54)) ++ addBitString c ++ addBitString i ++ rest) =
      (do return (← ofSerialIter.issued ⟨c, i⟩ k v, rest)) := by
  have hw := toNat_or_shiftLeft hv hk'
  have hn : cNotNative ≤ v ||| (ofNat k <<< 54) := by
    rw [le_iff_toNat_le, hw, toNat_cNotNative]
    omega
  have hm : (v ||| (ofNat k <<< 54)) % 2 ^ 54 = v := by
    apply UInt64.toNat_inj.mp
    rw [UInt64.toNat_mod, hw]
    show (k * 2 ^ 54 + v.toNat) % 2 ^ 54 = v.toNat
    omega
  have hd : (k * 2 ^ 54 + v.toNat) / 2 ^ 54 = k := by omega
  rw [ofSerialIter_not_native hn hc hi, hw, hm, hd]

theorem issued_of_bounds {issue : Issue} {k : Nat} {v : UInt64} (hc : issue.currency ≠ 0)
    (hv : cMinValue ≤ v) (hv' : v ≤ cMaxValue) (ho : cMinOffset ≤ o) (ho' : o ≤ cMaxOffset)
    (hk : (k % 256 : Int) - 97 = o) (hn : decide (k / 256 % 2 = 0) = b) :
    ofSerialIter.issued issue k v = .ok ⟨issue, v, o, false, b⟩ := by
  have hz : v ≠ 0 := by
    rintro rfl
    exact absurd hv (by decide)
  have hb : ¬ (v < cMinValue ∨ v > cMaxValue ∨ o < cMinOffset ∨ o > cMaxOffset) := by
    rintro (h | h | h | h)
    · exact UInt64.not_lt.mpr hv h
    · exact UInt64.not_lt.mpr hv' h
    · exact Int.not_lt.mpr ho h
    · exact Int.not_lt.mpr ho' h
  simp only [ofSerialIter.issued, ne_eq, hz, not_false_eq_true, if_true, hk, hb, if_false, hn]
  exact canonicalize_of_bounds (a := ⟨issue, v, o, false, b⟩) hc hv hv' ho ho'

theorem Issued.ofSerialIter_add (h : a.Issued) : ofSerialIter (a.add ++ rest) = .ok (a, rest) := by
  have ⟨⟨c, i⟩, v, o, n, neg⟩ := a
  obtain ⟨rfl, hc, hi, hv⟩ := h
  simp only at hc hi hv
  obtain ⟨rfl, rfl, rfl⟩ | ⟨hv, hv', ho, ho'⟩ := hv
  case inl =>
    simp only [add, Bool.false_eq_true, if_false, if_true]
    have hd : cNotNative.toNat / 2 ^ 54 = 512 := rfl
    have hm : cNotNative % 2 ^ 54 = 0 := rfl
    rw [ofSerialIter_not_native (UInt64.le_refl _) hc hi, hd, hm]
    have hcz : canonicalize ⟨⟨c, i⟩, 0, 0, false, false⟩ = _ := canonicalize_zero hc
    simp [ofSerialIter.issued, hcz]
  case inr =>
    have hz : v ≠ 0 := by
      rintro rfl
      exact absurd hv (by decide)
    have hl : v.toNat < 2 ^ 54 := lt_of_le_of_lt hv' (by decide)
    have hb : (-96 ≤ o) ∧ (o ≤ 80) := ⟨ho, ho'⟩
    cases neg
    case true =>
      simp only [add, Bool.false_eq_true, if_false, hz, if_true]
      rw [ofInt_eq_ofNat (k := (o + 609).toNat) (by omega), ofSerialIter_packed hc hi hl (by omega) (by omega),
        issued_of_bounds hc hv hv' ho ho' (by omega) (b := true) (by simp; omega)]
      rfl
    case false =>
      simp only [add, Bool.false_eq_true, if_false, hz]
      rw [ofInt_eq_ofNat (k := (o + 865).toNat) (by omega),
        ofSerialIter_packed hc hi hl (by omega) (by omega),
        issued_of_bounds hc hv hv' ho ho' (by omega) (b := false) (by simp; omega)]
      rfl

theorem InRange.ofSerialIter_add (h : a.InRange) : ofSerialIter (a.add ++ rest) = .ok (a, rest) :=
  h.elim Native.ofSerialIter_add Issued.ofSerialIter_add

theorem issued_spec {issue : Issue} {w v : UInt64} (hw : cNotNative ≤ w) (hc : issue.currency ≠ 0)
    (hi : issue.account ≠ 0) (hv : v.toNat = w.toNat % 2 ^ 54)
    (h : ofSerialIter.issued issue (w.toNat / 2 ^ 54) v = .ok a) : a.Issued ∧
      a.add = add64 w ++ addBitString issue.currency ++ addBitString issue.account := by
  have hl : 512 ≤ w.toNat / 2 ^ 54 := by
    rw [le_iff_toNat_le, toNat_cNotNative] at hw
    omega
  have hu : w.toNat / 2 ^ 54 < 1024 := by
    have hlt := w.toNat_lt
    omega
  have hp : v ||| (ofNat (w.toNat / 2 ^ 54) <<< 54) = w := by
    apply UInt64.toNat_inj.mp
    rw [toNat_or_shiftLeft (by omega) hu]
    omega
  generalize w.toNat / 2 ^ 54 = k at *
  unfold ofSerialIter.issued at h
  split at h
  case isTrue hz =>
    have ⟨hb, h⟩ := ite_error_eq_ok.mp h
    simp only [not_or, UInt64.not_lt, gt_iff_lt, Int.not_lt] at hb
    have ⟨hv, hv', ho, ho'⟩ := hb
    rw [canonicalize_of_bounds (by exact hc) hv hv' ho ho'] at h
    cases h
    refine ⟨⟨rfl, hc, hi, .inr hb⟩, ?_⟩
    by_cases hn : k / 256 % 2 = 0
    case pos =>
      have he : ofInt ((k % 256 : Int) - 97 + 512 + 97) = ofNat k :=
        ofInt_eq_ofNat (by omega)
      simp [add, hz, hn, he, hp]
    case neg =>
      have he : ofInt ((k % 256 : Int) - 97 + 512 + 256 + 97) = ofNat k :=
        ofInt_eq_ofNat (by omega)
      simp [add, hz, hn, he, hp]
  case isFalse hz =>
    have ⟨hk, h⟩ := ite_error_eq_ok.mp h
    rw [canonicalize_zero hc] at h
    cases h
    have hw : cNotNative = w := by
      rw [← hp, not_ne_iff.mp hz, not_ne_iff.mp hk]
      rfl
    exact ⟨⟨rfl, hc, hi, .inl ⟨rfl, rfl, rfl⟩⟩, by simp [add, hw]⟩

theorem ofSerialIter_spec (h : ofSerialIter s = .ok (a, rest)) : a.InRange ∧ s = a.add ++ rest := by
  have ⟨⟨value, s₁⟩, hg, h⟩ := bind_eq_ok.mp h
  have hs := eq_append_of_get64 hg
  simp only at h
  split at h
  case isTrue hn =>
    split at h
    case isTrue hp =>
      cases h
      have hlt : value - cPosNative < cPosNative := by
        rw [lt_iff_toNat_lt, toNat_cNotNative] at hn
        rw [lt_iff_toNat_lt, UInt64.toNat_sub_of_le _ _ hp, toNat_cPosNative]
        omega
      have hv : (value - cPosNative) ||| cPosNative = value := by
        apply UInt64.toNat_inj.mp
        rw [le_iff_toNat_le, toNat_cPosNative] at hp
        rw [toNat_or_cPosNative hlt, UInt64.toNat_sub_of_le _ _ hp, toNat_cPosNative]
        omega
      exact ⟨.inl ⟨rfl, rfl, hlt, rfl, by simp⟩, by simp [hs, add, hv]⟩
    case isFalse hp =>
      have ⟨hz, h⟩ := ite_error_eq_ok.mp h
      cases h
      exact ⟨.inl ⟨rfl, rfl, UInt64.not_le.mp hp, rfl, fun _ => hz⟩, by simp [hs, add]⟩
  case isFalse hn =>
    have ⟨⟨currency, s₂⟩, hg, h⟩ := bind_eq_ok.mp h
    have hs₁ := eq_append_of_getBitString (by decide) hg
    simp only at h
    have ⟨hc, h⟩ := ite_error_eq_ok.mp h
    have ⟨⟨account, s₃⟩, hg, h⟩ := bind_eq_ok.mp h
    have hs₂ := eq_append_of_getBitString (by decide) hg
    have ⟨hi, h⟩ := ite_error_eq_ok.mp h
    have ⟨a', ha, h⟩ := bind_eq_ok.mp h
    cases h
    have hsh : (value >>> 54).toNat = value.toNat / 2 ^ 54 := by
      rw [UInt64.toNat_shiftRight, shiftRight_eq_div_pow]
      rfl
    have ⟨hr, hadd⟩ := issued_spec (UInt64.not_lt.mp hn) hc hi (UInt64.toNat_mod _ _) (hsh ▸ ha)
    exact ⟨.inr hr, by simp [hs, hs₁, hs₂, hadd]⟩

-- The form that amounts are kept in.
structure Canonical (a : STAmount) : Prop where
  isNative : a.mIsNative = a.isBIXRP
  native   : a.mIssue.currency = 0 → a.mOffset = 0 ∧ a.mValue ≤ cMaxNativeN
  issued   : a.mIssue.currency ≠ 0 → (a.mValue = 0 ∧ a.mOffset = -100) ∨
    (cMinValue ≤ a.mValue ∧ a.mValue ≤ cMaxValue ∧ cMinOffset ≤ a.mOffset ∧ a.mOffset ≤ cMaxOffset)
  nonzero  : a.mIsNegative = true → a.mValue ≠ 0

theorem Canonical.inRange (h : a.Canonical) (hi : a.mIssue.currency = 0 ↔ a.mIssue.account = 0) :
    a.InRange := by
  by_cases hc : a.mIssue.currency = 0
  case pos =>
    have ⟨ho, hv⟩ := h.native hc
    have hb : a.mIssue = bixrpIssue := by
      rw [show a.mIssue = ⟨a.mIssue.currency, a.mIssue.account⟩ from rfl, hc, hi.mp hc]
      rfl
    have hn := h.isNative.trans (decide_eq_true hc)
    exact .inl ⟨hn, hb, UInt64.lt_of_le_of_lt hv (by decide), ho, h.nonzero⟩
  case neg =>
    refine .inr ⟨h.isNative.trans (decide_eq_false hc), hc, hi.not.mp hc, ?_⟩
    obtain ⟨hz, ho⟩ | hb := h.issued hc
    case inl => exact .inl ⟨hz, ho, Bool.eq_false_of_not_eq_true fun hn => h.nonzero hn hz⟩
    case inr => exact .inr hb

-- Amounts and the bytes that are accepted correspond to each other.
theorem wire_bijection (a : STAmount) (s rest : Blob) :
    (a.Canonical → (a.mIssue.currency = 0 ↔ a.mIssue.account = 0) →
      ofSerialIter (a.add ++ rest) = .ok (a, rest)) ∧
    (ofSerialIter s = .ok (a, rest) → s = a.add ++ rest) ∧
    (∀ s', ofSerialIter s = .ok (a, []) → ofSerialIter s' = .ok (a, []) → s = s') := by
  refine ⟨fun h hi => (h.inRange hi).ofSerialIter_add, fun h => (ofSerialIter_spec h).right, ?_⟩
  intro s' h h'
  rw [(ofSerialIter_spec h).right, (ofSerialIter_spec h').right]

def oneUnit (issuer : AccountID) : STAmount :=
  ⟨⟨5, issuer⟩, cMinValue, -15, false, false⟩

theorem oneUnit_canonical : (oneUnit issuer).Canonical where
  isNative := rfl
  native := fun h => (nomatch h)
  issued := fun _ => .inr (show cMinValue ≤ cMinValue ∧ cMinValue ≤ cMaxValue ∧
    cMinOffset ≤ -15 ∧ -15 ≤ cMaxOffset by decide)
  nonzero := fun h => (nomatch h)

theorem wire_bijection_oneUnit : (oneUnit 7).Canonical ∧
    ofSerialIter ((oneUnit 7).add ++ [9]) = .ok (oneUnit 7, [9]) ∧
    ((oneUnit 7).add = (oneUnit 7).add ++ []) :=
  ⟨oneUnit_canonical, (wire_bijection (oneUnit 7) [] [9]).left oneUnit_canonical (by decide),
    (wire_bijection (oneUnit 7) (oneUnit 7).add []).right.left (by decide +kernel)⟩

-- The issuer of an issued amount has to be an account.
theorem wire_without_issuer : (oneUnit 0).Canonical ∧
    ofSerialIter (oneUnit 0).add = .error "invalid native account" :=
  ⟨oneUnit_canonical, by decide +kernel⟩

end STAmount
