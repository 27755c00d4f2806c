import Bixd.Conditions.Condition
import Bixd.Lib.Except

open Except Bytes List Nat

namespace CryptoConditions

namespace Der

variable {p : Preamble}

theorem parsePreamble_eq_ok (h : parsePreamble s = .ok (p, rest)) :
    ∃ b l t, s = b :: l :: (t ++ rest) ∧ p.type = b &&& 0xE0 ∧ p.tag = b &&& 0x1F ∧
      (t = [] ∧ l.toNat = p.length ∨
        0 < t.length ∧ l.toNat = 128 + t.length ∧ toNat t = p.length) := by
  match s with
  | b :: l :: s =>
    have hl := forall_byte (P := fun l => l &&& 0x80 ≠ 0 → l.toNat = 128 + (l &&& 0x7F).toNat)
      (by decide +kernel) l
    rw [parsePreamble, ite_error_eq_ok] at h
    split at h
    case isTrue =>
      cases h.right
      exact ⟨b, l, [], rfl, rfl, rfl, .inl ⟨rfl, rfl⟩⟩
    case isFalse hs =>
      simp only [ite_error_eq_ok] at h
      obtain ⟨_, hz, _, hc, _, ⟨⟩⟩ := h
      have ht := length_take_of_le (not_lt.mp hc)
      exact ⟨b, l, _, by rw [take_append_drop], rfl, rfl, .inr ⟨by omega, by rw [hl hs, ht], rfl⟩⟩

theorem eq_of_parsePreamble (h : parsePreamble s = .ok (p, rest))
    (h' : parsePreamble s' = .ok (p, rest)) (hs : s.length = s'.length) : s = s' := by
  have ⟨b, l, t, he, ht, hg, hl⟩ := parsePreamble_eq_ok h
  have ⟨b', l', t', he', ht', hg', hl'⟩ := parsePreamble_eq_ok h'
  have hor :=
    forall_byte (P := fun b => (b &&& 0xE0) ||| (b &&& 0x1F) = b) (by decide +kernel)
  have hb : b = b' := by rw [← hor b, ← hor b', ← ht, ← hg, ht', hg']
  have hlen : t.length = t'.length := by simpa [he, he'] using hs
  have ⟨hll, htt⟩ : l.toNat = l'.toNat ∧ t = t' := by
    rcases hl with ⟨hn, hl⟩ | ⟨hn, hl, hv⟩ <;> rcases hl' with ⟨hn', hl'⟩ | ⟨hn', hl', hv'⟩
    case inl.inl => exact ⟨hl.trans hl'.symm, hn.trans hn'.symm⟩
    case inl.inr => rw [hn, length_nil] at hlen; omega
    case inr.inl => rw [hn', length_nil] at hlen; omega
    case inr.inr => exact ⟨by omega, eq_of_toNat hlen (hv.trans hv'.symm)⟩
  rw [he, he', hb, UInt8.toNat_inj.mp hll, htt]

-- The number of octets of the preamble that comes first.
def preambleSize (s : Blob) : Nat :=
  match parsePreamble s with
  | .ok (_, rest) => s.length - rest.length
  | .error _      => 0

theorem drop_preambleSize (h : parsePreamble s = .ok (p, rest)) :
    s.drop (preambleSize s) = rest ∧ s.length = preambleSize s + rest.length := by
  have ⟨b, l, t, he, _⟩ := parsePreamble_eq_ok h
  have hs : preambleSize s = (b :: l :: t).length := by
    rw [preambleSize, h, he]
    simp; omega
  have he : s = (b :: l :: t) ++ rest := he
  rw [hs, he]
  exact ⟨drop_left, length_append⟩

theorem type_of_contextSpecific (h : parsePreamble s = .ok (p, rest))
    (hp : p.isContextSpecific = true) : p.type = if p.isPrimitive then 0x80 else 0xA0 := by
  have ⟨b, _, _, _, ht, _⟩ := parsePreamble_eq_ok h
  rw [Preamble.isContextSpecific, ht] at hp
  rw [Preamble.isPrimitive, ht]
  exact forall_byte (P := fun b => decide (b &&& 0xE0 &&& 0xC0 = 0x80) = true →
    b &&& 0xE0 = if decide (b &&& 0xE0 &&& 0x20 = 0) = true then 0x80 else 0xA0)
      (by decide +kernel) b hp

theorem parseOctetString_eq_ok (h : parseOctetString s (UInt32.ofNat n) = .ok (b, rest))
    (hn : n < 2 ^ 32) : s = b ++ rest ∧ b.length = n := by
  have hn : (UInt32.ofNat n).toNat = n := by rw [UInt32.toNat_ofNat', mod_eq_of_lt hn]
  simp only [parseOctetString, ite_error_eq_ok, hn] at h
  obtain ⟨hle, _, ⟨⟩⟩ := h
  exact ⟨(take_append_drop n s).symm, length_take_of_le (not_lt.mp hle)⟩

theorem parseInteger_eq_ok (h : parseInteger s n = .ok (v, [])) :
    s.length = n ∧ toNat s = v.toNat := by
  match s with
  | b :: s =>
    simp only [parseInteger, ite_error_eq_ok] at h
    have ⟨hle, h5, _, hz, h⟩ := h
    injection h with h
    injection h with hv hd
    have hn := le_antisymm (drop_eq_nil_iff.mp hd) (not_lt.mp hle)
    have hlt : toNat (b :: s) < 256 ^ 4 := by
      by_cases hb : b = 0
      case pos =>
        have hs : s.length ≤ 4 := by simp at hn; omega
        rw [Bytes.toNat, hb, UInt8.toNat_zero, zero_mul, zero_add]
        exact Bytes.toNat_lt.trans_le (Nat.pow_le_pow_right (by decide) hs)
      case neg =>
        have hs : (b :: s).length ≤ 4 := by have hn5 : n ≠ 5 := fun h => hz ⟨h, hb⟩; omega
        exact Bytes.toNat_lt.trans_le (Nat.pow_le_pow_right (by decide) hs)
    rw [← hv, take_of_length_le hn.le, UInt32.toNat_ofNat', mod_eq_of_lt (b := 2 ^ 32) hlt]
    exact ⟨hn, rfl⟩

end Der

open Der

theorem not_or_not {a b : Bool} : ¬(!a || !b) = true ↔ a = true ∧ b = true := by
  cases a <;> simp

-- What follows the preamble of a condition: the fingerprint, and the cost in the octets `d`.
structure Loads (c : Condition) (s r d : Blob) : Prop where
  fingerprint : parsePreamble s = .ok (⟨0x80, 0, 32⟩, c.fingerprint ++ r)
  size : c.fingerprint.length = 32
  cost : parsePreamble r = .ok (⟨0x80, 1, d.length⟩, d)
  value : toNat d = c.cost.toNat

theorem loads_of_ok (h : loadSimpleSha256 type s = .ok c) : ∃ r d, Loads c s r d := by
  simp only [loadSimpleSha256, ite_error_eq_ok, bind_eq_ok, not_not, not_or_not] at h
  have ⟨⟨⟨ty, tag, n⟩, s'⟩, hs, ⟨hp, hc⟩, htag, hn, ⟨b, r⟩, hb, h⟩ := h
  obtain ⟨⟨⟨ty', tag', m⟩, d⟩, hr, ⟨hp', hc'⟩, htag', ⟨v, e⟩, hv, he, _, ⟨⟩⟩ := h
  have ht : ty = 0x80 := (type_of_contextSpecific hs hc).trans (if_pos hp)
  have ht' : ty' = 0x80 := (type_of_contextSpecific hr hc').trans (if_pos hp')
  dsimp only at htag htag' hn he hb hv
  subst ht ht' htag htag' hn he
  have ⟨hs', hlen⟩ := parseOctetString_eq_ok hb (by decide)
  have ⟨hd, hval⟩ := parseInteger_eq_ok hv
  subst hs' hd
  exact ⟨r, d, hs, hlen, hr, hval⟩

theorem Condition.loads_of_deserialize (h : deserialize b = .ok c) :
    ∃ s r d, parsePreamble b = .ok (⟨0xA0, 0, s.length⟩, s) ∧ Loads c s r d := by
  simp only [deserialize, ite_error_eq_ok, bind_eq_ok, not_or_not] at h
  have ⟨_, ⟨⟨ty, tag, n⟩, s⟩, hb, ⟨hp, hc⟩, hle, _, h⟩ := h
  have ht : ty = 0xA0 :=
    (type_of_contextSpecific hb hc).trans (by simp_all [Preamble.isConstructed])
  split at h
  case isFalse => split at h <;> cases h
  case isTrue htag =>
    split at h
    case h_2 => split at h <;> cases h
    case h_1 hl =>
      obtain ⟨hd, ⟨⟩⟩ := ite_error_eq_ok.mp h
      have hn : s.length = n :=
        le_antisymm (drop_eq_nil_iff.mp (not_not.mp hd)) (not_lt.mp hle)
      have ⟨r, d, hload⟩ := loads_of_ok hl
      dsimp only at htag
      subst ht htag hn
      rw [take_length] at hload
      exact ⟨s, r, d, hb, hload⟩

-- The number of octets of all of a condition, and of each of its preambles.
def Condition.octets (b : Blob) : List Nat :=
  let n := preambleSize b
  let m := preambleSize (b.drop n)
  [b.length, n, m, preambleSize (b.drop (n + (m + 32)))]

theorem Condition.octets_eq (hb : parsePreamble b = .ok (p, s)) (h : Loads c s r d) :
    octets b = [b.length, preambleSize b, preambleSize s, preambleSize r] := by
  have hs := (drop_preambleSize hb).left
  have hr := (drop_preambleSize h.fingerprint).left
  simp only [octets, ← drop_drop, hs, hr, ← h.size, drop_left]

theorem Condition.eq_of_octets (h : deserialize b = .ok c) (h' : deserialize b' = .ok c)
    (ho : octets b = octets b') : b = b' := by
  have ⟨s, r, d, hb, hl⟩ := loads_of_deserialize h
  have ⟨s', r', d', hb', hl'⟩ := loads_of_deserialize h'
  simp only [octets_eq hb hl, octets_eq hb' hl', cons.injEq, and_true] at ho
  have ⟨hlen, ho, hm, hk⟩ := ho
  have hs := (drop_preambleSize hb).right
  have hs' := (drop_preambleSize hb').right
  have hr := (drop_preambleSize hl.fingerprint).right
  have hr' := (drop_preambleSize hl'.fingerprint).right
  have hd := (drop_preambleSize hl.cost).right
  have hd' := (drop_preambleSize hl'.cost).right
  rw [length_append] at hr hr'
  have hdd : d = d' := eq_of_toNat (by omega) (hl.value.trans hl'.value.symm)
  subst hdd
  have hrr : r = r' := eq_of_parsePreamble hl.cost hl'.cost (by omega)
  subst hrr
  have hss : s = s' := eq_of_parsePreamble hl.fingerprint hl'.fingerprint (by omega)
  subst hss
  exact eq_of_parsePreamble hb hb' hlen

theorem PreimageSha256.parsePreamble_of_ok (h : deserialize s = .ok f) :
    parsePreamble s = .ok (⟨0x80, 0, f.payload.length⟩, f.payload) := by
  simp only [deserialize, ite_error_eq_ok, bind_eq_ok, not_not, not_or_not] at h
  obtain ⟨⟨⟨ty, tag, n⟩, s'⟩, hs, ⟨hp, hc⟩, htag, hn, hmax, ⟨b, rest⟩, hb, ⟨⟩⟩ := h
  have ht : ty = 0x80 := (type_of_contextSpecific hs hc).trans (if_pos hp)
  dsimp only at htag hn hb hmax
  subst ht htag hn
  have ⟨hs', hlen⟩ := parseOctetString_eq_ok hb (by rw [maxPreimageLength] at hmax; omega)
  rw [hs', length_append, left_eq_add, length_eq_zero_iff] at hlen
  rw [hlen, append_nil] at hs'
  exact hs' ▸ hs

theorem Fulfillment.parsePreamble_of_ok (h : deserialize b = .ok f) :
    ∃ s, parsePreamble b = .ok (⟨0xA0, 0, s.length⟩, s) ∧
      parsePreamble s = .ok (⟨0x80, 0, f.payload.length⟩, f.payload) := by
  simp only [deserialize, ite_error_eq_ok, bind_eq_ok, not_or_not] at h
  have ⟨_, ⟨⟨ty, tag, n⟩, s⟩, hb, ⟨hp, hc⟩, hle, hge, _, h⟩ := h
  have ht : ty = 0xA0 :=
    (type_of_contextSpecific hb hc).trans (by simp_all [Preamble.isConstructed])
  split at h
  case isFalse => split at h <;> cases h
  case isTrue htag =>
    have ⟨f, hf, h⟩ := bind_eq_ok.mp h
    obtain ⟨_, ⟨⟩⟩ := ite_error_eq_ok.mp h
    have hn : s.length = n := le_antisymm (not_lt.mp hge) (not_lt.mp hle)
    dsimp only at htag
    subst ht htag hn
    rw [take_length] at hf
    exact ⟨s, hb, PreimageSha256.parsePreamble_of_ok hf⟩

def Fulfillment.octets (b : Blob) : List Nat :=
  [preambleSize b, preambleSize (b.drop (preambleSize b))]

theorem Fulfillment.eq_of_octets (h : deserialize b = .ok f) (h' : deserialize b' = .ok f)
    (ho : octets b = octets b') : b = b' := by
  have ⟨s, hb, hs⟩ := parsePreamble_of_ok h
  have ⟨s', hb', hs'⟩ := parsePreamble_of_ok h'
  have ⟨hd, hlen⟩ := drop_preambleSize hb
  have ⟨hd', hlen'⟩ := drop_preambleSize hb'
  simp only [octets, hd, hd', cons.injEq, and_true] at ho
  have hl := (drop_preambleSize hs).right
  have hl' := (drop_preambleSize hs').right
  have hss : s = s' := eq_of_parsePreamble hs hs' (by omega)
  subst hss
  exact eq_of_parsePreamble hb hb' (by omega)

-- The bytes of a condition or of a fulfillment are known by what they mean and by the numbers of
-- octets that lengths and costs are written with, which are free.
theorem deserialize_canonical_iff (b₁ b₂ : Blob) :
    (∀ c, Condition.deserialize b₁ = .ok c → Condition.deserialize b₂ = .ok c →
      (b₁ = b₂ ↔ Condition.octets b₁ = Condition.octets b₂)) ∧
    (∀ f, Fulfillment.deserialize b₁ = .ok f → Fulfillment.deserialize b₂ = .ok f →
      (b₁ = b₂ ↔ Fulfillment.octets b₁ = Fulfillment.octets b₂)) :=
  ⟨fun _ h₁ h₂ => ⟨congrArg _, Condition.eq_of_octets h₁ h₂⟩,
    fun _ h₁ h₂ => ⟨congrArg _, Fulfillment.eq_of_octets h₁ h₂⟩⟩

-- The bytes of the condition with a fingerprint of zeros and no cost, with a given first length and
-- given octets for the cost.
def zeros (length cost : Blob) : Blob :=
  0xA0 :: length ++ [0x80, 0x20] ++ replicate 32 0 ++ 0x81 :: cost

-- A long length for a short value and a leading zero of an integer are accepted.
theorem deserialize_not_canonical : ∃ c,
    Condition.deserialize (zeros [0x25] [1, 0]) = .ok c ∧
    Condition.deserialize (zeros [0x81, 0x25] [1, 0]) = .ok c ∧
    Condition.deserialize (zeros [0x26] [2, 0, 0]) = .ok c ∧
    Fulfillment.deserialize [0xA0, 2, 0x80, 0] = .ok ⟨[]⟩ ∧
    Fulfillment.deserialize [0xA0, 0x81, 2, 0x80, 0] = .ok ⟨[]⟩ :=
  ⟨⟨.preimageSha256, 0, replicate 32 0, []⟩, rfl, rfl, rfl, rfl, rfl⟩

end CryptoConditions
