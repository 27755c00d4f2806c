import Bixd.Protocol.Tokens

open List UInt8

namespace Base58

open Radix

variable {c : Char} {ds : List Nat} {s : List Char} {token : Blob} {type : TokenType}

theorem alphabetReverse_symbol : ∀ d < 58, alphabetReverse (symbol d) = some d := by
  decide +kernel

theorem symbol_alphabetReverse (h : alphabetReverse c = some d) : d < 58 ∧ symbol d = c := by
  unfold alphabetReverse at h
  split at h
  case isTrue hc =>
    cases h
    have hl := idxOf_lt_length_iff.mpr hc
    exact ⟨hl, by simp [symbol, getElem?_eq_getElem hl]⟩
  case isFalse => cases h

theorem mapM_symbol (h : ∀ d ∈ ds, d < 58) : (ds.map symbol).mapM alphabetReverse = some ds := by
  induction ds
  case nil => rfl
  case cons d ds hi =>
    simp [alphabetReverse_symbol d (h d (.head _)), hi fun e he => h e (.tail _ he)]

theorem eq_map_symbol (h : s.mapM alphabetReverse = some ds) :
    (∀ d ∈ ds, d < 58) ∧ s = ds.map symbol := by
  induction s generalizing ds
  case nil => cases h; simp
  case cons c s hi =>
    simp only [mapM_cons, Option.bind_eq_bind, Option.bind_eq_some_iff, Option.pure_def,
      Option.some.injEq] at h
    obtain ⟨d, hc, ds, hs, rfl⟩ := h
    have ⟨hd, hc⟩ := symbol_alphabetReverse hc
    have ⟨hds, hs⟩ := hi hs
    exact ⟨by simpa [hd] using hds, by simp [hc, hs]⟩

theorem length_decoded : ∀ k < 65, 58 ^ k ≤ 256 ^ (k * 733 / 1000 + 1) := by
  decide +kernel

theorem map_toNat_ofNat (h : ∀ d ∈ ds, d < 256) : (ds.map ofNat).map toNat = ds := by
  rw [map_map]
  refine (map_congr_left fun d hd => ?_).trans ds.map_id'
  exact Nat.mod_eq_of_lt (h d hd)

theorem lt_of_mem_bytes {message : Blob} : ∀ d ∈ message.map toNat, d < 256 := by
  simpa using fun b _ => b.toNat_lt

theorem decodeBase58_symbols (h : ∀ d ∈ ds, d < 58) : decodeBase58 (ds.map symbol) =
    .ok (if (ds.dropWhile (· = 0)).length > 64 then [] else (converted 256 58 ds).map ofNat) := by
  simp only [decodeBase58, mapM_symbol h]
  split
  case isTrue => rfl
  case isFalse hl =>
    rw [convert_eq (by decide) (by decide) h (length_decoded _ (by omega))]
    rfl

section

variable [Sha256]

theorem length_checksum : (checksum message).length = 4 := by
  simp [checksum, Sha256.length_sha256]

theorem length_expand : (expand type token).length = 1 + token.length + 4 := by
  simp [expand, length_checksum]
  omega

theorem encodeBase58Token_eq (type : TokenType) (token : Blob) : encodeBase58Token type token =
    .ok ((converted 58 256 ((expand type token).map toNat)).map symbol) := by
  have hl := (dropWhile_suffix (· = 0) (l := (expand type token).map toNat)).length_le
  rw [length_map, length_expand] at hl
  have hs : (1 + token.length + 4) * 3 - (1 + token.length + 4) = 2 * (1 + token.length + 4) := by
    omega
  have hp : 256 ^ (1 + token.length + 4) ≤ 58 ^ (2 * (1 + token.length + 4)) := by
    rw [Nat.pow_mul]
    exact Nat.pow_le_pow_left (by decide) _
  rw [encodeBase58Token, encodeBase58, hs, convert_eq (by decide) (by decide) lt_of_mem_bytes
    ((Nat.pow_le_pow_right (by decide) hl).trans hp)]
  rfl

theorem accepted {ret : Blob} (hl : 6 ≤ ret.length) (ht : ret.head? = some type.code)
    (hc : checksum (ret.take (ret.length - 4)) = ret.drop (ret.length - 4)) :
    expand type ((ret.drop 1).take (ret.length - 1 - 4)) = ret := by
  cases ret
  case nil => cases ht
  case cons b bs =>
    obtain rfl : b = type.code := Option.some.inj ht
    have hk : (type.code :: bs).length - 4 = (bs.length - 4) + 1 := by
      rw [length_cons] at hl ⊢
      omega
    rw [hk, take_succ_cons] at hc
    simp [expand, hc]

theorem decodeBase58Token_eq (type : TokenType) (h : decodeBase58 s = .ok ret) :
    ∃ r, decodeBase58Token s type = .ok r ∧ (r ≠ [] → expand type r = ret) := by
  simp only [decodeBase58Token, h, Except.ok_bind]
  split
  case isTrue => exact ⟨[], rfl, nofun⟩
  case isFalse hl =>
    split
    case isTrue => exact ⟨[], rfl, nofun⟩
    case isFalse ht =>
      split
      case isTrue => exact ⟨[], rfl, nofun⟩
      case isFalse hc =>
        exact ⟨_, rfl, fun _ => accepted (Nat.le_of_not_lt hl) (not_ne_iff.mp ht) (not_ne_iff.mp hc)⟩

theorem decodeBase58Token_of_bytes (ht : token ≠ [])
    (h : decodeBase58 s = .ok (expand type token)) : decodeBase58Token s type = .ok token := by
  have hp := length_pos_of_ne_nil ht
  have ht : 1 + token.length + 4 - 4 = (type.code :: token).length := by
    rw [length_cons]
    omega
  simp only [decodeBase58Token, h, Except.ok_bind, length_expand, ht]
  rw [if_neg (by omega)]
  simp [expand]

-- An identifier has one text, and no conversion loses a carry.
theorem base58_canonical (type : TokenType) (token : Blob) (s : List Char) :
    (∃ r, encodeBase58Token type token = .ok r ∧
      (token ≠ [] → r.length ≤ 64 → decodeBase58Token r type = .ok token)) ∧
    (∃ r, decodeBase58Token s type = .ok r ∧
      (r ≠ [] → (∀ c ∈ s, c.toNat < 128) → encodeBase58Token type r = .ok s)) := by
  constructor
  case left =>
    refine ⟨_, encodeBase58Token_eq type token, fun ht hl => decodeBase58Token_of_bytes ht ?_⟩
    rw [length_map] at hl
    have hd := (dropWhile_suffix (· = 0)).length_le.trans hl
    rw [decodeBase58_symbols (lt_of_mem_converted (by decide)), if_neg (by omega),
      converted_converted (by decide) (by decide) lt_of_mem_bytes]
    simp [Function.comp_def]
  case right =>
    cases hm : s.mapM alphabetReverse
    case none =>
      have he : decodeBase58 s = .ok [] := by rw [decodeBase58, hm]
      have ⟨r, hr, hb⟩ := decodeBase58Token_eq type he
      exact ⟨r, hr, fun hn => nomatch hb hn⟩
    case some ds =>
      obtain ⟨hd, rfl⟩ := eq_map_symbol hm
      have ⟨r, hr, hb⟩ := decodeBase58Token_eq type (decodeBase58_symbols hd)
      refine ⟨r, hr, fun hn _ => ?_⟩
      have hb := hb hn
      split at hb
      case isTrue => cases hb
      case isFalse =>
        rw [encodeBase58Token_eq, hb, map_toNat_ofNat (lt_of_mem_converted (by decide)),
          converted_converted (by decide) (by decide) hd]

end

-- A digest that is always the same.
@[reducible]
def constantDigest : Sha256 :=
  ⟨fun _ => List.replicate 32 9, fun _ => rfl⟩

def sevenText : List Char :=
  ['r', 'o', 's', 'f', 'j', 'Z', 'J']

theorem base58_canonical_seven :
    @encodeBase58Token constantDigest .AccountID [7] = .ok sevenText ∧
    @decodeBase58Token constantDigest sevenText .AccountID = .ok [7] := by
  have ⟨⟨r, he, hd⟩, r', hd', he'⟩ := @base58_canonical constantDigest .AccountID [7] sevenText
  have hs : @encodeBase58Token constantDigest .AccountID [7] = .ok sevenText := by decide +kernel
  obtain rfl : sevenText = r := Except.ok.inj (hs.symm.trans he)
  have hd := hd (by simp) (by decide)
  obtain rfl : [7] = r' := Except.ok.inj (hd.symm.trans hd')
  exact ⟨he' (by simp) (by simp [sevenText]), hd⟩

end Base58
