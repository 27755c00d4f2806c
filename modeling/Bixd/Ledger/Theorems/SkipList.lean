import Bixd.Ledger.Chain
import Bixd.Ledger.Theorems.Views
import Bixd.Lib.Window

open ReadView Keylet Ledger UInt32 BitVec LedgerInfo List Serializer

namespace SkipList

variable {k : Keylet}

-- The hashes are stored with the sequence of the last one. There is no entry if there are no hashes.
def Stored (M : UInt256 → Option SLE) (k : Keylet) (hs : List UInt256) (last : UInt32) : Prop :=
  if hs = [] then
    M k.key = none
  else
    ∃ s, M k.key = some s ∧ (s.type = .ltLEDGER_HASHES) ∧ (s.getFieldV256 sfHashes = hs) ∧
      (s.getFieldU32 sfLastLedgerSequence = last)

theorem Stored.congr (h : Stored M k hs last) (hm : M' k.key = M k.key) : Stored M' k hs last := by
  unfold Stored
  rw [hm]
  exact h

theorem Stored.nil : Stored M k [] last ↔ M k.key = none := by
  rw [Stored, if_pos rfl]

theorem Stored.filter (hk : k.type = .ltLEDGER_HASHES) (h : Stored M k hs last) :
    (M k.key).filter k.check = M k.key := by
  unfold Stored at h
  split at h
  case isTrue => rw [h]; rfl
  have ⟨s, hs, ht, _⟩ := h
  have hc : k.check s = true := by simp [check, hk, ht]
  rw [hs, Option.filter_some, if_pos hc]

theorem Stored.read {l : Ledger} (hk : k.type = .ltLEDGER_HASHES) (hne : hs ≠ [])
    (h : Stored l.contents.state k hs last) :
    ∃ s, l.view.read k = some s ∧ (s.getFieldV256 sfHashes = hs) ∧
      (s.getFieldU32 sfLastLedgerSequence = last) := by
  rw [l.denotes.read, h.filter hk]
  rw [Stored, if_neg hne] at h
  have ⟨s, hs, _, hv⟩ := h
  exact ⟨s, hs, hv⟩

theorem Stored.push {l : Ledger} (h : Stored l.contents.state k hs last) (h0 : k.key ≠ 0)
    (hk : k.type = .ltLEDGER_HASHES) (f : List UInt256 → List UInt256) (hf : f hs ≠ [])
    (prev : UInt32) :
    ∃ l', updateSkipList.push l k f prev = .ok l' ∧ l.Like l' ∧
      Stored l'.contents.state k (f hs) prev ∧
      ∀ n, n ≠ k.key → l'.contents.state n = l.contents.state n := by
  have hraw := (lawful l).raw
  have hstored (s : SLE) (hs : List UInt256) (hne : hs ≠ []) (l' : Ledger) (ht : s.type = k.type)
      (hm : l'.contents.state k.key = some ((s.set sfHashes (.vector256 hs)).set
        sfLastLedgerSequence (.uint32 prev))) : Stored l'.contents.state k hs prev := by
    rw [Stored, if_neg hne]
    refine ⟨_, hm, ht.trans hk, ?_, ?_⟩
    · rw [SLE.getFieldV256, SLE.fields_set_of_ne (by decide), SLE.fields_set_self]
    · rw [SLE.getFieldU32, SLE.fields_set_self]
  have hpeek : l.peek k = l.contents.state k.key := h.filter hk
  unfold updateSkipList.push
  rw [hpeek]
  unfold Stored at h
  split at h
  case isTrue hnil =>
    rw [h]
    obtain ⟨l', hl', hlike, hc⟩ := hraw.rawInsert (v := l) (c := l.contents)
      (p := ⟨0, ((SLE.make k.type k.key).set sfHashes (.vector256 (f []))).set
        sfLastLedgerSequence (.uint32 prev)⟩) ⟨.refl, rfl⟩ h0 h
    refine ⟨l', hl', hlike, ?_, fun n hn => ?_⟩
    · subst hnil
      exact hstored _ _ hf l' rfl (by rw [hc]; exact Function.update_self ..)
    · rw [hc]
      exact Function.update_of_ne hn ..
  case isFalse =>
    obtain ⟨s, hm, ht, rfl, _⟩ := h
    rw [hm]
    have hkey := l.keyed _ _ hm
    have hsome : (l.contents.state s.key).isSome := by rw [hkey, hm]; rfl
    obtain ⟨l', hl', hlike, hc⟩ := hraw.rawReplace (v := l) (c := l.contents)
      (p := ⟨0, (s.set sfHashes (.vector256 (f (s.getFieldV256 sfHashes)))).set
        sfLastLedgerSequence (.uint32 prev)⟩) ⟨.refl, rfl⟩ hsome
    refine ⟨l', hl', hlike, ?_, fun n hn => ?_⟩
    · exact hstored _ _ hf l' (ht.trans hk.symm)
        (by rw [hc, ← hkey]; exact Function.update_self ..)
    · rw [← hkey] at hn
      rw [hc]
      exact Function.update_of_ne hn ..

-- The page `p` holds the hashes of every 256th ledger from `256 * first p` on. Up to the ledger
-- `256 * m` there are `count m p` of them.

def first (p : Nat) : Nat := max 1 (256 * p)

def count (m p : Nat) : Nat := min (m + 1) (256 * p + 256) - first p

theorem le_of_lt_count (hle : first p ≤ i) (hlt : i < first p + count m p) : (1 ≤ i) ∧ (i ≤ m) := by
  simp only [count, first] at *
  omega

theorem count_succ (h : p = (m + 1) / 256) :
    (count (m + 1) p = count m p + 1) ∧ (first p + count m p = m + 1) := by
  simp only [count, first]
  omega

theorem count_succ_of_ne (h : p ≠ (m + 1) / 256) : count (m + 1) p = count m p := by
  simp only [count, first]
  omega

theorem toNat_shiftRight_16 (s : UInt32) : (s >>> 16).toNat = s.toNat / 65536 := by
  rw [UInt32.toNat_shiftRight, Nat.shiftRight_eq_div_pow]
  rfl

theorem and_255_eq_zero (s : UInt32) : s &&& 0xff = 0 ↔ s.toNat % 256 = 0 := by
  rw [← UInt32.toNat_inj, UInt32.toNat_and]
  have h := Nat.and_two_pow_sub_one_eq_mod s.toNat 8
  exact iff_of_eq (congrArg (· = 0) h)

-- A difference as an `int`, converted to a size.

theorem toNat_of_lt {x : UInt32} (h : x.toNat < 2 ^ 31) :
    (x.toInt32 ≤ 256 ↔ x.toNat ≤ 256) ∧ (x.toInt32.toInt64.toUInt64.toNat = x.toNat) := by
  have hb : x.toBitVec.toNat = x.toNat := rfl
  have hx : x.toInt32.toInt = x.toNat :=
    toInt_eq_toNat_of_lt (x := x.toBitVec) (by omega)
  have hmsb : x.toBitVec.msb = false := by
    rw [msb_eq_decide]
    exact decide_eq_false (by omega)
  constructor
  case left =>
    rw [Int32.le_iff_toInt_le, hx]
    exact Int.ofNat_le
  change (x.toBitVec.signExtend 64).toNat = x.toNat
  rw [toNat_signExtend, hmsb, toNat_setWidth, if_neg Bool.false_ne_true]
  omega

theorem le_toNat_of_le {x : UInt32} (h : 2 ^ 31 ≤ x.toNat) :
    2 ^ 63 ≤ x.toInt32.toInt64.toUInt64.toNat := by
  have hmsb : x.toBitVec.msb = true := by
    rw [msb_eq_decide]
    exact decide_eq_true h
  change 2 ^ 63 ≤ (x.toBitVec.signExtend 64).toNat
  rw [toNat_signExtend, hmsb, if_pos rfl]
  omega

theorem toNat_diff {s : UInt32} {last : Nat} (hs : s.toNat = 256 * i) (hle : i ≤ last)
    (hlt : 256 * last < 2 ^ 32) : ((ofNat (256 * last) - s) >>> 8).toNat = last - i := by
  have hlast := toNat_ofNat_of_lt' hlt
  have hsub : (ofNat (256 * last) - s).toNat = 256 * last - 256 * i := by
    rw [UInt32.toNat_sub_of_le _ _ (by rw [le_iff_toNat_le]; omega), hlast, hs]
  rw [UInt32.toNat_shiftRight, hsub, Nat.shiftRight_eq_div_pow]
  change (256 * last - 256 * i) / 256 = last - i
  omega

variable [Digest] {l l' : Ledger} {s : UInt32}

-- What a ledger with the sequence `n` has, if the ledgers before it have the hashes `H`.
structure Holds (H : Nat → UInt256) (n : Nat) (M : UInt256 → Option SLE) : Prop where
  skip : Stored M .skip (window H (n - min 256 (n - 1)) (min 256 (n - 1))) (.ofNat (n - 1))
  page : ∀ s : UInt32, Stored M (.skipPage s)
    (window (fun i => H (256 * i)) (first (s.toNat / 65536)) (count ((n - 1) / 256) (s.toNat / 65536)))
    (.ofNat (256 * (first (s.toNat / 65536) + count ((n - 1) / 256) (s.toNat / 65536) - 1)))

theorem Holds.congr (h : Holds H n M) (hm : ∀ k, Chain.IsSkipKey k → M' k = M k) : Holds H n M' where
  skip := h.skip.congr (hm _ (.inl rfl))
  page s := (h.page s).congr (hm _ (.inr ⟨s, rfl⟩))

theorem Holds.congr_hashes (h : Holds H n M) (hH : ∀ i < n, H i = H' i) : Holds H' n M where
  skip := by
    have hw : window H (n - min 256 (n - 1)) (min 256 (n - 1)) =
        window H' (n - min 256 (n - 1)) (min 256 (n - 1)) :=
      window.congr fun i _ hi => hH i (by omega)
    exact hw ▸ h.skip
  page s := by
    have hw : window (fun i => H (256 * i)) (first (s.toNat / 65536))
          (count ((n - 1) / 256) (s.toNat / 65536)) =
        window (fun i => H' (256 * i)) (first (s.toNat / 65536))
          (count ((n - 1) / 256) (s.toNat / 65536)) :=
      window.congr fun i hle hlt => hH (256 * i) (by
        have ⟨_, _⟩ := le_of_lt_count hle hlt
        omega)
    exact hw ▸ h.page s

theorem holds_one (hm : ∀ k, Chain.IsSkipKey k → M k = none) : Holds H 1 M where
  skip := Stored.nil.mpr (hm _ (.inl rfl))
  page s := by
    have hc : count ((1 - 1) / 256) (s.toNat / 65536) = 0 := by simp only [count, first]; omega
    rw [hc]
    exact Stored.nil.mpr (hm _ (.inr ⟨s, rfl⟩))

-- The keys are different for different lists.
structure Distinct : Prop where
  skip_ne_zero : skip.key ≠ 0
  page_ne_zero : ∀ s, (skipPage s).key ≠ 0
  page_ne_skip : ∀ s, (skipPage s).key ≠ skip.key
  page_inj     : ∀ s s', (skipPage s).key = (skipPage s').key → s >>> 16 = s' >>> 16

theorem skipPage_congr {s s' : UInt32} (h : s.toNat / 65536 = s'.toNat / 65536) :
    skipPage s = skipPage s' := by
  have hs : s >>> 16 = s' >>> 16 := by
    rw [← UInt32.toNat_inj, toNat_shiftRight_16, toNat_shiftRight_16, h]
  rw [skipPage, skipPage, hs]

theorem Holds.every256th (hd : Distinct) (h : Holds H n l.contents.state) (hn : 0 < n)
    (hs : s.toNat = n) (hp : l.info.parentHash = H n) :
    ∃ l', updateSkipList.every256th l s = .ok l' ∧ l.Like l' ∧
      (l'.contents.state Keylet.skip.key = l.contents.state Keylet.skip.key) ∧
      ∀ t : UInt32, Stored l'.contents.state (.skipPage t)
        (window (fun i => H (256 * i)) (first (t.toNat / 65536)) (count (n / 256) (t.toNat / 65536)))
        (.ofNat (256 * (first (t.toNat / 65536) + count (n / 256) (t.toNat / 65536) - 1))) := by
  unfold updateSkipList.every256th
  simp only [and_255_eq_zero, hs]
  split
  case isFalse hmod =>
    refine ⟨l, rfl, .refl, rfl, fun t => ?_⟩
    have hm : n / 256 = (n - 1) / 256 := by omega
    exact hm ▸ h.page t
  case isTrue hmod =>
    obtain ⟨m, hm⟩ : ∃ m, (n - 1) / 256 = m := ⟨_, rfl⟩
    have hm' : n / 256 = m + 1 := by omega
    have hpage : n / 65536 = (m + 1) / 256 := by omega
    have ⟨hc, hf⟩ := count_succ hpage
    have ⟨l', hl', hlike, hst, hother⟩ := (h.page s).push (hd.page_ne_zero s) rfl
      (· ++ [l.info.parentHash]) (by simp) s
    refine ⟨l', hl', hlike, hother _ (hd.page_ne_skip s).symm, fun t => ?_⟩
    rw [hm']
    by_cases ht : t.toNat / 65536 = n / 65536
    case pos =>
      have hH : l.info.parentHash = (fun i => H (256 * i)) (first (n / 65536) + count m (n / 65536)) := by
        rw [hp, hf]
        exact congrArg H (by omega)
      have hlast : s = .ofNat (256 * (first (n / 65536) + count (m + 1) (n / 65536) - 1)) := by
        rw [hc, ← Nat.add_assoc, hf, Nat.add_sub_cancel, show 256 * (m + 1) = n by omega, ← hs,
          UInt32.ofNat_toNat]
      rw [hs, hm, hH, window.concat, ← hc] at hst
      rw [skipPage_congr (ht.trans (congrArg (· / 65536) hs.symm)), ht, ← hlast]
      exact hst
    case neg =>
      have hold := h.page t
      rw [hm] at hold
      rw [count_succ_of_ne (hpage ▸ ht)]
      refine hold.congr (hother _ fun hk => ht ?_)
      have heq := congrArg toNat (hd.page_inj _ _ hk)
      rwa [toNat_shiftRight_16, toNat_shiftRight_16, hs] at heq

theorem Holds.past256 (hd : Distinct) (hn : 0 < n) (hs : s.toNat = n)
    (hp : l.info.parentHash = H n)
    (h : Stored l.contents.state .skip (window H (n - min 256 (n - 1)) (min 256 (n - 1))) last) :
    ∃ l', updateSkipList.past256 l s = .ok l' ∧ l.Like l' ∧
      Stored l'.contents.state .skip (window H (n + 1 - min 256 n) (min 256 n)) (.ofNat n) ∧
      ∀ k, k ≠ Keylet.skip.key → l'.contents.state k = l.contents.state k := by
  have ⟨l', hl', hlike, hst, hother⟩ := h.push hd.skip_ne_zero rfl
    (fun hashes => (if hashes.length = 256 then hashes.drop 1 else hashes) ++ [l.info.parentHash])
    (by simp) s
  refine ⟨l', hl', hlike, ?_, hother⟩
  have hs' : s = .ofNat n := by rw [← hs, UInt32.ofNat_toNat]
  rw [hp, window.length, hs'] at hst
  by_cases hw : 256 ≤ n - 1
  case pos =>
    -- The first hash is dropped.
    have hc : min 256 (n - 1) = 255 + 1 := by omega
    have hc' : min 256 n = 255 + 1 := by omega
    have hH : H n = H (n - 256 + 1 + 255) := congrArg H (by omega)
    rw [hc, if_pos rfl, window.drop_one, hH, window.concat] at hst
    rw [hc', show n + 1 - (255 + 1) = n - 256 + 1 by omega]
    exact hst
  case neg =>
    have hc : min 256 (n - 1) = n - 1 := by omega
    have hc' : min 256 n = n - 1 + 1 := by omega
    have hH : H n = H (n - (n - 1) + (n - 1)) := congrArg H (by omega)
    rw [hc, if_neg (by omega), hH, window.concat] at hst
    rw [hc', show n + 1 - (n - 1 + 1) = n - (n - 1) by omega]
    exact hst

theorem Holds.updateSkipList (hd : Distinct) (h : Holds H n l.contents.state) (hn : 0 < n)
    (hs : l.info.seq.toNat = n + 1) (hp : l.info.parentHash = H n) :
    ∃ l', l.updateSkipList = .ok l' ∧ l.Like l' ∧ Holds H (n + 1) l'.contents.state := by
  have h0 : l.info.seq ≠ 0 := fun h0 => by rw [h0] at hs; simp at hs
  have hs' : (l.info.seq - 1).toNat = n := by
    rw [UInt32.toNat_sub_of_le _ _ (by rw [le_iff_toNat_le, hs]; simp), hs]
    rfl
  have ⟨l₁, hl₁, hlike₁, hskip, hpages⟩ := h.every256th hd hn hs' hp
  have hp₁ := (congrArg parentHash hlike₁.info).trans hp
  have ⟨l₂, hl₂, hlike₂, hst, hother⟩ := Holds.past256 hd hn hs' hp₁ (h.skip.congr hskip)
  refine ⟨l₂, ?_, hlike₁.trans hlike₂, hst, fun t => ?_⟩
  · unfold Ledger.updateSkipList
    rw [if_neg h0]
    dsimp only
    rw [hl₁]
    exact hl₂
  · exact (hpages t).congr (hother _ (hd.page_ne_skip t))

-- What is found for a sequence below that of the parent.

section

variable (h : Holds H n l.contents.state)

include h

theorem Holds.near (hd : d ≠ 0) (hn : 1 < n) :
    ((l.view.read .skip).bind fun s =>
      let vec := s.getFieldV256 sfHashes
      if vec.length ≥ d then vec[vec.length - d]? else none) =
    if d ≤ min 256 (n - 1) then some (H (n - d)) else none := by
  have ⟨e, he, hv, _⟩ := h.skip.read rfl (window.ne_nil (by omega))
  rw [he, Option.bind_some]
  dsimp only
  rw [hv, window.length]
  split
  case isTrue hle =>
    rw [window.getElem?_sub hd hle]
    exact congrArg (some ∘ H) (by omega)
  case isFalse => rfl

section

variable (hn : l.info.seq.toNat = n) (hs : s.toNat + 1 < n)

include hn hs

theorem Holds.within256 :
    (if (l.info.seq - s).toInt32 ≤ 256 then
      (l.view.read .skip).bind fun e =>
        let vec := e.getFieldV256 sfHashes
        let diff := (l.info.seq - s).toInt32.toInt64.toUInt64.toNat
        if vec.length ≥ diff then vec[vec.length - diff]? else none
    else none) = if 0 < s.toNat ∧ n ≤ s.toNat + 256 then some (H s.toNat) else none := by
  have hdiff : (l.info.seq - s).toNat = n - s.toNat := by
    rw [UInt32.toNat_sub_of_le _ _ (by rw [le_iff_toNat_le]; omega), hn]
  by_cases hlt : n - s.toNat < 2 ^ 31
  case pos =>
    have ⟨hle, hto⟩ := toNat_of_lt (hdiff ▸ hlt)
    rw [hto, hdiff] at *
    simp only [hle, h.near (d := n - s.toNat) (by omega) (by omega)]
    split_ifs with h₁ h₂ h₃ h₃ h₃
    · exact congrArg (some ∘ H) (by omega)
    · omega
    · omega
    · rfl
    · omega
    · rfl
  case neg =>
    have hge := le_toNat_of_le (x := l.info.seq - s) (by omega)
    have hnear := h.near (d := (l.info.seq - s).toInt32.toInt64.toUInt64.toNat) (by omega) (by omega)
    rw [if_neg (by omega)] at hnear
    rw [hnear, ite_self, if_neg (by omega)]

theorem Holds.beyond256 (h256 : s.toNat % 256 = 0) :
    ((l.view.read (.skipPage s)).bind fun e =>
      let lastSeq := e.getFieldU32 sfLastLedgerSequence
      let diff := ((lastSeq - s) >>> 8).toNat
      let vec := e.getFieldV256 sfHashes
      if vec.length > diff then vec[vec.length - diff - 1]? else none) =
    if 0 < s.toNat then some (H s.toNat) else none := by
  have hlen := l.info.seq.toNat_lt
  have hpage := h.page s
  obtain ⟨i, hi⟩ : ∃ i, s.toNat = 256 * i := ⟨s.toNat / 256, by omega⟩
  obtain ⟨p, hp⟩ : ∃ p, s.toNat / 65536 = p := ⟨_, rfl⟩
  obtain ⟨m, hm⟩ : ∃ m, (n - 1) / 256 = m := ⟨_, rfl⟩
  rw [hp, hm] at hpage
  by_cases hc : count m p = 0
  case pos =>
    -- The page is empty, which it is before the 256th ledger only.
    have hs0 : s.toNat = 0 := by simp only [count, first] at hc; omega
    rw [hc, window.zero, Stored.nil] at hpage
    rw [l.denotes.read, hpage, if_neg (by omega)]
    rfl
  case neg =>
    have ⟨e, he, hv, hlast⟩ := hpage.read rfl (window.ne_nil hc)
    have hbound : (i ≤ first p + count m p - 1) ∧ (first p + count m p - 1 ≤ m) ∧
        (first p ≤ i ↔ i ≠ 0) := by
      simp only [count, first] at hc ⊢
      omega
    rw [he, Option.bind_some]
    dsimp only
    rw [hlast, hv, toNat_diff hi hbound.left (by omega), window.length]
    by_cases hs0 : i = 0
    case pos => rw [if_neg (by omega), if_neg (by omega)]
    rw [if_pos (by omega), if_pos (by omega), Nat.sub_sub,
      window.getElem?_sub (by omega) (by omega), hi]
    exact congrArg (fun j => some (H (256 * j))) (by omega)

theorem Holds.hashOfSeq_below :
    hashOfSeq l.view s =
      if 0 < s.toNat ∧ (n ≤ s.toNat + 256 ∨ s.toNat % 256 = 0) then some (H s.toNat) else none := by
  have hgt : ¬(s > l.info.seq) := by rw [gt_iff_lt, lt_iff_toNat_lt]; omega
  have hne : s ≠ l.info.seq := fun h => by rw [h] at hs; omega
  have hne' : s ≠ l.info.seq - 1 := fun h => by
    have hle : (1 : UInt32) ≤ l.info.seq := by rw [le_iff_toNat_le]; simp; omega
    rw [h, UInt32.toNat_sub_of_le _ _ hle, hn] at hs
    simp at hs
    omega
  have hinfo : l.view.info = l.info := rfl
  have hwithin := h.within256 hn hs
  unfold hashOfSeq
  simp only [hinfo, hgt, hne, hne', if_false, hwithin, and_255_eq_zero, ne_eq]
  by_cases hnear : 0 < s.toNat ∧ n ≤ s.toNat + 256
  case pos =>
    rw [if_pos hnear]
    exact (if_pos ⟨hnear.left, .inl hnear.right⟩).symm
  rw [if_neg hnear]
  by_cases h256 : s.toNat % 256 = 0
  case pos =>
    have hbeyond := h.beyond256 hn hs h256
    rw [if_neg (not_not.mpr h256), hbeyond]
    simp only [h256, or_true, and_true]
  case neg =>
    rw [if_pos h256, if_neg]
    exact fun hc => hc.right.elim (fun hle => hnear ⟨hc.left, hle⟩) h256

end

end

end SkipList

namespace Chain

open SkipList

variable {l l' : Ledger} {ls : List Ledger}

-- The hash of the ledger with a sequence.
def hashAt (ls : List Ledger) (n : Nat) : UInt256 :=
  ((ls.find? (·.info.seq.toNat = n)).map (·.info.hash)).getD 0

theorem hashAt_self : hashAt (l :: ls) l.info.seq.toNat = l.info.hash := by
  simp [hashAt]

theorem hashAt_of_ne (h : l.info.seq.toNat ≠ n) : hashAt (l :: ls) n = hashAt ls n := by
  simp [hashAt, h]

variable [Digest]

structure Inv (l : Ledger) (ls : List Ledger) : Prop where
  pos : 0 < l.info.seq.toNat
  parentHash : 1 < l.info.seq.toNat → l.info.parentHash = hashAt (l :: ls) (l.info.seq.toNat - 1)
  hashes : ∀ n, 0 < n → n ≤ l.info.seq.toNat →
    ∃ l' ∈ l :: ls, (l'.info.seq.toNat = n) ∧ (l'.info.hash = hashAt (l :: ls) n)
  holds : Holds (hashAt (l :: ls)) l.info.seq.toNat l.contents.state

theorem inv_genesis (h1 : l.info.seq = 1) (hn : ∀ k, IsSkipKey k → l.contents.state k = none) :
    Inv l [] := by
  have hseq : l.info.seq.toNat = 1 := by rw [h1]; rfl
  refine ⟨by omega, by omega, fun n h0 hn => ?_, ?_⟩
  · have hn : l.info.seq.toNat = n := by omega
    exact ⟨l, mem_singleton_self _, hn, hn ▸ hashAt_self.symm⟩
  · rw [hseq]
    exact holds_one hn

theorem Inv.next (hd : Distinct) (h : Inv l ls) (hlt : l.info.seq.toNat + 1 < 2 ^ 32)
    (hf : Follows l l') : Inv l' (l :: ls) := by
  have ⟨closeTime, l₁, l₂, hed, hl₂, hacc⟩ := hf
  have hpos := h.pos
  have hseq₁ : l₁.info.seq.toNat = l.info.seq.toNat + 1 := by
    rw [hed.seq]
    exact (toNat_add ..).trans (Nat.mod_eq_of_lt hlt)
  have hp₁ : l₁.info.parentHash = hashAt (l :: ls) l.info.seq.toNat :=
    hed.parentHash.trans hashAt_self.symm
  have ⟨_, hl, hlike, hholds⟩ := (h.holds.congr hed.state).updateSkipList hd hpos hseq₁ hp₁
  cases hl₂.symm.trans hl
  have hseq : l'.info.seq.toNat = l.info.seq.toNat + 1 := by
    rw [hacc.seq, congrArg seq hlike.info, hseq₁]
  have hsame (n : Nat) (hn : n ≤ l.info.seq.toNat) :
      hashAt (l' :: l :: ls) n = hashAt (l :: ls) n := hashAt_of_ne (by omega)
  refine ⟨by omega, fun _ => ?_, fun n h0 hn => ?_, ?_⟩
  · rw [hacc.parentHash, congrArg LedgerInfo.parentHash hlike.info, hp₁, hseq, Nat.add_sub_cancel,
      hsame _ (Nat.le_refl _)]
  · by_cases heq : l'.info.seq.toNat = n
    case pos => exact ⟨l', mem_cons_self .., heq, heq ▸ hashAt_self.symm⟩
    have hn : n ≤ l.info.seq.toNat := by omega
    have ⟨x, hx, hxn⟩ := h.hashes n h0 hn
    exact ⟨x, mem_cons_of_mem _ hx, hsame n hn ▸ hxn⟩
  · rw [hseq, hacc.state]
    exact hholds.congr_hashes fun i hi => (hsame i (by omega)).symm

theorem inv (hd : Distinct) (h : Chain (l :: ls)) : Inv l ls := by
  generalize hls : l :: ls = chain at h
  induction h generalizing l ls
  case genesis l h1 hn =>
    cases hls
    exact inv_genesis h1 hn
  case next hlt hf hi =>
    cases hls
    exact (hi rfl).next hd hlt hf

theorem of_mem (h : Chain ls) (hl : l ∈ ls) : ∃ ls₁ ls₂, (ls = ls₁ ++ l :: ls₂) ∧ Chain (l :: ls₂) := by
  induction h
  case genesis h1 hn =>
    obtain rfl := mem_singleton.mp hl
    exact ⟨[], [], rfl, .genesis h1 hn⟩
  case next l₁ l₂ ls hc hlt hf hi =>
    obtain rfl | hl := mem_cons.mp hl
    case inl => exact ⟨[], _, rfl, .next hc hlt hf⟩
    case inr =>
      have ⟨ls₁, ls₂, hls, hc'⟩ := hi hl
      exact ⟨l₂ :: ls₁, ls₂, congrArg (l₂ :: ·) hls, hc'⟩

theorem Inv.hashOfSeq_eq (h : Inv l ls) (hs : ¬(s = 0 ∧ l.info.seq = 1)) :
    hashOfSeq l.view s =
      if 0 < s.toNat ∧ s.toNat ≤ l.info.seq.toNat ∧
          (l.info.seq.toNat ≤ s.toNat + 256 ∨ s.toNat % 256 = 0) then
        some (hashAt (l :: ls) s.toNat)
      else
        none := by
  have hpos := h.pos
  have h0 : s = 0 ↔ s.toNat = 0 := by rw [← UInt32.toNat_inj]; rfl
  have h1 : l.info.seq = 1 ↔ l.info.seq.toNat = 1 := by rw [← UInt32.toNat_inj]; rfl
  have hinfo : l.view.info = l.info := rfl
  rw [h0, h1] at hs
  obtain hgt | heq | hpar | hlt : (l.info.seq.toNat < s.toNat) ∨ (s.toNat = l.info.seq.toNat) ∨
    (s.toNat + 1 = l.info.seq.toNat) ∨ (s.toNat + 1 < l.info.seq.toNat) := by omega
  case inl => rw [hashOfSeq, hinfo, if_pos (lt_iff_toNat_lt.mpr hgt), if_neg (by omega)]
  case inr.inl =>
    have hs' := UInt32.toNat_inj.mp heq
    rw [if_pos (by omega), hs', hashAt_self, hashOfSeq, hinfo, if_neg (UInt32.lt_irrefl _), if_pos rfl]
  case inr.inr.inl =>
    have hs' : s = l.info.seq - 1 := by
      have hle : (1 : UInt32) ≤ l.info.seq := le_iff_toNat_le.mpr hpos
      rw [← UInt32.toNat_inj, UInt32.toNat_sub_of_le _ _ hle]
      exact Nat.eq_sub_of_add_eq hpar
    have hpar' := h.parentHash (by omega)
    rw [← hpar, Nat.add_sub_cancel] at hpar'
    rw [if_pos (by omega), ← hpar', hashOfSeq, hinfo,
      if_neg (by rw [gt_iff_lt, lt_iff_toNat_lt]; omega),
      if_neg (fun h => by rw [← UInt32.toNat_inj] at h; omega), if_pos hs']
  case inr.inr.inr =>
    rw [h.holds.hashOfSeq_below rfl hlt]
    simp only [show s.toNat ≤ l.info.seq.toNat by omega, true_and]

-- Every hash that is found is that of the ledger with the sequence. Those of the last 256 ledgers
-- and of every 256th ledger are found.
theorem hashOfSeq_correct (hd : Distinct) (h : Chain ls) (hl : l ∈ ls) (s : UInt32)
    (hs : ¬(s = 0 ∧ l.info.seq = 1)) :
    (hashOfSeq l.view s = none ∨
      ∃ l' ∈ ls, (l'.info.seq = s) ∧ (hashOfSeq l.view s = some l'.info.hash)) ∧
    ((1 ≤ s.toNat ∧ l.info.seq.toNat ≤ s.toNat + 256 ∧ s.toNat ≤ l.info.seq.toNat) →
      hashOfSeq l.view s ≠ none) ∧
    ((s.toNat % 256 = 0 ∧ 256 ≤ s.toNat ∧ s.toNat ≤ l.info.seq.toNat) →
      hashOfSeq l.view s ≠ none) := by
  have ⟨ls₁, ls₂, hls, hc⟩ := h.of_mem hl
  have hi := inv hd hc
  rw [hi.hashOfSeq_eq hs]
  refine ⟨?_, fun hn => ?_, fun hn => ?_⟩
  · split
    case isTrue hfound =>
      have ⟨l', hl', hseq, hhash⟩ := hi.hashes s.toNat hfound.left hfound.right.left
      refine .inr ⟨l', ?_, UInt32.toNat_inj.mp hseq, by rw [hhash]⟩
      rw [hls]
      exact mem_append_right _ hl'
    case isFalse => exact .inl rfl
  · rw [if_pos (by omega)]
    exact Option.some_ne_none _
  · rw [if_pos (by omega)]
    exact Option.some_ne_none _

end Chain

namespace Chain

section Genesis

attribute [local instance] shortDigest

theorem distinct_shortDigest : SkipList.Distinct where
  skip_ne_zero := shortDigest.sha512Half_ne_zero (by decide)
  page_ne_zero s := shortDigest.sha512Half_ne_zero (by simp [add16, add32])
  page_ne_skip s h := by
    have h := shortDigest.eq_of_sha512Half (by simp [add16, add32]) (by decide) h
    exact absurd (congrArg length h) (by simp [add16, add32])
  page_inj s s' h := by
    have h := shortDigest.eq_of_sha512Half (by simp [add16, add32])
      (by simp [add16, add32]) h
    have h := congrArg Bytes.toNat (append_cancel_left h)
    rwa [add32, add32, Bytes.toNat_ofNat_of_lt (toNat_lt _),
      Bytes.toNat_ofNat_of_lt (toNat_lt _), UInt32.toNat_inj] at h

def firstLedger : Ledger :=
  .blank { seq := 1, drops := 0, hash := 7 } fun _ => true

theorem chain_firstLedger : Chain [firstLedger] :=
  .genesis rfl fun _ _ => rfl

-- The genesis ledger answers with its parent hash, although there is no ledger before it.
theorem hashOfSeq_genesis : Chain [firstLedger] ∧ (hashOfSeq firstLedger.view 0 = some 0) ∧
    ∀ l ∈ [firstLedger], l.info.seq ≠ 0 :=
  ⟨chain_firstLedger, rfl, by decide⟩

-- The ledger after the genesis ledger knows its hash.
theorem hashOfSeq_second : ∃ l, Chain [l, firstLedger] ∧ (hashOfSeq l.view 1 ≠ none) := by
  have ⟨l, hl, hlike, _⟩ := (SkipList.holds_one (H := fun _ => 7)
    (M := (firstLedger.next 0).contents.state) fun _ _ => rfl).updateSkipList distinct_shortDigest
    (by decide) (l := firstLedger.next 0) rfl rfl
  have hc : Chain [l, firstLedger] := .next chain_firstLedger (by decide)
    ⟨0, firstLedger.next 0, l, ⟨rfl, rfl, fun _ _ => rfl⟩, hl, ⟨rfl, rfl, rfl⟩⟩
  have hseq := congrArg seq hlike.info
  have ⟨_, hnear, _⟩ := hashOfSeq_correct distinct_shortDigest hc (mem_cons_self ..) 1
    (by rw [hseq]; decide)
  exact ⟨l, hc, hnear (by rw [hseq]; decide)⟩

end Genesis

end Chain
