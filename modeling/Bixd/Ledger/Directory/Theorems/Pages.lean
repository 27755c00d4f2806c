import Bixd.Ledger.Directory.Pages
import Bixd.Ledger.Theorems.Edit

open Function Pages OrderedMap SLE Ring

namespace Directory

variable {dir : UInt256} {ps ps' : Pages} {n m : Nat} {ks : List UInt256} {s : SLE}

-- The entry is the page `n` with the keys `ks`, linked to the pages before and after it.
structure IsPage (ps : Pages) (n : Nat) (ks : List UInt256) (s : SLE) : Prop where
  type    : s.type = .ltDIR_NODE
  indexes : s.getFieldV256 sfIndexes = ks
  next    : Ring.Next 0 ps.Has n (s.getFieldU64 sfIndexNext).toNat
  prev    : Ring.Prev 0 ps.Has n (s.getFieldU64 sfIndexPrevious).toNat

theorem IsPage.congr (h : IsPage ps n ks s) (hps : ∀ m, ps.Has m ↔ ps'.Has m) :
    IsPage ps' n ks s :=
  ⟨h.type, h.indexes, h.next.congr hps, h.prev.congr hps⟩

theorem toNat_ofNat (hn : n < dirNodeMaxPages.toNat) : (UInt64.ofNat n).toNat = n := by
  have hmax : dirNodeMaxPages.toNat = 262144 := rfl
  exact UInt64.toNat_ofNat_of_lt' (by simp only [UInt64.size]; omega)

theorem toNat_eq_zero {page : UInt64} : page.toNat = 0 ↔ page = 0 :=
  UInt64.toNat_inj (b := 0)

theorem isSome_update {k : UInt256} (h : (M k).isSome) :
    (update M j (some s) k).isSome := by
  rw [update_apply]
  split
  case isTrue => rfl
  case isFalse => exact h

variable [Digest]

def pageKey (dir : UInt256) (n : Nat) : UInt256 :=
  (Keylet.page dir (.ofNat n)).key

-- The pages of a directory have keys of their own.
structure Distinct (dir : UInt256) : Prop where
  ne_zero : ∀ n < dirNodeMaxPages.toNat, pageKey dir n ≠ 0
  inj     : ∀ n m, n < dirNodeMaxPages.toNat → m < dirNodeMaxPages.toNat →
    pageKey dir n = pageKey dir m → n = m

-- The entries `M` have the pages of the directory, and no others.
structure Holds (dir : UInt256) (M : UInt256 → Option SLE) (ps : Pages) : Prop where
  page : ∀ n ks, ps.find? n = some ks → ∃ s, M (pageKey dir n) = some s ∧ IsPage ps n ks s
  none : ∀ n < dirNodeMaxPages.toNat, ps.find? n = none → M (pageKey dir n) = none

theorem Holds.congr (h : Holds dir M ps) (hw : ps.WellFormed)
    (hm : ∀ n < dirNodeMaxPages.toNat, M' (pageKey dir n) = M (pageKey dir n)) :
    Holds dir M' ps where
  page n ks hn := hm n (hw.page n ks hn).left ▸ h.page n ks hn
  none n hn hf := (hm n hn).trans (h.none n hn hf)

-- What is not a page of the directory is the same.
def Elsewhere (dir : UInt256) (M M' : UInt256 → Option SLE) : Prop :=
  ∀ k, (∀ n < dirNodeMaxPages.toNat, k ≠ pageKey dir n) → M' k = M k

variable {M : UInt256 → Option SLE}

theorem Elsewhere.refl : Elsewhere dir M M :=
  fun _ _ => rfl

theorem Elsewhere.trans (h : Elsewhere dir M M') (h' : Elsewhere dir M' M'') :
    Elsewhere dir M M'' :=
  fun k hk => (h' k hk).trans (h k hk)

theorem elsewhere_update (hn : n < dirNodeMaxPages.toNat) :
    Elsewhere dir M (update M (pageKey dir n) x) :=
  fun _ hk => update_of_ne (hk n hn) ..

theorem update_page (hd : Distinct dir) (hn : n < dirNodeMaxPages.toNat)
    (hm : m < dirNodeMaxPages.toNat) :
    update M (pageKey dir n) x (pageKey dir m) = if m = n then x else M (pageKey dir m) := by
  split
  case isTrue h =>
    subst h
    exact update_self ..
  case isFalse h => exact update_of_ne (fun he => h (hd.inj m n hm hn he)) ..

theorem page_key (n : UInt64) : (Keylet.page dir n).key = pageKey dir n.toNat := by
  rw [pageKey, UInt64.ofNat_toNat]

theorem IsPage.check (h : IsPage ps n ks s) (k : UInt64) : (Keylet.page dir k).check s := by
  rw [Keylet.check, Keylet.type_page]
  exact decide_eq_true h.type

theorem Holds.setKeys (hd : Distinct dir) (hw : ps.WellFormed) (h : Holds dir M ps)
    (hf : ps.find? n = some ks) (hs : M (pageKey dir n) = some s) (ks' : List UInt256) :
    Holds dir (update M (pageKey dir n) (some (s.set sfIndexes (.vector256 ks'))))
      (ps.insert n ks') := by
  have hn := (hw.page n ks hf).left
  have hhas (m : Nat) : ps.Has m ↔ Pages.Has (ps.insert n ks') m :=
    (has_insert_of_has (has_of_find? hf)).symm
  refine ⟨fun m ks₁ hm => ?_, fun m hlt hm => ?_⟩
  · rw [find?_insert] at hm
    split at hm
    case isTrue heq =>
      subst heq
      cases hm
      have ⟨s₀, hs₀, hp⟩ := h.page _ _ hf
      cases hs.symm.trans hs₀
      refine ⟨_, update_self .., hp.type, getFieldV256_set_self, ?_, ?_⟩
      · rw [getFieldU64_set_of_ne (by decide)]
        exact hp.next.congr hhas
      · rw [getFieldU64_set_of_ne (by decide)]
        exact hp.prev.congr hhas
    case isFalse hne =>
      have ⟨s₁, hs₁, hp⟩ := h.page m ks₁ hm
      have hlt := (hw.page m ks₁ hm).left
      exact ⟨s₁, by rw [update_page hd hn hlt, if_neg hne, hs₁], hp.congr hhas⟩
  · rw [find?_insert] at hm
    split at hm
    case isTrue => cases hm
    case isFalse hne =>
      rw [update_page hd hn hlt, if_neg hne]
      exact h.none m hlt hm

-- A page is added after the last one. The root is linked to it, which may be the last page itself.
theorem Holds.addPage (hd : Distinct dir) (hw : ps.WellFormed) (h : Holds dir M ps) {new : SLE}
    (hf : ps.find? last = some ks) (hle : ∀ m, ps.Has m → m ≤ last)
    (hmax : last + 1 < dirNodeMaxPages.toNat) (hroot : M (pageKey dir 0) = some root)
    (hnode : M (pageKey dir last) = some node) (htype : new.type = .ltDIR_NODE)
    (hnext : new.getFieldU64 sfIndexNext = 0)
    (hprev : (new.getFieldU64 sfIndexPrevious).toNat = last) :
    let node' := node.set sfIndexNext (.uint64 (.ofNat (last + 1)))
    let root' := (if last = 0 then node' else root).set sfIndexPrevious (.uint64 (.ofNat (last + 1)))
    Holds dir (update (update (update M (pageKey dir last) (some node'))
      (pageKey dir 0) (some root')) (pageKey dir (last + 1)) (some new))
      (ps.insert (last + 1) (new.getFieldV256 sfIndexes)) := by
  intro node' root'
  have hhas := has_of_find? hf
  have ⟨ks₀, hf₀⟩ := Option.isSome_iff_exists.mp (hw.root last hhas)
  have ⟨_, hs₀, hp₀⟩ := h.page 0 ks₀ hf₀
  cases hroot.symm.trans hs₀
  have ⟨_, hs₁, hp₁⟩ := h.page last ks hf
  cases hnode.symm.trans hs₁
  have hlast := (hw.page last ks hf).left
  have h0 : 0 < dirNodeMaxPages.toNat := by decide
  have hto := toNat_ofNat hmax
  have hlt := Nat.lt_succ_self last
  have hq (m : Nat) : Pages.Has (ps.insert (last + 1) (new.getFieldV256 sfIndexes)) m ↔
      ps.Has m ∨ m = last + 1 := has_insert
  refine ⟨fun m ks' hm => ?_, fun m hm hn => ?_⟩
  · rw [find?_insert] at hm
    by_cases hnew : m = last + 1
    case pos =>
      subst hnew
      rw [if_pos rfl] at hm
      cases hm
      refine ⟨new, update_self .., htype, rfl, ?_, ?_⟩
      · rw [hnext]
        exact next_added hle hlt hq
      · rw [hprev]
        exact prev_added hle hlt hq hhas (Nat.zero_le _)
    case neg =>
      rw [if_neg hnew] at hm
      have hm' := (hw.page m ks' hm).left
      have hmhas := has_of_find? hm
      rw [update_page hd hmax hm', if_neg hnew, update_page hd h0 hm']
      by_cases hmr : m = 0
      case pos =>
        subst hmr
        cases hf₀.symm.trans hm
        refine ⟨root', if_pos rfl, ?_⟩
        have hanchor : Ring.Prev 0 (Pages.Has (ps.insert (last + 1) (new.getFieldV256 sfIndexes))) 0
            (root'.getFieldU64 sfIndexPrevious).toNat := by
          rw [getFieldU64_set_self, hto]
          exact prev_anchor hle hlt hq
        by_cases hl0 : last = 0
        case pos =>
          subst hl0
          cases hroot.symm.trans hnode
          have hr : root' = node'.set sfIndexPrevious (.uint64 (.ofNat (0 + 1))) := rfl
          refine ⟨hp₀.type, ?_, ?_, hanchor⟩
          · rw [hr, getFieldV256_set_of_ne (by decide), getFieldV256_set_of_ne (by decide),
              hp₀.indexes]
          · rw [hr, getFieldU64_set_of_ne (by decide), getFieldU64_set_self, hto]
            exact next_last hle hlt hq
        case neg =>
          have hr : root' = root.set sfIndexPrevious (.uint64 (.ofNat (last + 1))) := by
            unfold root'
            rw [if_neg hl0]
          refine ⟨hr ▸ hp₀.type, ?_, ?_, hanchor⟩
          · rw [hr, getFieldV256_set_of_ne (by decide), hp₀.indexes]
          · rw [hr, getFieldU64_set_of_ne (by decide)]
            exact hp₀.next.add hle hlt hq hhas (Ne.symm hl0) hmhas
      case neg =>
        rw [if_neg hmr, update_page hd hlast hm']
        by_cases hml : m = last
        case pos =>
          subst hml
          cases hf.symm.trans hm
          refine ⟨node', if_pos rfl, hp₁.type, ?_, ?_, ?_⟩
          · rw [getFieldV256_set_of_ne (by decide), hp₁.indexes]
          · rw [getFieldU64_set_self, hto]
            exact next_last hle hlt hq
          · rw [getFieldU64_set_of_ne (by decide)]
            exact hp₁.prev.add hle hlt hq hmr hmhas
        case neg =>
          have ⟨s, hs, hp⟩ := h.page m ks' hm
          rw [if_neg hml]
          exact ⟨s, hs, hp.type, hp.indexes, hp.next.add hle hlt hq hhas hml hmhas,
            hp.prev.add hle hlt hq hmr hmhas⟩
  · rw [find?_insert] at hn
    split at hn
    case isTrue => cases hn
    case isFalse hne =>
      have hm0 : m ≠ 0 := fun h => by rw [h, hf₀] at hn; cases hn
      have hml : m ≠ last := fun h => by rw [h, hf] at hn; cases hn
      rw [update_page hd hmax hm, if_neg hne, update_page hd h0 hm, if_neg hm0,
        update_page hd hlast hm, if_neg hml]
      exact h.none m hm hn

-- A page other than the root is unlinked and removed. The pages before and after it may be the same.
theorem Holds.removePage (hd : Distinct dir) (h : Holds dir M ps)
    (hbound : ∀ m, ps.Has m → m < dirNodeMaxPages.toNat) (hroot : ps.Has 0) (h0 : n ≠ 0)
    (hf : ps.find? n = some ks) (hnode : M (pageKey dir n) = some node)
    (hp : (node.getFieldU64 sfIndexPrevious).toNat = p)
    (hq : (node.getFieldU64 sfIndexNext).toNat = q)
    (hprev : M (pageKey dir p) = some prev) (hnext : M (pageKey dir q) = some next) :
    let prev' := prev.set sfIndexNext (.uint64 (node.getFieldU64 sfIndexNext))
    let next' := (if p = q then prev' else next).set sfIndexPrevious
      (.uint64 (node.getFieldU64 sfIndexPrevious))
    Holds dir (update (update (update M (pageKey dir p) (some prev'))
      (pageKey dir q) (some next')) (pageKey dir n) Option.none) (ps.erase n) := by
  intro prev' next'
  have hhas := has_of_find? hf
  have hn := hbound n hhas
  have ⟨_, hs, hpage⟩ := h.page n ks hf
  cases hnode.symm.trans hs
  have hpv : Ring.Prev 0 ps.Has n p := hp ▸ hpage.prev
  have hnx : Ring.Next 0 ps.Has n q := hq ▸ hpage.next
  have hmem (m : Nat) : Pages.Has (ps.erase n) m ↔ ps.Has m ∧ m ≠ n := has_erase
  have hphas : ps.Has p := hpv.left
  have hqhas : ps.Has q := hnx.mem hroot
  have hplt := hbound p hphas
  have hqlt := hbound q hqhas
  have hnext' := next_removed h0 hpv hnx hmem
  have hprev' := prev_removed (fun _ _ => Nat.zero_le _) hhas h0 hpv hnx hmem
  refine ⟨fun m ks' hm => ?_, fun m hlt hm => ?_⟩
  · rw [find?_erase] at hm
    have ⟨hmn, hm⟩ := Option.ite_none_left_eq_some.mp hm
    have hmhas := has_of_find? hm
    have hmlt := hbound m hmhas
    have ⟨s, hs, hps⟩ := h.page m ks' hm
    rw [update_page hd hn hmlt, if_neg hmn, update_page hd hqlt hmlt]
    by_cases hmq : m = q
    case pos =>
      rw [if_pos hmq]
      refine ⟨next', rfl, ?_⟩
      subst hmq
      cases hnext.symm.trans hs
      have hpl : Ring.Prev 0 (Pages.Has (ps.erase n)) m
          (next'.getFieldU64 sfIndexPrevious).toNat := by
        rw [getFieldU64_set_self, hp]
        exact hprev'
      by_cases hpq : p = m
      case pos =>
        subst hpq
        cases hprev.symm.trans hs
        have hr : next' = prev'.set sfIndexPrevious (.uint64 (node.getFieldU64 sfIndexPrevious)) := by
          unfold next'
          rw [if_pos rfl]
        refine ⟨hr ▸ hps.type, ?_, ?_, hpl⟩
        · rw [hr, getFieldV256_set_of_ne (by decide), getFieldV256_set_of_ne (by decide),
            hps.indexes]
        · rw [hr, getFieldU64_set_of_ne (by decide), getFieldU64_set_self, hq]
          exact hnext'
      case neg =>
        have hr : next' = next.set sfIndexPrevious (.uint64 (node.getFieldU64 sfIndexPrevious)) := by
          unfold next'
          rw [if_neg hpq]
        refine ⟨hr ▸ hps.type, ?_, ?_, hpl⟩
        · rw [hr, getFieldV256_set_of_ne (by decide), hps.indexes]
        · rw [hr, getFieldU64_set_of_ne (by decide)]
          refine hps.next.remove hmem fun heq => hpq ?_
          exact (Ring.Next.eq_prev h0 hpv hmhas (heq ▸ hps.next)).symm
    case neg =>
      rw [if_neg hmq, update_page hd hplt hmlt]
      have hpl (hps : IsPage ps m ks' s) : Ring.Prev 0 (Pages.Has (ps.erase n)) m
          (s.getFieldU64 sfIndexPrevious).toNat :=
        hps.prev.remove hmem fun heq => hmq (Ring.Prev.eq_next hnx hmhas (heq ▸ hps.prev))
      by_cases hmp : m = p
      case pos =>
        rw [if_pos hmp]
        subst hmp
        cases hprev.symm.trans hs
        refine ⟨prev', rfl, hps.type, ?_, ?_, ?_⟩
        · rw [getFieldV256_set_of_ne (by decide), hps.indexes]
        · rw [getFieldU64_set_self, hq]
          exact hnext'
        · rw [getFieldU64_set_of_ne (by decide)]
          exact hpl hps
      case neg =>
        rw [if_neg hmp]
        refine ⟨s, hs, hps.type, hps.indexes, ?_, hpl hps⟩
        exact hps.next.remove hmem fun heq => hmp (Ring.Next.eq_prev h0 hpv hmhas (heq ▸ hps.next))
  · rw [update_page hd hn hlt]
    split
    case isTrue => rfl
    case isFalse hmn =>
      rw [find?_erase, if_neg hmn] at hm
      have hmp : m ≠ p := fun h => by rw [Pages.Has, ← h, hm] at hphas; cases hphas
      have hmq : m ≠ q := fun h => by rw [Pages.Has, ← h, hm] at hqhas; cases hqhas
      rw [update_page hd hqlt hlt, if_neg hmq, update_page hd hplt hlt, if_neg hmp]
      exact h.none m hlt hm

end Directory
