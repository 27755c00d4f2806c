import Bixd.Ledger.Directory.Theorems.Pages

open Pages OrderedMap Function Option ApplyView

-- Keys are removed as the abstract directory says. The pages that other versions may have left
-- behind empty do not occur.

namespace Directory

variable {ps : Pages}
variable {page : UInt64}

variable [Digest] {v : ApplyView}

theorem Holds.removeRoot (hd : Distinct dir) (h : Holds dir M ps) (hall : ∀ m, ps.Has m → m = 0) :
    Holds dir (update M (pageKey dir 0) Option.none) ∅ := by
  refine ⟨nofun, fun m hm _ => ?_⟩
  rw [update_page hd (by decide) hm]
  split
  case isTrue => rfl
  case isFalse h0 => exact h.none m hm (not_isSome_iff_eq_none.mp fun hhas => h0 (hall m hhas))

theorem Holds.isPage (h : Holds dir M ps) (hf : ps.find? n = some ks)
    (hs : M (pageKey dir n) = some s) : IsPage ps n ks s := by
  have ⟨s', hs', hp⟩ := h.page n ks hf
  cases hs.symm.trans hs'
  exact hp

theorem emptyRoot_spec (keepRoot : Bool) (hd : Distinct dir) (hw : ps.WellFormed)
    (hv : v.Shows B M) (h : Holds dir M ps) (hf : ps.find? 0 = some [])
    (hnode : v.Obtained M (pageKey dir 0) node) :
    ∃ v' M', dirRemove.emptyRoot v ⟨.ltDIR_NODE, dir⟩ node keepRoot = .ok (true, v') ∧
      v.Edits B M' v' ∧ Elsewhere dir M M' ∧
      Holds dir M' (if !keepRoot ∧ ps.toList = [(0, [])] then ∅ else ps) := by
  have hp := h.isPage hf hnode.entry
  have hnext := hp.next.eq_anchor_iff fun _ _ => Nat.zero_le _
  have hprev := hp.prev.eq_anchor_iff fun _ _ => Nat.zero_le _
  rw [toNat_eq_zero] at hnext hprev
  have hstays (hno : ¬(!keepRoot ∧ ps.toList = [(0, [])])) :
      Holds dir M (if !keepRoot ∧ ps.toList = [(0, [])] then ∅ else ps) := by
    rwa [if_neg hno]
  unfold dirRemove.emptyRoot rootPage
  extract_lets prevPage nextPage
  by_cases halone : ∀ m, ps.Has m → m = 0
  case pos =>
    have hnext := hnext.mpr halone
    have hprev := hprev.mpr halone
    rw [if_neg (fun h => h.right hprev), if_neg (fun h => h.right hnext),
      if_neg (fun h => h.right hnext)]
    cases keepRoot
    case true => exact ⟨v, M, rfl, hv.refl, .refl, hstays nofun⟩
    have ⟨v', hv', he⟩ := hv.remove hnode
    refine ⟨v', _, ?_, he, elsewhere_update (by decide), ?_⟩
    · rw [if_neg Bool.false_ne_true, if_pos ⟨hnext, hprev⟩, hv']
      rfl
    · rw [if_pos ⟨rfl, toList_eq_root.mpr ⟨hf, halone⟩⟩]
      exact h.removeRoot hd halone
  case neg =>
    have hnext : nextPage ≠ 0 := fun h => halone (hnext.mp h)
    have hprev : prevPage ≠ 0 := fun h => halone (hprev.mp h)
    have hno : ¬(!keepRoot ∧ ps.toList = [(0, [])]) :=
      fun h => halone (toList_eq_root.mp h.right).right
    rw [if_neg (fun h => hnext h.left), if_neg (fun h => hprev h.left)]
    by_cases heq : nextPage = prevPage
    case pos =>
      have hhas := hp.next.mem (has_of_find? hf)
      have ⟨ks, hks⟩ := isSome_iff_exists.mp hhas
      have ⟨s, hs, hlast⟩ := h.page _ _ hks
      have hne := (hw.page _ _ hks).right.right fun h => hnext (toNat_eq_zero.mp h)
      have ⟨last, v', hv', he, _, hsle⟩ := hv.obtain (page_key nextPage ▸ hs) (hlast.check nextPage)
      refine ⟨v', M, ?_, he, .refl, hstays hno⟩
      have hempty : ¬(last.sle.getFieldV256 sfIndexes).isEmpty := by
        rw [hsle, hlast.indexes, List.isEmpty_iff]
        exact hne
      rw [if_pos ⟨heq, hnext⟩, peekOrError, hv']
      simp only [bind, Except.bind]
      rw [if_neg hempty]
      rfl
    case neg =>
      rw [if_neg (fun h => heq h.left)]
      refine ⟨v, M, ?_, hv.refl, .refl, hstays hno⟩
      split
      case isTrue => rfl
      case isFalse => exact if_neg fun h => hnext h.left

theorem unlink_spec (hd : Distinct dir) (hv : v.Shows B M) (h : Holds dir M ps)
    (hbound : ∀ m, ps.Has m → m < dirNodeMaxPages.toNat) (hroot : ps.Has 0) (h0 : n ≠ 0)
    (hf : ps.find? n = some ks) (hnode : v.Obtained M (pageKey dir n) node)
    (hp : node.sle.getFieldU64 sfIndexPrevious = p) (hq : node.sle.getFieldU64 sfIndexNext = q) :
    ∃ prev next v' M', dirRemove.unlink v ⟨.ltDIR_NODE, dir⟩ p q node =
        .ok (prev, next, v') ∧ v.Edits B M' v' ∧ Elsewhere dir M M' ∧ Holds dir M' (ps.erase n) ∧
      v'.Obtained M' (pageKey dir p.toNat) prev ∧ v'.Obtained M' (pageKey dir q.toNat) next := by
  have hpage := h.isPage hf hnode.entry
  have hpv : Ring.Prev 0 ps.Has n p.toNat := hp ▸ hpage.prev
  have hnx : Ring.Next 0 ps.Has n q.toNat := hq ▸ hpage.next
  have hn := hbound n (has_of_find? hf)
  have hplt := hbound _ hpv.left
  have hqlt := hbound _ (hnx.mem hroot)
  have hpn : p.toNat ≠ n := (hpv.lt h0).ne
  have hqn : q.toNat ≠ n := hnx.ne h0
  have ⟨kp, hkp⟩ := isSome_iff_exists.mp hpv.left
  have ⟨kq, hkq⟩ := isSome_iff_exists.mp (hnx.mem hroot)
  have ⟨sp, hsp, hpp⟩ := h.page _ _ hkp
  have ⟨sq, hsq, hpq⟩ := h.page _ _ hkq
  have hrem := h.removePage hd hbound hroot h0 hf hnode.entry (congrArg _ hp) (congrArg _ hq) hsp hsq
  dsimp only at hrem
  rw [hp, hq] at hrem
  -- The page before.
  have ⟨prev, v₁, hv₁, he₁, hprev, hprevs⟩ := hv.obtain (page_key p ▸ hsp) (hpp.check p)
  rw [page_key] at hprev
  rw [← hprevs] at hrem
  have ⟨v₂, hv₂, he₂, hprev₂⟩ :=
    he₁.shows.set (s := prev.sle.set sfIndexNext (.uint64 q)) hprev SLE.key_set
  -- The page after, which may be the same.
  have ⟨sn, hsn, hsns, hcheck⟩ : ∃ sn, (if p.toNat = q.toNat then
      prev.sle.set sfIndexNext (.uint64 q) else sq) = sn ∧
      update M (pageKey dir p.toNat) (some (prev.sle.set sfIndexNext (.uint64 q)))
        (pageKey dir q.toNat) = some sn ∧ (Keylet.page dir q).check sn := by
    rw [update_page hd hplt hqlt]
    by_cases heq : p.toNat = q.toNat
    case pos =>
      refine ⟨_, rfl, ?_, ?_⟩
      · rw [if_pos heq, if_pos heq.symm]
      · rw [if_pos heq, hprevs]
        exact hpp.check q
    case neg =>
      refine ⟨sq, if_neg heq, ?_, hpq.check q⟩
      rw [if_neg (Ne.symm heq), hsq]
  rw [hsn] at hrem
  have ⟨next, v₃, hv₃, he₃, hnext, hnexts⟩ := he₂.shows.obtain (page_key q ▸ hsns) hcheck
  rw [page_key] at hnext
  rw [← hnexts] at hrem
  have ⟨v₄, hv₄, he₄, hnext₄⟩ :=
    he₃.shows.set (s := next.sle.set sfIndexPrevious (.uint64 p)) hnext SLE.key_set
  -- The page itself.
  have hnode₄ := ((((hnode.edits he₁ rfl).edits he₂ (by
    rw [update_page hd hplt hn, if_neg hpn.symm])).edits he₃ rfl).edits he₄ (by
    rw [update_page hd hqlt hn, if_neg hqn.symm]))
  have ⟨v₅, hv₅, he₅⟩ := he₄.shows.remove hnode₄
  have hkeep {m : Nat} (hm : m < dirNodeMaxPages.toNat) (hmn : m ≠ n)
      {M : UInt256 → Option SLE} : update M (pageKey dir n) none (pageKey dir m) =
        M (pageKey dir m) := by
    rw [update_page hd hn hm, if_neg hmn]
  have hnext₅ := hnext₄.edits he₅ (hkeep hqlt hqn)
  refine ⟨if p = q then { next with sle := next.sle.set sfIndexPrevious (.uint64 p) }
    else { prev with sle := prev.sle.set sfIndexNext (.uint64 q) }, _, v₅, _, ?_, ?_, ?_, hrem,
    ?_, hnext₅⟩
  · unfold dirRemove.unlink
    rw [peekOrError, hv₁]
    simp only [bind, Except.bind]
    rw [SLEPtr.set, hv₂]
    simp only [peekOrError, hv₃]
    rw [SLEPtr.set, hv₄]
    simp only [hv₅]
    rfl
  · refine hv.trans he₁ (he₁.shows.trans he₂ (he₂.shows.trans he₃ (he₃.shows.trans he₄ he₅ ?_) ?_)
      ?_) ?_
    · exact fun k hk _ => isSome_update hk
    · exact fun k hk _ => hk
    · exact fun k hk _ => isSome_update hk
    · exact fun k hk _ => hk
  · exact ((elsewhere_update hplt).trans (elsewhere_update hqlt)).trans (elsewhere_update hn)
  · by_cases heq : p = q
    case pos =>
      subst heq
      rw [if_pos rfl]
      exact hnext₅
    case neg =>
      have hne : p.toNat ≠ q.toNat := fun h => heq (UInt64.toNat_inj.mp h)
      rw [if_neg heq]
      exact ((hprev₂.edits he₃ rfl).edits he₄ (by
        rw [update_page hd hqlt hplt, if_neg hne])).edits he₅ (hkeep hplt hpn)

-- `ps` are the pages before the key was removed.
theorem emptyPage_spec (keepRoot : Bool) (hd : Distinct dir) (hw : ps.WellFormed)
    (hv : v.Shows B M) (h0 : page.toNat ≠ 0) (hf : ps.find? page.toNat = some ks)
    (h : Holds dir M (ps.insert page.toNat []))
    (hnode : v.Obtained M (pageKey dir page.toNat) node) :
    ∃ v' M', dirRemove.emptyPage v ⟨.ltDIR_NODE, dir⟩ page node keepRoot =
        .ok (true, v') ∧ v.Edits B M' v' ∧ Elsewhere dir M M' ∧
      Holds dir M' (if !keepRoot ∧ (ps.erase page.toNat).toList = [(0, [])] then ∅
        else ps.erase page.toNat) := by
  generalize hps : ps.insert page.toNat [] = ps₁ at h
  have hhas (m : Nat) : Pages.Has ps₁ m ↔ ps.Has m :=
    hps ▸ has_insert_of_has (has_of_find? hf)
  have hf₁ : ps₁.find? page.toNat = some [] := by
    rw [← hps, find?_insert, if_pos rfl]
  have hers : ps₁.erase page.toNat = ps.erase page.toNat := by
    refine OrderedMap.ext fun m => ?_
    rw [find?_erase, find?_erase, ← hps, find?_insert]
    split <;> rfl
  have hbound (m : Nat) (hm : Pages.Has ps₁ m) : m < dirNodeMaxPages.toNat := by
    have ⟨ks, hks⟩ := isSome_iff_exists.mp ((hhas m).mp hm)
    exact (hw.page m ks hks).left
  have hroot := (hhas 0).mpr (hw.root _ (has_of_find? hf))
  have hpage := h.isPage hf₁ hnode.entry
  have hmem (m : Nat) : Pages.Has (ps₁.erase page.toNat) m ↔ Pages.Has ps₁ m ∧ m ≠ page.toNat :=
    has_erase
  have hpv := hpage.prev
  have hnx := hpage.next
  generalize hp : node.sle.getFieldU64 sfIndexPrevious = p at hpv
  generalize hq : node.sle.getFieldU64 sfIndexNext = q at hnx
  have hne_p : p ≠ page := fun h => (hpv.lt h0).ne (congrArg UInt64.toNat h)
  have hne_q : q ≠ page := fun h => hnx.ne h0 (congrArg UInt64.toNat h)
  have ⟨prev, next, v₁, M₁, hv₁, he₁, hels, hh, hprev, hnext⟩ :=
    unlink_spec hd hv h hbound hroot h0 hf₁ hnode hp hq
  rw [hers] at hh
  have hqhas : Pages.Has (ps.erase page.toNat) q.toNat :=
    hers ▸ (hmem _).mpr ⟨hnx.mem hroot, hnx.ne h0⟩
  have hphas : Pages.Has (ps.erase page.toNat) p.toNat :=
    hers ▸ (hmem _).mpr ⟨hpv.left, (hpv.lt h0).ne⟩
  -- The next page is not empty unless it is the root.
  have hfull : ¬(q ≠ 0 ∧ next.sle.getFieldU64 sfIndexNext = 0 ∧
      (next.sle.getFieldV256 sfIndexes).isEmpty) := by
    rintro ⟨hq0, _, hempty⟩
    have ⟨kq, hkq⟩ := isSome_iff_exists.mp hqhas
    rw [(hh.isPage hkq hnext.entry).indexes, List.isEmpty_iff] at hempty
    rw [find?_erase] at hkq
    have ⟨_, hkq⟩ := Option.ite_none_left_eq_some.mp hkq
    exact (hw.page _ _ hkq).right.right (fun h => hq0 (toNat_eq_zero.mp h)) hempty
  -- Only the root is left, and it is empty.
  have hdone : (!keepRoot ∧ q = 0 ∧ p = 0 ∧ (prev.sle.getFieldV256 sfIndexes).isEmpty) ↔
      (!keepRoot ∧ (ps.erase page.toNat).toList = [(0, [])]) := by
    rw [toList_eq_root]
    refine and_congr_right fun _ => ⟨?_, ?_⟩
    · rintro ⟨rfl, rfl, hempty⟩
      have ⟨k₀, hk₀⟩ := isSome_iff_exists.mp hphas
      rw [(hh.isPage hk₀ hprev.entry).indexes, List.isEmpty_iff] at hempty
      subst hempty
      refine ⟨hk₀, ?_⟩
      have hlink := Ring.next_removed h0 hpv hnx hmem
      rw [hers] at hlink
      exact (hlink.eq_anchor_iff fun _ _ => Nat.zero_le _).mp rfl
    · rintro ⟨hk₀, hall⟩
      have hp0 := toNat_eq_zero.mp (hall _ hphas)
      have hq0 := toNat_eq_zero.mp (hall _ hqhas)
      subst hp0
      refine ⟨hq0, rfl, ?_⟩
      rw [(hh.isPage hk₀ hprev.entry).indexes]
      rfl
  unfold dirRemove.emptyPage rootPage
  simp only [hp, hq]
  rw [if_neg hne_q, if_neg hne_p, hv₁]
  simp only [bind, Except.bind]
  rw [if_neg hfull]
  by_cases hlast : !keepRoot ∧ (ps.erase page.toNat).toList = [(0, [])]
  case pos =>
    have ⟨_, _, hp0, _⟩ := hdone.mpr hlast
    subst hp0
    have ⟨v₂, hv₂, he₂⟩ := he₁.shows.remove hprev
    rw [if_pos (hdone.mpr hlast), if_pos hlast, hv₂]
    refine ⟨v₂, _, rfl, hv.trans he₁ he₂ fun k _ hk => ?_, ?_, ?_⟩
    · rw [update_apply] at hk
      split at hk
      case isTrue => cases hk
      case isFalse => exact hk
    · exact hels.trans (elsewhere_update (by decide))
    · exact hh.removeRoot hd (toList_eq_root.mp hlast.right).right
  case neg =>
    rw [if_neg fun h => hlast (hdone.mp h), if_neg hlast]
    exact ⟨v₁, M₁, rfl, he₁, hels, hh⟩

theorem dirRemove_spec (key : UInt256) (keepRoot : Bool) (hd : Distinct dir) (hw : ps.WellFormed)
    (hv : v.Shows B M) (h : Holds dir M ps) (hpage : page.toNat < dirNodeMaxPages.toNat) :
    ∃ r v' M', v.dirRemove ⟨.ltDIR_NODE, dir⟩ page key keepRoot = .ok (r, v') ∧
      v.Edits B M' v' ∧ Elsewhere dir M M' ∧
      match r with
      | false => ps.remove page.toNat key keepRoot = none ∧ M' = M
      | true => ∃ ps', ps.remove page.toNat key keepRoot = some ps' ∧ Holds dir M' ps' := by
  unfold dirRemove remove
  cases hf : ps.find? page.toNat
  case none =>
    have hnone : M (Keylet.page dir page).key = none := page_key page ▸ h.none _ hpage hf
    have ⟨v', hv', he⟩ := hv.peek_none (k := .page dir page) (by rw [hnone]; rfl)
    rw [hv']
    exact ⟨false, v', M, rfl, he, .refl, rfl, rfl⟩
  case some ks =>
    have ⟨s, hs, hp⟩ := h.page _ _ hf
    have ⟨node, v₁, hv₁, he₁, hnode, hsle⟩ := hv.obtain (page_key page ▸ hs) (hp.check page)
    rw [page_key] at hnode
    subst hsle
    rw [hv₁]
    simp only [hp.indexes]
    by_cases hk : key ∈ ks
    case neg =>
      refine ⟨false, v₁, M, if_pos hk, he₁, .refl, ?_, rfl⟩
      exact if_pos hk
    simp only [if_neg (not_not.mpr hk)]
    have hset := h.setKeys hd hw hf hs (ks.erase key)
    have ⟨v₂, hv₂, he₂, hnode₂⟩ := he₁.shows.set
      (s := node.sle.set sfIndexes (.vector256 (ks.erase key))) hnode SLE.key_set
    have he := hv.trans he₁ he₂ fun k hk _ => hk
    have hels (x : Option SLE) : Elsewhere dir M (update M (pageKey dir page.toNat) x) :=
      elsewhere_update hpage
    rw [SLEPtr.set, hv₂]
    simp only [bind, Except.bind]
    by_cases hnil : ks.erase key = []
    case neg =>
      refine ⟨true, v₂, _, if_pos ?_, he, hels _, _, if_pos hnil, hset⟩
      rw [Bool.not_eq_true', List.isEmpty_eq_false_iff]
      exact hnil
    rw [hnil] at hset hnode₂ he₂ he ⊢
    rw [if_neg (by decide)]
    by_cases h0 : page = 0
    case pos =>
      subst h0
      have hw' : Pages.WellFormed (ps.insert 0 []) :=
        hw.insert (absurd rfl) (by decide) (Nat.zero_le _) (absurd rfl)
      have ⟨v₃, M₃, hv₃, he₃, hels₃, hh⟩ := emptyRoot_spec keepRoot hd hw' he₂.shows hset
        (by rw [find?_insert]; exact if_pos rfl) hnode₂
      refine ⟨true, v₃, M₃, ?_, hv.trans he he₃ fun k hk _ => isSome_update hk, (hels _).trans hels₃,
        _, ?_, hh⟩
      · exact (if_pos rfl).trans hv₃
      · rw [if_neg (not_not.mpr rfl)]
        exact (apply_ite some ..).symm
    case neg =>
      have h0' : page.toNat ≠ 0 := fun h => h0 (toNat_eq_zero.mp h)
      have ⟨v₃, M₃, hv₃, he₃, hels₃, hh⟩ := emptyPage_spec keepRoot hd hw he₂.shows h0' hf hset hnode₂
      refine ⟨true, v₃, M₃, ?_, hv.trans he he₃ fun k hk _ => isSome_update hk, (hels _).trans hels₃,
        _, ?_, hh⟩
      · exact (if_neg h0).trans hv₃
      · rw [if_neg (not_not.mpr rfl), if_neg h0']
        exact (apply_ite some ..).symm

end Directory
