import Bixd.Ledger.Directory.Theorems.Pages

open ApplyView Pages

-- Keys are added as the abstract directory says.

-- What describes a page leaves its keys and links alone.
def Describes (describe : SLE → SLE) : Prop :=
  ∀ s, (describe s).key = s.key ∧ (describe s).type = s.type ∧
    ∀ f ∈ [sfRootIndex, sfIndexes, sfIndexNext, sfIndexPrevious], (describe s).fields f = s.fields f

namespace Directory

variable {ps : Pages} {s : SLE}

section

variable (h : Describes describe) (hf : f ∈ [sfRootIndex, sfIndexes, sfIndexNext, sfIndexPrevious])

include h hf

theorem Describes.getFieldU64 : (describe s).getFieldU64 f = s.getFieldU64 f := by
  rw [SLE.getFieldU64, (h s).right.right f hf]
  rfl

theorem Describes.getFieldV256 : (describe s).getFieldV256 f = s.getFieldV256 f := by
  rw [SLE.getFieldV256, (h s).right.right f hf]
  rfl

end

theorem indexes_eq (h : key ∉ ks) :
    dirAdd.indexes preserveOrder ks key = .ok (place preserveOrder ks key) := by
  cases preserveOrder
  case true => exact if_neg h
  unfold dirAdd.indexes place
  rw [if_neg Bool.false_ne_true, if_neg Bool.false_ne_true]
  refine if_neg fun hk => h ?_
  exact (List.perm_insertionSort ..).mem_iff.mp (List.mem_of_getElem? hk)

theorem describe_page (hdesc : Describes describe) (hs : s.type = .ltDIR_NODE) :
    (describe s).type = .ltDIR_NODE ∧ ((describe s).getFieldV256 sfIndexes = s.getFieldV256 sfIndexes) ∧
      ((describe s).getFieldU64 sfIndexNext = s.getFieldU64 sfIndexNext) ∧
      ((describe s).getFieldU64 sfIndexPrevious = s.getFieldU64 sfIndexPrevious) :=
  ⟨(hdesc s).right.left.trans hs, Describes.getFieldV256 hdesc (by decide),
    Describes.getFieldU64 hdesc (by decide), Describes.getFieldU64 hdesc (by decide)⟩

theorem toNat_succ {page : UInt64} (h : page.toNat < dirNodeMaxPages.toNat) :
    (page + 1).toNat = page.toNat + 1 := by
  have hmax : dirNodeMaxPages.toNat = 262144 := rfl
  rw [UInt64.toNat_add, UInt64.toNat_one, Nat.mod_eq_of_lt (by omega)]

variable [Digest] {v : ApplyView}

theorem Holds.newRoot (hd : Distinct dir) (h : Holds dir M ∅) (new : SLE)
    (htype : new.type = .ltDIR_NODE) (hnext : new.getFieldU64 sfIndexNext = 0)
    (hprev : new.getFieldU64 sfIndexPrevious = 0) :
    Holds dir (Function.update M (pageKey dir 0) (some new))
      ((∅ : Pages).insert 0 (new.getFieldV256 sfIndexes)) := by
  have hhas (m : Nat) :
      Pages.Has ((∅ : Pages).insert 0 (new.getFieldV256 sfIndexes)) m ↔ m = 0 := by
    rw [has_insert]
    exact or_iff_right nofun
  refine ⟨fun m ks hm => ?_, fun m hm hn => ?_⟩
  · rw [OrderedMap.find?_insert] at hm
    have ⟨h0, hm⟩ := Option.ite_none_right_eq_some.mp hm
    subst h0
    cases hm
    refine ⟨new, Function.update_self .., htype, rfl, ?_, ?_⟩
    · rw [hnext]
      exact Ring.next_alone hhas
    · rw [hprev]
      exact Ring.prev_alone hhas
  · rw [OrderedMap.find?_insert] at hn
    split at hn
    case isTrue => cases hn
    case isFalse h0 =>
      rw [update_page hd (by decide) hm, if_neg h0]
      exact h.none m hm rfl

theorem lastPage_spec (hv : v.Shows B M) (h : Holds dir M ps)
    (hroot : v.Obtained M (pageKey dir 0) root) {page : UInt64}
    (hf : ps.find? page.toNat = some ks) :
    ∃ node v', dirAdd.lastPage v ⟨.ltDIR_NODE, dir⟩ root page = .ok (node, v') ∧
      v.Edits B M v' ∧ v'.Obtained M (pageKey dir page.toNat) node := by
  unfold dirAdd.lastPage
  by_cases h0 : page = 0
  case pos =>
    subst h0
    exact ⟨root, v, if_neg (not_not.mpr rfl), hv.refl, hroot⟩
  have ⟨s, hs, hp⟩ := h.page _ _ hf
  have ⟨node, v', hpeek, he, hnode, hn⟩ := hv.obtain (page_key page ▸ hs) (hp.check page)
  refine ⟨node, v', ?_, he, page_key page ▸ hnode⟩
  rw [if_pos h0, peekOrError, hpeek]

theorem newPage_sle (dir key : UInt256) (hdesc : Describes describe) (page : UInt64) :
    let sle := SLE.make (Keylet.page dir (page + 1)).type (Keylet.page dir (page + 1)).key
    let sle := sle.set sfRootIndex (.hash256 dir)
    let sle := sle.set sfIndexes (.vector256 [key])
    let sle := if page + 1 ≠ 1 then sle.set sfIndexPrevious (.uint64 (page + 1 - 1)) else sle
    (describe sle).key = pageKey dir (page.toNat + 1) ∧ (describe sle).type = .ltDIR_NODE ∧
      ((describe sle).getFieldV256 sfIndexes = [key]) ∧
      ((describe sle).getFieldU64 sfIndexNext = 0) ∧
      (((describe sle).getFieldU64 sfIndexPrevious).toNat = page.toNat) := by
  intro s₀ s₁ s₂ s₃
  have hs₃ : s₃.type = .ltDIR_NODE := by
    unfold s₃
    split <;> exact Keylet.type_page ..
  have hk : s₃.key = pageKey dir (page.toNat + 1) := by
    unfold s₃
    split <;> rfl
  have ⟨htype, hidx, hnext, hprev⟩ := describe_page hdesc hs₃
  refine ⟨(hdesc s₃).left.trans hk, htype, hidx.trans ?_, hnext.trans ?_, ?_⟩
  · unfold s₃
    split
    case isTrue => rw [SLE.getFieldV256_set_of_ne (by decide), SLE.getFieldV256_set_self]
    case isFalse => exact SLE.getFieldV256_set_self
  · unfold s₃
    split <;> rfl
  · rw [hprev]
    unfold s₃
    split
    case isTrue => rw [SLE.getFieldU64_set_self, UInt64.add_sub_cancel]
    case isFalse h =>
      have h0 : page = 0 := by simpa using h
      rw [h0]
      rfl

theorem newPage_spec (key : UInt256) (hd : Distinct dir) (hw : ps.WellFormed)
    (hv : v.Shows B M) (h : Holds dir M ps) (hdesc : Describes describe) {page : UInt64}
    (hf : ps.find? page.toNat = some ks) (hle : ∀ m, ps.Has m → m ≤ page.toNat)
    (hmax : page.toNat + 1 < dirNodeMaxPages.toNat) (hroot : v.Obtained M (pageKey dir 0) root)
    (hnode : v.Obtained M (pageKey dir page.toNat) node) :
    ∃ v' M', dirAdd.newPage v ⟨.ltDIR_NODE, dir⟩ key describe root node page =
        .ok (some (page + 1), v') ∧ v.Edits B M' v' ∧ Elsewhere dir M M' ∧
      Holds dir M' (ps.insert (page.toNat + 1) [key]) := by
  have hlt : page.toNat < dirNodeMaxPages.toNat := by omega
  have h0 : 0 < dirNodeMaxPages.toNat := by decide
  have hsucc := toNat_succ hlt
  have hof : UInt64.ofNat (page.toNat + 1) = page + 1 := by rw [← hsucc, UInt64.ofNat_toNat]
  -- The last page and the root are linked to the new page.
  have ⟨v₁, hv₁, he₁, hnode₁⟩ :=
    hv.set (s := node.sle.set sfIndexNext (.uint64 (page + 1))) hnode SLE.key_set
  have ⟨root₁, hr₁, hr₁s, hroot₁⟩ : ∃ root₁, (if page = 0 then node.set sfIndexNext
      (.uint64 (page + 1)) else root) = root₁ ∧ (root₁.sle = if page.toNat = 0 then
      node.sle.set sfIndexNext (.uint64 (page + 1)) else root.sle) ∧
      v₁.Obtained (Function.update M (pageKey dir page.toNat)
        (some (node.sle.set sfIndexNext (.uint64 (page + 1))))) (pageKey dir 0) root₁ := by
    by_cases hp : page = 0
    case pos =>
      subst hp
      exact ⟨_, rfl, rfl, hnode₁⟩
    have hp' : page.toNat ≠ 0 := fun h => hp (UInt64.toNat_inj.mp h)
    refine ⟨root, if_neg hp, (if_neg hp').symm, hroot.edits he₁ ?_⟩
    rw [update_page hd hlt h0, if_neg hp'.symm]
  have ⟨v₂, hv₂, he₂, _⟩ := he₁.shows.set
    (s := root₁.sle.set sfIndexPrevious (.uint64 (page + 1))) hroot₁ SLE.key_set
  -- The new page.
  have hnew := newPage_sle dir key hdesc page
  extract_lets s₀ s₁ s₂ s₃ at hnew
  have ⟨hkey, htype, hidx, hnext, hprev⟩ := hnew
  have hadd := h.addPage hd hw hf hle hmax hroot.entry hnode.entry htype hnext hprev
  dsimp only at hadd
  rw [hof, ← hr₁s, hidx] at hadd
  have ⟨p, v₃, hv₃, he₃, hps⟩ := he₂.shows.alloc (describe s₃)
  have hpk : p.key = pageKey dir (page.toNat + 1) := (congrArg SLE.key hps).trans hkey
  have hnone : M (pageKey dir (page.toNat + 1)) = none := by
    refine h.none _ hmax (Option.eq_none_iff_forall_ne_some.mpr fun ks hks => ?_)
    have := hle _ (has_of_find? hks)
    omega
  have ⟨v₄, hv₄, he₄, _⟩ := he₃.shows.insert (p := p) (hpk ▸ hd.ne_zero _ hmax) (by
    rw [hpk, update_page hd h0 hmax, if_neg (Nat.succ_ne_zero _), update_page hd hlt hmax,
      if_neg (Nat.succ_ne_self _), hnone])
  rw [hpk, hps] at he₄
  refine ⟨v₄, _, ?_, ?_, ?_, hadd⟩
  · unfold dirAdd.newPage
    have hge : ¬page + 1 ≥ dirNodeMaxPages := by
      rw [ge_iff_le, UInt64.le_iff_toNat_le, hsucc]
      omega
    simp only [if_neg hge, hr₁]
    rw [SLEPtr.set, hv₁]
    simp only [bind, Except.bind]
    rw [SLEPtr.set, hv₂]
    simp only [s₃, s₂, s₁, s₀] at hv₃
    simp only [hv₃, hv₄]
    rfl
  · refine hv.trans he₁ (he₁.shows.trans he₂ (he₂.shows.trans he₃ he₄ ?_) ?_) ?_
    · exact fun k hk _ => hk
    · exact fun k hk _ => isSome_update hk
    · exact fun k hk _ => isSome_update hk
  · exact ((elsewhere_update hlt).trans (elsewhere_update h0)).trans (elsewhere_update hmax)

theorem dirAdd_empty (preserveOrder : Bool) (key : UInt256) (hd : Distinct dir)
    (hv : v.Shows B M) (h : Holds dir M ∅) (hdesc : Describes describe) :
    ∃ v' M', v.dirAdd preserveOrder ⟨.ltDIR_NODE, dir⟩ key describe = .ok (some 0, v') ∧
      v.Edits B M' v' ∧ Elsewhere dir M M' ∧ Holds dir M' ((∅ : Pages).insert 0 [key]) := by
  have h0 : 0 < dirNodeMaxPages.toNat := by decide
  have hnone : M dir = none := h.none 0 h0 rfl
  let s := (SLE.make .ltDIR_NODE dir).set sfRootIndex (.hash256 dir)
  have ⟨htype, _, hnext, hprev⟩ := describe_page (s := s) hdesc rfl
  have hroot := h.newRoot hd ((describe s).set sfIndexes (.vector256 [key])) htype
    ((SLE.getFieldU64_set_of_ne (by decide)).trans hnext)
    ((SLE.getFieldU64_set_of_ne (by decide)).trans hprev)
  have ⟨v₁, hv₁, he₁⟩ := hv.peek_none (k := ⟨.ltDIR_NODE, dir⟩) (by rw [hnone]; rfl)
  have ⟨p, v₂, hv₂, he₂, hp⟩ := he₁.shows.alloc ((describe s).set sfIndexes (.vector256 [key]))
  have hpk : p.key = dir := (congrArg SLE.key hp).trans (hdesc s).left
  have ⟨v₃, hv₃, he₃, _⟩ := he₂.shows.insert (p := p) (hpk ▸ hd.ne_zero 0 h0) (hpk ▸ hnone)
  rw [hpk, hp] at he₃
  refine ⟨v₃, _, ?_, ?_, elsewhere_update h0, hroot⟩
  · unfold dirAdd
    rw [hv₁]
    simp only [s] at hv₂
    simp only [hv₂, hv₃]
    rfl
  · exact hv.trans he₁ (he₁.shows.trans he₂ he₃ fun _ hk _ => hk) fun _ hk _ => hk

-- The key is added, unless all pages are used up. Then nothing changes.
theorem dirAdd_spec (preserveOrder : Bool) (hd : Distinct dir) (hw : ps.WellFormed)
    (hv : v.Shows B M) (h : Holds dir M ps) (hdesc : Describes describe)
    (hkey : ∀ n, (key, n) ∉ ps.entries) :
    ∃ r v' M', v.dirAdd preserveOrder ⟨.ltDIR_NODE, dir⟩ key describe = .ok (r, v') ∧
      v.Edits B M' v' ∧ Elsewhere dir M M' ∧
      match r with
      | none => ps.add preserveOrder key = none ∧ M' = M
      | some n => ∃ ps', ps.add preserveOrder key = some (n.toNat, ps') ∧ Holds dir M' ps' := by
  by_cases hempty : ps = ∅
  case pos =>
    subst hempty
    have ⟨v', M', hv', he, hels, hh⟩ := dirAdd_empty preserveOrder key hd hv h hdesc
    exact ⟨_, v', M', hv', he, hels, _, rfl, hh⟩
  case neg =>
    have ⟨ks₀, hf₀⟩ := Option.isSome_iff_exists.mp (hw.has_root hempty)
    have ⟨s₀, hs₀, hp₀⟩ := h.page 0 ks₀ hf₀
    have ⟨root, v₁, hv₁, he₁, hroot, hsle⟩ :=
      hv.obtain (k := ⟨.ltDIR_NODE, dir⟩) hs₀ (hp₀.check 0)
    have ⟨ks, hf, hlast, hle⟩ := getLast?_of_prev hp₀.prev
    rw [← hsle] at hf hlast hle
    generalize hpage : root.sle.getFieldU64 sfIndexPrevious = page at hf hlast hle
    have ⟨node, v₂, hv₂, he₂, hnode⟩ := lastPage_spec he₁.shows h hroot hf
    have ⟨s, hs, hp⟩ := h.page _ _ hf
    cases hs.symm.trans hnode.entry
    have hlt := (hw.page _ _ hf).left
    have hkeep (k : UInt256) (hk : (M k).isSome) (_ : (M k).isSome) : (M k).isSome := hk
    have he := hv.trans he₁ he₂ hkeep
    have hrun : v.dirAdd preserveOrder ⟨.ltDIR_NODE, dir⟩ key describe =
        if ks.length < dirNodeMaxEntries then do
          let indexes ← dirAdd.indexes preserveOrder ks key
          return (some page, ← v₂.update (node.set sfIndexes (.vector256 indexes)))
        else
          dirAdd.newPage v₂ ⟨.ltDIR_NODE, dir⟩ key describe root node page := by
      unfold dirAdd
      rw [hv₁]
      simp only [hpage, hv₂, bind, Except.bind, hp.indexes]
    rw [hrun]
    unfold add
    simp only [hlast]
    by_cases hlen : ks.length < dirNodeMaxEntries
    case pos =>
      have hnot : key ∉ ks := fun hk => hkey page.toNat (mem_entries.mpr ⟨ks, hf, hk⟩)
      have ⟨v₃, hv₃, he₃, _⟩ := he₂.shows.set hnode
        (s := node.sle.set sfIndexes (.vector256 (place preserveOrder ks key))) SLE.key_set
      refine ⟨some page, v₃, _, ?_, hv.trans he he₃ fun _ hk _ => hk, elsewhere_update hlt, ?_⟩
      · rw [if_pos hlen, indexes_eq hnot]
        simp only [bind, Except.bind]
        rw [SLEPtr.set, hv₃]
        rfl
      · exact ⟨_, if_pos hlen, h.setKeys hd hw hf hnode.entry _⟩
    case neg =>
      simp only [if_neg hlen]
      by_cases hmax : page.toNat + 1 < dirNodeMaxPages.toNat
      case pos =>
        have ⟨v₃, M', hv₃, he₃, hels, hh⟩ := newPage_spec key hd hw he₂.shows h hdesc hf hle
          hmax (hroot.edits he₂ rfl) hnode
        refine ⟨_, v₃, M', hv₃, hv.trans he he₃ fun _ hk _ => hk, hels, _, ?_, hh⟩
        rw [if_pos hmax, toNat_succ hlt]
      case neg =>
        refine ⟨none, v₂, M, ?_, he, .refl, if_neg hmax, rfl⟩
        refine if_pos ?_
        rw [ge_iff_le, UInt64.le_iff_toNat_le, toNat_succ hlt]
        omega

end Directory
