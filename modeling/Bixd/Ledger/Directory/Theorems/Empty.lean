import Bixd.Ledger.Directory.Theorems.Rooted
import Bixd.Ledger.Directory.Theorems.Runs
import Bixd.Ledger.Theorems.Same

open List Option

-- Whether an empty directory is recognised and removed.

namespace Directory

variable [Digest]

-- A directory that is built from nothing, in any order. The log has the keys that are in it with the
-- pages that they are on. Other entries may change at any time, and the view may be another one that
-- has the same pages.
inductive Built (dir : UInt256) : ApplyView → List (UInt256 × Nat) → Prop
  | start {B M v} :
    v.Shows B M →
    (∀ n < dirNodeMaxPages.toNat, M (pageKey dir n) = none) →
    Built dir v []
  | add {v v' log key preserveOrder describe r} :
    Built dir v log →
    (∀ n, (key, n) ∉ log) →
    Describes describe →
    v.dirAdd preserveOrder ⟨.ltDIR_NODE, dir⟩ key describe = .ok (r, v') →
    Built dir v' (log ++ (r.map fun n => (key, n.toNat)).toList)
  | remove {v v' log key page keepRoot r} :
    Built dir v log →
    UInt64.toNat page < dirNodeMaxPages.toNat →
    v.dirRemove ⟨.ltDIR_NODE, dir⟩ page key keepRoot = .ok (r, v') →
    Built dir v' (if r then log.erase (key, page.toNat) else log)
  | other {B M B' M' v v' log} :
    Built dir v log →
    v.Shows B M →
    v'.Shows B' M' →
    (∀ n < dirNodeMaxPages.toNat, M' (pageKey dir n) = M (pageKey dir n)) →
    Built dir v' log

-- What `emptyDirDelete` returns is true: that the directory has been empty and that it is gone, or
-- else that nothing has changed.
def Truthful (dir : UInt256) (v : ApplyView) (log : List (UInt256 × Nat)) : Prop :=
  ∃ r v', v.emptyDirDelete ⟨.ltDIR_NODE, dir⟩ = .ok (r, v') ∧ (r = true ↔ log = []) ∧
    (r = true → ∀ n < dirNodeMaxPages.toNat, v'.view.read (.page dir (.ofNat n)) = none) ∧
    (r = false → v.Same v')

-- The root has keys, or all keys are on one page.
def Compact (log : List (UInt256 × Nat)) : Prop :=
  (∃ key, (key, 0) ∈ log) ∨ ∀ e ∈ log, ∀ e' ∈ log, e.2 = e'.2

variable {dir : UInt256} {v : ApplyView} {log : List (UInt256 × Nat)}
variable {ps : Pages}

theorem Built.shown (hd : Distinct dir) (h : Built dir v log) : Shown dir false v log := by
  induction h
  case start hv hm => exact .start hv hm
  case add hkey hdesc hrun hi => exact hi.add hd nofun hkey hdesc hrun
  case remove hpage hrun hi => exact hi.remove hd hpage hrun
  case other hv hv' hm hi => exact hi.other hv hv' hm

theorem Built.rooted (hd : Distinct dir) (h : Built dir v log) : v.Rooted dir := by
  induction h
  case start B M v hv hm =>
    refine ⟨B, M, hv, fun n s hs hk => ?_⟩
    have hn : n = dir := (hv.denotes.keyed n s hs).symm.trans hk
    rw [hn] at hs
    cases (hm 0 (by decide)).symm.trans hs
  case add v v' log key preserveOrder describe r hbuilt hkey hdesc hrun hi =>
    have ⟨_, _, _, hv', _⟩ := (Built.add hbuilt hkey hdesc hrun).shown hd
    exact hi.dirAdd hdesc hrun hv'
  case remove hrun hi => exact hi.dirRemove hrun
  case other B M B' M' v v' log _ hv hv' hm hi =>
    have ⟨B₁, M₁, hv₁, hroots⟩ := hi
    cases hv.unique hv₁
    refine ⟨B', M', hv', fun n s hs hk => ?_⟩
    have hn : n = dir := (hv'.denotes.keyed n s hs).symm.trans hk
    rw [hn] at hs
    exact hroots dir s ((hm 0 (by decide)).symm.trans hs) hk

section

variable (hv : v.Shows B M) (hh : Holds dir M ps)
variable (hroot : M (pageKey dir 0) = some root)
variable (hindex : root.getFieldH256 sfRootIndex = dir)

include hv hh hroot hindex

theorem emptyDirDelete_keys (hf : ps.find? 0 = some ks) (hne : ks ≠ []) :
    ∃ v', v.emptyDirDelete ⟨.ltDIR_NODE, dir⟩ = .ok (false, v') ∧ v.Same v' := by
  have hp := hh.isPage hf hroot
  have hsame := hv.same_peek ⟨.ltDIR_NODE, dir⟩
  have ⟨p, v', hpeek, _, _, hsle⟩ := hv.obtain (k := ⟨.ltDIR_NODE, dir⟩) hroot (hp.check 0)
  rw [hpeek] at hsame
  refine ⟨v', ?_, hsame⟩
  rw [ApplyView.emptyDirDelete, hpeek]
  dsimp only
  rw [hsle, hp.indexes, if_neg (not_or.mpr ⟨not_not.mpr rfl, not_not.mpr hindex⟩), if_pos (by simpa)]

theorem emptyDirDelete_empty (hf : ps.find? 0 = some []) :
    ∃ p v', (v.peek ⟨.ltDIR_NODE, dir⟩ = (some p, v')) ∧ v'.Shows B M ∧
      v'.Obtained M (pageKey dir 0) p ∧ IsPage ps 0 [] p.sle ∧
      v.emptyDirDelete ⟨.ltDIR_NODE, dir⟩ = (do
        let prevPage := p.sle.getFieldU64 sfIndexPrevious
        let nextPage := p.sle.getFieldU64 sfIndexNext
        if nextPage = 0 ∧ prevPage ≠ 0 then
          .error "Directory chain: fwd link broken"
        else if prevPage = 0 ∧ nextPage ≠ 0 then
          .error "Directory chain: rev link broken"
        else if nextPage = prevPage ∧ nextPage ≠ 0 then
          let (last, v) ← v'.peekOrError (.page dir nextPage) "Directory chain: fwd link broken."
          if !(last.sle.getFieldV256 sfIndexes).isEmpty then
            return (false, v)
          else
            let node := (p.set sfIndexNext (.uint64 0)).set sfIndexPrevious (.uint64 0)
            let v ← v.update node
            let v ← v.erase last
            return (true, ← v.erase node)
        else if nextPage = 0 ∧ prevPage = 0 then
          return (true, ← v'.erase p)
        else
          return (true, v')) := by
  have hp := hh.isPage hf hroot
  have ⟨p, v', hpeek, he, hobt, hsle⟩ := hv.obtain (k := ⟨.ltDIR_NODE, dir⟩) hroot (hp.check 0)
  refine ⟨p, v', hpeek, he.shows, hobt, hsle ▸ hp, ?_⟩
  rw [ApplyView.emptyDirDelete, hpeek]
  dsimp only
  rw [if_neg (by rw [hsle]; exact not_or.mpr ⟨not_not.mpr rfl, not_not.mpr hindex⟩),
    if_neg (by rw [hsle, hp.indexes]; simp)]
  rfl

theorem emptyDirDelete_alone (hd : Distinct dir) (hf : ps.find? 0 = some [])
    (halone : ∀ m, ps.Has m → m = 0) :
    ∃ v' M', v.emptyDirDelete ⟨.ltDIR_NODE, dir⟩ = .ok (true, v') ∧ v'.Shows B M' ∧
      Holds dir M' ∅ := by
  have ⟨p, v₁, _, hv₁, hobt, hp, hrun⟩ := emptyDirDelete_empty hv hh hroot hindex hf
  have hnext := hp.next.eq_anchor_iff fun _ _ => Nat.zero_le _
  have hprev := hp.prev.eq_anchor_iff fun _ _ => Nat.zero_le _
  rw [toNat_eq_zero] at hnext hprev
  replace hnext := hnext.mpr halone
  replace hprev := hprev.mpr halone
  have ⟨v', hv', he'⟩ := hv₁.remove hobt
  refine ⟨v', _, ?_, he'.shows, hh.removeRoot hd halone⟩
  rw [hrun, if_neg (fun h => h.right hprev), if_neg (fun h => h.right hnext),
    if_neg (fun h => h.right hnext), if_pos ⟨hnext, hprev⟩, hv']
  rfl

theorem emptyDirDelete_two (hw : ps.WellFormed) (hf : ps.find? 0 = some []) (h0 : n ≠ 0)
    (hn : ps.Has n) (hall : ∀ m, ps.Has m → m = 0 ∨ m = n) :
    ∃ v', v.emptyDirDelete ⟨.ltDIR_NODE, dir⟩ = .ok (false, v') ∧ v.Same v' := by
  have ⟨p, v₁, hpeek, hv₁, _, hp, hrun⟩ := emptyDirDelete_empty hv hh hroot hindex hf
  have hsame := hv.same_peek ⟨.ltDIR_NODE, dir⟩
  rw [hpeek] at hsame
  have hnext := hp.next.eq_anchor_iff fun _ _ => Nat.zero_le _
  have hprev := hp.prev.eq_anchor_iff fun _ _ => Nat.zero_le _
  have hnot : ¬∀ m, ps.Has m → m = 0 := fun h => h0 (h n hn)
  rw [iff_false_right hnot] at hnext hprev
  have hnext' := (hall _ (hp.next.mem (Pages.has_of_find? hf))).resolve_left hnext
  have hprev' := (hall _ hp.prev.left).resolve_left hprev
  rw [toNat_eq_zero] at hnext hprev
  have heq := UInt64.toNat_inj.mp (hnext'.trans hprev'.symm)
  have ⟨ks, hks⟩ := isSome_iff_exists.mp hn
  have ⟨s, hs, hlast⟩ := hh.page n ks hks
  have hne := (hw.page n ks hks).right.right h0
  generalize p.sle.getFieldU64 sfIndexNext = next at *
  have hs : M (Keylet.page dir next).key = some s := by rw [page_key, hnext', hs]
  have ⟨last, v₂, hpeek₂, _, _, hsle⟩ := hv₁.obtain hs (hlast.check next)
  have hsame₂ := hv₁.same_peek (.page dir next)
  rw [hpeek₂] at hsame₂
  refine ⟨v₂, ?_, hsame.trans hsame₂⟩
  rw [hrun, if_neg (fun h => hnext h.left), if_neg (fun h => hprev h.left), if_pos ⟨heq, hnext⟩,
    ApplyView.peekOrError, hpeek₂]
  simp only [Except.ok_bind]
  rw [if_pos (by rw [hsle, hlast.indexes]; simpa)]
  rfl

theorem emptyDirDelete_more (hf : ps.find? 0 = some []) (hn : ps.Has n) (hm : ps.Has m) (h0 : n ≠ 0)
    (hlt : n < m) : ∃ v', v.emptyDirDelete ⟨.ltDIR_NODE, dir⟩ = .ok (true, v') := by
  have ⟨p, v₁, _, _, _, hp, hrun⟩ := emptyDirDelete_empty hv hh hroot hindex hf
  have hnext := hp.next.eq_anchor_iff fun _ _ => Nat.zero_le _
  have hprev := hp.prev.eq_anchor_iff fun _ _ => Nat.zero_le _
  have hnot : ¬∀ m, ps.Has m → m = 0 := fun h => h0 (h n hn)
  rw [iff_false_right hnot] at hnext hprev
  have hle : (p.sle.getFieldU64 sfIndexNext).toNat ≤ n := by
    rcases hp.next with ⟨_, _, hmin⟩ | ⟨h, _⟩
    · exact hmin n hn (Nat.pos_of_ne_zero h0)
    · exact absurd h hnext
  have hge : m ≤ (p.sle.getFieldU64 sfIndexPrevious).toNat := by
    rcases hp.prev with ⟨_, ⟨h, _⟩ | ⟨_, hmax⟩⟩
    · exact absurd rfl h
    · exact hmax m hm
  rw [toNat_eq_zero] at hnext hprev
  have hne : p.sle.getFieldU64 sfIndexNext ≠ p.sle.getFieldU64 sfIndexPrevious := by
    intro h
    rw [h] at hle
    omega
  refine ⟨v₁, ?_⟩
  rw [hrun, if_neg (fun h => hnext h.left), if_neg (fun h => hprev h.left),
    if_neg (fun h => hne h.left), if_neg (fun h => hnext h.left)]
  rfl

end

-- What is returned is true exactly if the root has keys or all keys are on one page. Otherwise the
-- pages after an empty root are overlooked.
theorem emptyDirDelete_truthful_iff (hd : Distinct dir) (h : Built dir v log)
    (hroot : (v.view.read ⟨.ltDIR_NODE, dir⟩).isSome) : Truthful dir v log ↔ Compact log := by
  have ⟨B, M, ps, hv, hh, hw, _, hp, _⟩ := h.shown hd
  have ⟨root, hread⟩ := isSome_iff_exists.mp hroot
  rw [hv.read] at hread
  have hroot : M (pageKey dir 0) = some root := (filter_eq_some_iff.mp hread).left
  have hindex : root.getFieldH256 sfRootIndex = dir := by
    have ⟨_, _, hv', hroots⟩ := h.rooted hd
    cases hv.unique hv'
    rw [SLE.getFieldH256, hroots _ root hroot (hv.denotes.keyed _ _ hroot)]
  have hmem (key : UInt256) (n : Nat) : (key, n) ∈ log ↔ ∃ ks, ps.find? n = some ks ∧ key ∈ ks := by
    rw [← hp.mem_iff, Pages.mem_entries]
  have hlogged (n : Nat) (hn : ps.Has n) (h0 : n ≠ 0) : ∃ key, (key, n) ∈ log := by
    have ⟨ks, hks⟩ := isSome_iff_exists.mp hn
    have ⟨key, hkey⟩ := exists_mem_of_ne_nil _ ((hw.page n ks hks).right.right h0)
    exact ⟨key, (hmem key n).mpr ⟨ks, hks, hkey⟩⟩
  have hhas (e : UInt256 × Nat) (he : e ∈ log) : ps.Has e.2 := by
    have ⟨ks, hks, _⟩ := (hmem e.1 e.2).mp he
    exact Pages.has_of_find? hks
  cases hf : ps.find? 0
  case none =>
    rw [hh.none 0 (by decide) hf] at hroot
    cases hroot
  case some ks =>
    by_cases hne : ks = []
    case neg =>
      have ⟨key, hkey⟩ := exists_mem_of_ne_nil _ hne
      have hin := (hmem key 0).mpr ⟨ks, hf, hkey⟩
      have ⟨v', hrun, hsame⟩ := emptyDirDelete_keys hv hh hroot hindex hf hne
      refine iff_of_true ⟨false, v', hrun, ?_, nofun, fun _ => hsame⟩ (.inl ⟨key, hin⟩)
      exact iff_of_false nofun (ne_nil_of_mem hin)
    case pos =>
      subst hne
      have hnot (key : UInt256) : (key, 0) ∉ log := fun hin => by
        have ⟨ks, hks, hkey⟩ := (hmem key 0).mp hin
        cases hf.symm.trans hks
        cases hkey
      by_cases halone : ∀ m, ps.Has m → m = 0
      case pos =>
        have hempty : log = [] := by
          refine eq_nil_iff_forall_not_mem.mpr fun e he => hnot e.1 ?_
          rw [← halone _ (hhas e he)]
          exact he
        have ⟨v', M', hrun, hv', hh'⟩ := emptyDirDelete_alone hv hh hroot hindex hd hf halone
        refine iff_of_true ⟨true, v', hrun, iff_of_true rfl hempty, fun _ n hn => ?_, nofun⟩ ?_
        · rw [hv'.read]
          change (M' (pageKey dir n)).filter _ = none
          rw [hh'.none n hn rfl]
          rfl
        · exact .inr fun e he => absurd (hempty ▸ he) not_mem_nil
      case neg =>
        have ⟨n, hn⟩ := not_forall.mp halone
        have ⟨hn, h0⟩ := Classical.not_imp.mp hn
        have ⟨key, hkey⟩ := hlogged n hn h0
        have hne : log ≠ [] := ne_nil_of_mem hkey
        by_cases hall : ∀ m, ps.Has m → m = 0 ∨ m = n
        case pos =>
          have ⟨v', hrun, hsame⟩ := emptyDirDelete_two hv hh hroot hindex hw hf h0 hn hall
          refine iff_of_true ⟨false, v', hrun, iff_of_false nofun hne, nofun, fun _ => hsame⟩ ?_
          have hpage (e : UInt256 × Nat) (he : e ∈ log) : e.2 = n :=
            (hall _ (hhas e he)).resolve_left fun h => hnot e.1 (h ▸ he)
          exact .inr fun e he e' he' => (hpage e he).trans (hpage e' he').symm
        case neg =>
          have ⟨m, hm⟩ := not_forall.mp hall
          have ⟨hm, hmn⟩ := Classical.not_imp.mp hm
          have ⟨hm0, hmn⟩ := not_or.mp hmn
          have ⟨key', hkey'⟩ := hlogged m hm hm0
          have ⟨v', hrun⟩ : ∃ v', v.emptyDirDelete ⟨.ltDIR_NODE, dir⟩ = .ok (true, v') := by
            rcases Nat.lt_or_gt_of_ne hmn with hlt | hlt
            · exact emptyDirDelete_more hv hh hroot hindex hf hm hn hm0 hlt
            · exact emptyDirDelete_more hv hh hroot hindex hf hn hm h0 hlt
          refine iff_of_false ?_ ?_
          · rintro ⟨r, _, hrun', hiff, _⟩
            cases hrun.symm.trans hrun'
            exact hne (hiff.mp rfl)
          · rintro (⟨key, hin⟩ | hsame)
            · exact hnot key hin
            · exact hmn (hsame _ hkey' _ hkey)

end Directory

namespace Directory

section Instance

attribute [local instance] pageDigest

-- Keys are appended to the directory, or removed from its root.

def fill : List UInt256 → ApplyView → List (UInt256 × Nat) →
    Except String (ApplyView × List (UInt256 × Nat))
  | [], v, log => .ok (v, log)
  | key :: keys, v, log =>
    if key ∈ log.map Prod.fst then
      .error "double insertion"
    else do
      let (r, v) ← v.dirAppend ⟨.ltDIR_NODE, 1⟩ key id
      fill keys v (log ++ (r.map fun n => (key, n.toNat)).toList)

def drain : List UInt256 → ApplyView → List (UInt256 × Nat) →
    Except String (ApplyView × List (UInt256 × Nat))
  | [], v, log => .ok (v, log)
  | key :: keys, v, log => do
    let (r, v) ← v.dirRemove ⟨.ltDIR_NODE, 1⟩ 0 key true
    drain keys v (if r then log.erase (key, 0) else log)

theorem Built.fill {keys : List UInt256} (hb : Built 1 v log)
    (h : fill keys v log = .ok (v', log')) : Built 1 v' log' := by
  induction keys generalizing v log
  case nil => cases h; exact hb
  case cons key keys hi =>
    unfold Directory.fill at h
    have ⟨hnot, h⟩ := Except.ite_error_eq_ok.mp h
    have ⟨⟨r, v₁⟩, hrun, h⟩ := Except.bind_eq_ok.mp h
    have hkey (n : Nat) : (key, n) ∉ log := fun hin => hnot (mem_map_of_mem hin)
    exact hi (hb.add hkey (fun _ => ⟨rfl, rfl, fun _ _ => rfl⟩) hrun) h

theorem Built.drain {keys : List UInt256} (hb : Built 1 v log)
    (h : drain keys v log = .ok (v', log')) : Built 1 v' log' := by
  induction keys generalizing v log
  case nil => cases h; exact hb
  case cons key keys hi =>
    have ⟨⟨r, v₁⟩, hrun, h⟩ := Except.bind_eq_ok.mp h
    exact hi (hb.remove (by decide) hrun) h

-- `n` keys are added, and then the first `m` ones are removed.
def drained (n m : Nat) : Except String (ApplyView × List (UInt256 × Nat)) := do
  let (v, log) ← fill ((List.range' 1 n).map (.ofNat 256)) noPages []
  drain ((List.range' 1 m).map (.ofNat 256)) v log

theorem built_drained {m : Nat} (h : drained n m = .ok (v, log)) : Built 1 v log := by
  have ⟨⟨v₁, log₁⟩, h₁, h⟩ := Except.bind_eq_ok.mp h
  have hstart : Built 1 noPages [] := .start (.init (ReadView.Ledger.denotes _)) fun _ _ => rfl
  exact (hstart.fill h₁).drain h

-- The only key is added and removed.
theorem emptyDirDelete_truthful_iff_oneKey : ∃ v log, Built 1 v log ∧
    (v.view.read ⟨.ltDIR_NODE, 1⟩).isSome ∧ Compact log ∧ Truthful 1 v log := by
  have h : (drained 1 1).toOption.any fun r => (r.1.view.read ⟨.ltDIR_NODE, 1⟩).isSome ∧ r.2 = [] := by
    decide +kernel
  cases hr : drained 1 1
  case error => rw [hr] at h; cases h
  case ok r =>
    rw [hr] at h
    have ⟨hroot, hlog⟩ := of_decide_eq_true h
    have hb := built_drained hr
    have hc : Compact r.2 := .inr fun e he => absurd (hlog ▸ he) not_mem_nil
    exact ⟨r.1, r.2, hb, hroot, hc, (emptyDirDelete_truthful_iff distinct_one hb hroot).mpr hc⟩

-- A directory of three pages whose root is empty is said to be deleted. All its other keys are still
-- there.
theorem emptyDirDelete_threePages : ∃ v log v', Built 1 v log ∧
    (v.view.read ⟨.ltDIR_NODE, 1⟩).isSome ∧ log.length = 33 ∧
    v.emptyDirDelete ⟨.ltDIR_NODE, 1⟩ = .ok (true, v') ∧
    (v'.view.read (.page 1 1)).isSome ∧ ¬Truthful 1 v log := by
  have h : (drained 65 32).toOption.any fun r => (r.1.view.read ⟨.ltDIR_NODE, 1⟩).isSome ∧
      r.2.length = 33 ∧ (r.1.emptyDirDelete ⟨.ltDIR_NODE, 1⟩).toOption.any fun d =>
        d.1 ∧ (d.2.view.read (.page 1 1)).isSome := by
    decide +kernel
  cases hr : drained 65 32
  case error => rw [hr] at h; cases h
  case ok r =>
    rw [hr] at h
    have ⟨hroot, hlen, hd⟩ := of_decide_eq_true h
    cases hrun : r.1.emptyDirDelete ⟨.ltDIR_NODE, 1⟩
    case error => rw [hrun] at hd; cases hd
    case ok d =>
      rw [hrun] at hd
      have ⟨b, v'⟩ := d
      have ⟨hb, hpage⟩ := of_decide_eq_true hd
      subst hb
      refine ⟨r.1, r.2, v', built_drained hr, hroot, hlen, hrun, hpage, ?_⟩
      rintro ⟨_, _, hrun', hiff, _⟩
      cases hrun.symm.trans hrun'
      rw [hiff.mp rfl] at hlen
      cases hlen

end Instance

end Directory
