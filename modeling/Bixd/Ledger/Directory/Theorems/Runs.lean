import Bixd.Ledger.Directory.Theorems.Add
import Bixd.Ledger.Directory.Theorems.Remove
import Bixd.Ledger.Directory.Theorems.Iterate

open List Pages Serializer

namespace Directory

variable [Digest]

-- A directory which is built from nothing, always in the same order. The log has the keys that are
-- in it with the pages that have been returned for them. Other entries may change at any time, and
-- the view may be another one that has the same pages.
inductive Reachable (dir : UInt256) (preserveOrder : Bool) :
    ApplyView → List (UInt256 × Nat) → Prop
  | start {B M v} :
    v.Shows B M →
    (∀ n < dirNodeMaxPages.toNat, M (pageKey dir n) = none) →
    Reachable dir preserveOrder v []
  | add {v v' log key describe r} :
    Reachable dir preserveOrder v log →
    (∀ n, (key, n) ∉ log) →
    Describes describe →
    v.dirAdd preserveOrder ⟨.ltDIR_NODE, dir⟩ key describe = .ok (r, v') →
    Reachable dir preserveOrder v' (log ++ (r.map fun n => (key, n.toNat)).toList)
  | remove {v v' log key page keepRoot r} :
    Reachable dir preserveOrder v log →
    UInt64.toNat page < dirNodeMaxPages.toNat →
    v.dirRemove ⟨.ltDIR_NODE, dir⟩ page key keepRoot = .ok (r, v') →
    Reachable dir preserveOrder v' (if r then log.erase (key, page.toNat) else log)
  | other {B M B' M' v v' log} :
    Reachable dir preserveOrder v log →
    v.Shows B M →
    v'.Shows B' M' →
    (∀ n < dirNodeMaxPages.toNat, M' (pageKey dir n) = M (pageKey dir n)) →
    Reachable dir preserveOrder v' log

variable {dir key : UInt256} {preserveOrder : Bool} {v : ApplyView} {log : List (UInt256 × Nat)}
variable {B M : UInt256 → Option SLE} {ps : Pages}

-- The pages have what is in the log.
structure Logged (preserveOrder : Bool) (log : List (UInt256 × Nat)) (ps : Pages) : Prop where
  wellFormed : ps.WellFormed
  keys       : (log.map Prod.fst).Nodup
  perm       : ps.entries.Perm log
  ordered    : preserveOrder → ps.entries = log

omit [Digest] in

theorem Logged.add (h : Logged preserveOrder log ps) (ho : preserveOrder = true → order = true)
    (hkey : ∀ n, (key, n) ∉ log) (ha : ps.add order key = some (n, ps')) :
    Logged preserveOrder (log ++ [(key, n)]) ps' where
  wellFormed := h.wellFormed.add ha
  keys := by
    rw [map_append, nodup_append]
    refine ⟨h.keys, nodup_singleton _, fun k hk k' hk' => ?_⟩
    have ⟨e, he, hek⟩ := mem_map.mp hk
    rintro rfl
    have hkk : k = key := mem_singleton.mp hk'
    exact hkey e.2 (hkk ▸ hek ▸ he)
  perm :=
    (perm_entries_add ha).trans ((h.perm.cons _).trans (perm_append_singleton ..).symm)
  ordered hp := by
    rw [ho hp] at ha
    rw [entries_add_append ha, h.ordered hp]

omit [Digest] in

theorem Logged.remove (h : Logged preserveOrder log ps) (hr : ps.remove n key keepRoot = some ps') :
    Logged preserveOrder (log.erase (key, n)) ps' where
  wellFormed := h.wellFormed.remove hr
  keys := h.keys.sublist (erase_sublist.map _)
  perm := by
    rw [entries_remove hr]
    exact h.perm.erase _
  ordered ho := by rw [entries_remove hr, h.ordered ho]

-- The view has a directory with what is in the log.
def Shown (dir : UInt256) (preserveOrder : Bool) (v : ApplyView) (log : List (UInt256 × Nat)) :
    Prop :=
  ∃ B M ps, v.Shows B M ∧ Holds dir M ps ∧ Logged preserveOrder log ps

namespace Shown

theorem start (hv : v.Shows B M) (hm : ∀ n < dirNodeMaxPages.toNat, M (pageKey dir n) = none) :
    Shown dir preserveOrder v [] :=
  ⟨B, M, ∅, hv, ⟨nofun, fun n hn _ => hm n hn⟩, wellFormed_empty, .nil, .nil, fun _ => rfl⟩

section

variable (hd : Distinct dir) (h : Shown dir preserveOrder v log)

include hd h

theorem add (ho : preserveOrder = true → order = true) (hkey : ∀ n, (key, n) ∉ log)
    (hdesc : Describes describe)
    (hrun : v.dirAdd order ⟨.ltDIR_NODE, dir⟩ key describe = .ok (r, v')) :
    Shown dir preserveOrder v' (log ++ (r.map fun n => (key, n.toNat)).toList) := by
  have ⟨B, M, ps, hv, hh, hl⟩ := h
  have hnot (n : Nat) : (key, n) ∉ ps.entries := fun hm => hkey n (hl.perm.mem_iff.mp hm)
  have ⟨r', v'', M', hrun', he, _, hr⟩ := dirAdd_spec order hd hl.wellFormed hv hh hdesc hnot
  cases hrun.symm.trans hrun'
  match r, hr with
  | none, ⟨_, hm⟩ =>
    rw [Option.map_none, Option.toList_none, append_nil]
    exact ⟨B, M', ps, he.shows, hm ▸ hh, hl⟩
  | some n, ⟨ps', ha, hh'⟩ => exact ⟨B, M', ps', he.shows, hh', hl.add ho hkey ha⟩

theorem remove {page : UInt64} (hpage : page.toNat < dirNodeMaxPages.toNat)
    (hrun : v.dirRemove ⟨.ltDIR_NODE, dir⟩ page key keepRoot = .ok (r, v')) :
    Shown dir preserveOrder v' (if r then log.erase (key, page.toNat) else log) := by
  have ⟨B, M, ps, hv, hh, hl⟩ := h
  have ⟨r', v'', M', hrun', he, _, hr⟩ := dirRemove_spec key keepRoot hd hl.wellFormed hv hh hpage
  cases hrun.symm.trans hrun'
  match r, hr with
  | false, ⟨_, hm⟩ => exact ⟨B, M', ps, he.shows, hm ▸ hh, hl⟩
  | true, ⟨ps', hr, hh'⟩ => exact ⟨B, M', ps', he.shows, hh', hl.remove hr⟩

end

theorem other (h : Shown dir preserveOrder v log) (hv : v.Shows B M) (hv' : v'.Shows B' M')
    (hm : ∀ n < dirNodeMaxPages.toNat, M' (pageKey dir n) = M (pageKey dir n)) :
    Shown dir preserveOrder v' log := by
  have ⟨B₁, M₁, ps, hv₁, hh, hl⟩ := h
  cases hv.unique hv₁
  exact ⟨B', M', ps, hv', hh.congr hl.wellFormed hm, hl⟩

end Shown

theorem Reachable.shown (hd : Distinct dir) (h : Reachable dir preserveOrder v log) :
    Shown dir preserveOrder v log := by
  induction h
  case start hv hm => exact .start hv hm
  case add hkey hdesc hrun hi => exact hi.add hd id hkey hdesc hrun
  case remove hpage hrun hi => exact hi.remove hd hpage hrun
  case other hv hv' hm hi => exact hi.other hv hv' hm

-- No page is empty except for the root, none is too large, and they are linked in the order of
-- their numbers. The keys are where the log says, and iterations pass them once. Keys can be added
-- and removed without errors, and nothing changes if that is refused.
theorem Reachable.directory_complete (hd : Distinct dir) (h : Reachable dir preserveOrder v log) :
    ∃ B M ps, v.Shows B M ∧ Holds dir M ps ∧ ps.WellFormed ∧
      (∀ key n, (key, n) ∈ log ↔ ∃ ks, ps.find? n = some ks ∧ key ∈ ks) ∧
      (ps = ∅ → log = []) ∧
      (ps ≠ ∅ → ∃ keys, keys.Perm (log.map Prod.fst) ∧ keys.Nodup ∧
        (preserveOrder → keys = log.map Prod.fst) ∧ ∃ m, ∀ fuel > m,
          (cdirEntries dir fuel v.view = some (keys, v.view)) ∧
          ∃ v', iterEntries dir fuel v = some (keys, v') ∧ v'.Shows B M) ∧
      (∀ key describe, (∀ n, (key, n) ∉ log) → Describes describe →
        ∃ r v', v.dirAdd preserveOrder ⟨.ltDIR_NODE, dir⟩ key describe = .ok (r, v') ∧
          (r = none → v'.Shows B M)) ∧
      ∀ key (page : UInt64) keepRoot, page.toNat < dirNodeMaxPages.toNat →
        ∃ r v', v.dirRemove ⟨.ltDIR_NODE, dir⟩ page key keepRoot = .ok (r, v') ∧
          (r = true ↔ (key, page.toNat) ∈ log) ∧ (r = false → v'.Shows B M) := by
  have ⟨B, M, ps, hv, hh, hl⟩ := h.shown hd
  have hmem (key : UInt256) (n : Nat) : (key, n) ∈ log ↔ (key, n) ∈ ps.entries :=
    hl.perm.mem_iff.symm
  refine ⟨B, M, ps, hv, hh, hl.wellFormed, fun key n => ?_, ?_, fun hne => ?_, ?_, ?_⟩
  · rw [hmem, mem_entries]
  · rintro rfl
    exact hl.perm.nil_eq.symm
  · have hperm := hl.perm.map Prod.fst
    refine ⟨ps.entries.map Prod.fst, hperm, hperm.nodup_iff.mpr hl.keys, fun ho => ?_,
      ps.entries.length + ps.toList.length, fun fuel hfuel => ?_⟩
    · rw [hl.ordered ho]
    · have hroot := hl.wellFormed.has_root hne
      have ⟨_, hread, hview⟩ := dirEntries_spec (fetches_readView hv.denotes) hh rfl hroot hfuel
      subst hview
      exact ⟨hread, dirEntries_spec fetches_applyView hh hv hroot hfuel⟩
  · intro key describe hkey hdesc
    have hnot (n : Nat) : (key, n) ∉ ps.entries := fun hm => hkey n ((hmem key n).mpr hm)
    have ⟨r, v', M', hrun, he, _, hr⟩ := dirAdd_spec preserveOrder hd hl.wellFormed hv hh hdesc hnot
    refine ⟨r, v', hrun, ?_⟩
    rintro rfl
    exact hr.right ▸ he.shows
  · intro key page keepRoot hpage
    have ⟨r, v', M', hrun, he, _, hr⟩ := dirRemove_spec key keepRoot hd hl.wellFormed hv hh hpage
    rw [hmem]
    match r, hr with
    | false, ⟨hnone, hm⟩ =>
      have hnot := remove_eq_none.mp hnone
      exact ⟨false, v', hrun, iff_of_false Bool.false_ne_true hnot, fun _ => hm ▸ he.shows⟩
    | true, ⟨_, hsome, _⟩ =>
      have hin : (key, page.toNat) ∈ ps.entries := by
        by_contra hnot
        cases (remove_eq_none.mpr hnot).symm.trans hsome
      exact ⟨true, v', hrun, iff_of_true rfl hin, nofun⟩

end Directory

namespace Directory

section Witness

attribute [local instance] pageDigest

theorem toNat_pageKey (h : n < dirNodeMaxPages.toNat) :
    (pageKey 1 n).toNat = if n = 0 then 1 else 2 + n := by
  have hto := toNat_ofNat h
  have hmax : dirNodeMaxPages.toNat = 262144 := rfl
  have h0 : UInt64.ofNat n = 0 ↔ n = 0 := by rw [← toNat_eq_zero, hto]
  unfold pageKey Keylet.page
  simp only [h0]
  split
  case isTrue => rfl
  have hdrop : (add16 (UInt16.ofNat LedgerNameSpace.DIR_NODE.code.toNat) ++
      (addBitString (1 : UInt256) ++ add64 (.ofNat n))).drop 34 =
      add64 (.ofNat n) := by
    rw [← append_assoc]
    exact drop_left' (by simp [add16, addBitString])
  have hval : Bytes.toNat (add64 (.ofNat n)) = n := by
    rw [add64, hto]
    exact Bytes.toNat_ofNat_of_lt (by omega)
  change (BitVec.ofNat 256 (2 + Bytes.toNat (drop 34 _))).toNat = 2 + n
  rw [hdrop, hval, BitVec.toNat_ofNat]
  exact Nat.mod_eq_of_lt (by omega)

theorem distinct_one : Distinct 1 where
  ne_zero n hn h := by
    have h := congrArg BitVec.toNat h
    rw [toNat_pageKey hn] at h
    split at h
    case isTrue => cases h
    case isFalse => exact absurd h (by simp)
  inj n m hn hm h := by
    have h := congrArg BitVec.toNat h
    rw [toNat_pageKey hn, toNat_pageKey hm] at h
    split at h <;> split at h <;> omega

def noPages : ApplyView :=
  ⟨(ReadView.Ledger.blank { seq := 1, drops := 0 } fun _ => true).view, {}⟩

-- A key is added to a directory that is not there yet.
theorem complete_oneKey :
    ∃ v, Reachable 1 true v [(7, 0)] ∧ ∃ B M ps, v.Shows B M ∧ Holds 1 M ps ∧ ps.WellFormed ∧
      ps ≠ ∅ := by
  have hstart : Reachable 1 true noPages [] :=
    .start (.init (ReadView.Ledger.denotes _)) fun _ _ => rfl
  have ⟨v, hrun⟩ : ∃ v, noPages.dirAdd true ⟨.ltDIR_NODE, 1⟩ 7 id = .ok (some 0, v) := ⟨_, rfl⟩
  have h := hstart.add nofun (fun _ => ⟨rfl, rfl, fun _ _ => rfl⟩) hrun
  have ⟨B, M, ps, hs, hh, hw, _, hempty, _⟩ := h.directory_complete distinct_one
  exact ⟨v, h, B, M, ps, hs, hh, hw, fun h => absurd (hempty h) nofun⟩

end Witness

end Directory
