import Bixd.Ledger.Directory
import Bixd.Lib.Ring

open List OrderedMap

-- What directories are about: keys on numbered pages.
abbrev Pages := OrderedMap Nat (List UInt256)

namespace Pages

variable {ps : Pages} {ks : List UInt256}

def Has (ps : Pages) (n : Nat) : Prop :=
  (ps.find? n).isSome

-- All keys with their pages, in the order of the pages.
def listing : List (Nat × List UInt256) → List (UInt256 × Nat)
  | [] => []
  | (n, ks) :: l => ks.map (·, n) ++ listing l

def entries (ps : Pages) : List (UInt256 × Nat) :=
  listing ps.toList

-- A key is placed on a page, after all others or sorted.
def place (preserveOrder : Bool) (ks : List UInt256) (key : UInt256) : List UInt256 :=
  if preserveOrder then
    ks ++ [key]
  else
    let ks := ks.insertionSort (· ≤ ·)
    ks.insertIdx (ks.findIdx (key ≤ ·)) key

-- A key is added to the last page or, if that is full, to a new one.
def add (preserveOrder : Bool) (ps : Pages) (key : UInt256) : Option (Nat × Pages) :=
  match ps.toList.getLast? with
  | none => some (0, ps.insert 0 [key])
  | some (n, ks) =>
    if ks.length < dirNodeMaxEntries then
      some (n, ps.insert n (place preserveOrder ks key))
    else if n + 1 < dirNodeMaxPages.toNat then
      some (n + 1, ps.insert (n + 1) [key])
    else
      none

-- A key is removed from its page. A page that is empty then is removed as well, except for the root,
-- which is removed with the directory only.
def remove (ps : Pages) (n : Nat) (key : UInt256) (keepRoot : Bool) : Option Pages :=
  match ps.find? n with
  | none    => none
  | some ks =>
    if key ∉ ks then
      none
    else if ks.erase key ≠ [] then
      some (ps.insert n (ks.erase key))
    else
      let ps' := if n = 0 then ps.insert 0 [] else ps.erase n
      if !keepRoot ∧ ps'.toList = [(0, [])] then
        some ∅
      else
        some ps'

-- The root is there if any page is. Other pages are not empty.
structure WellFormed (ps : Pages) : Prop where
  root : ∀ n, ps.Has n → ps.Has 0
  page : ∀ n ks, ps.find? n = some ks →
    n < dirNodeMaxPages.toNat ∧ ks.length ≤ dirNodeMaxEntries ∧ (n ≠ 0 → ks ≠ [])

theorem wellFormed_empty : WellFormed ∅ :=
  ⟨nofun, nofun⟩

theorem perm_place : (place preserveOrder ks key).Perm (key :: ks) := by
  unfold place
  split
  case isTrue => exact perm_append_singleton ..
  case isFalse =>
    have hle : (ks.insertionSort (· ≤ ·)).findIdx (key ≤ ·) ≤ _ := findIdx_le_length
    exact (perm_insertIdx _ _ hle).trans ((perm_insertionSort ..).cons _)

theorem length_place : (place preserveOrder ks key).length = ks.length + 1 :=
  perm_place.length_eq

theorem place_ne_nil : place preserveOrder ks key ≠ [] :=
  fun h => absurd (congrArg length h) (by simp [length_place])

theorem has_insert : Has (ps.insert n ks) m ↔ ps.Has m ∨ m = n := by
  unfold Has
  rw [find?_insert]
  split
  case isTrue h => simp [h]
  case isFalse h => simp [h]

theorem has_insert_of_has (h : ps.Has n) : Has (ps.insert n ks) m ↔ ps.Has m := by
  rw [has_insert, or_iff_left_of_imp]
  rintro rfl
  exact h

theorem has_erase : Has (ps.erase n) m ↔ ps.Has m ∧ m ≠ n := by
  unfold Has
  rw [find?_erase]
  split
  case isTrue h => simp [h]
  case isFalse h => simp [h]

theorem has_of_find? (h : ps.find? n = some ks) : ps.Has n :=
  Option.isSome_iff_exists.mpr ⟨ks, h⟩

section

variable (h : ps.WellFormed)

include h

theorem WellFormed.has_root (hne : ps ≠ ∅) : ps.Has 0 := by
  by_contra hroot
  refine hne (ext fun n => ?_)
  exact Option.not_isSome_iff_eq_none.mp fun hn => hroot (h.root n hn)

theorem WellFormed.insert (hroot : n ≠ 0 → ps.Has 0) (hn : n < dirNodeMaxPages.toNat)
    (hlen : ks.length ≤ dirNodeMaxEntries) (hne : n ≠ 0 → ks ≠ []) :
    WellFormed (ps.insert n ks) := by
  refine ⟨fun m hm => has_insert.mpr ?_, fun m ks' hm => ?_⟩
  · by_cases h0 : n = 0
    case pos => exact .inr h0.symm
    case neg => exact .inl (hroot h0)
  · rw [find?_insert] at hm
    split at hm
    case isTrue heq =>
      cases hm
      exact heq ▸ ⟨hn, hlen, hne⟩
    case isFalse => exact h.page m ks' hm

theorem WellFormed.erase (hn : n ≠ 0) : WellFormed (ps.erase n) := by
  refine ⟨fun m hm => ?_, fun m ks hm => ?_⟩
  · exact has_erase.mpr ⟨h.root m (has_erase.mp hm).left, hn.symm⟩
  · rw [find?_erase] at hm
    have ⟨_, hm⟩ := Option.ite_none_left_eq_some.mp hm
    exact h.page m ks hm

theorem WellFormed.add (ha : ps.add preserveOrder key = some (n, ps')) : ps'.WellFormed := by
  unfold Pages.add at ha
  split at ha
  case h_1 =>
    cases ha
    exact h.insert (absurd rfl) (by decide) (Nat.le_of_ble_eq_true rfl) (absurd rfl)
  case h_2 last ks hlast =>
    have ⟨hf, _⟩ := getLast?_toList_eq_some hlast
    have hroot := h.root last (has_of_find? hf)
    have ⟨hlt, _, _⟩ := h.page last ks hf
    split_ifs at ha with hlen hmax <;> cases ha
    case pos => exact h.insert (fun _ => hroot) hlt (length_place.trans_le hlen) fun _ => place_ne_nil
    case pos => exact h.insert (fun _ => hroot) hmax (Nat.le_of_ble_eq_true rfl) fun _ => cons_ne_nil _ _

theorem WellFormed.remove (hr : ps.remove n key keepRoot = some ps') : ps'.WellFormed := by
  unfold Pages.remove at hr
  split at hr
  case h_1 => cases hr
  case h_2 ks hf =>
    have ⟨hlt, hlen, _⟩ := h.page n ks hf
    have hroot := h.root n (has_of_find? hf)
    have hle : (ks.erase key).length ≤ dirNodeMaxEntries := (length_erase_le ..).trans hlen
    dsimp only at hr
    split_ifs at hr with hk hne h0 hd h0' <;> cases hr
    case pos => exact h.insert (fun _ => hroot) hlt hle fun _ => hne
    case pos => exact wellFormed_empty
    case neg => exact h.insert (absurd rfl) (by decide) (Nat.zero_le _) (absurd rfl)
    case pos => exact wellFormed_empty
    case neg => exact h.erase h0

end

-- What becomes of the entries.

theorem listing_append (l r : List (Nat × List UInt256)) :
    listing (l ++ r) = listing l ++ listing r := by
  induction l
  case nil => rfl
  case cons e l hi => rw [cons_append, listing, hi, listing, append_assoc]

theorem mem_listing : (key, n) ∈ listing l ↔ ∃ ks, (n, ks) ∈ l ∧ key ∈ ks := by
  induction l
  case nil => simp [listing]
  case cons e l hi =>
    rw [listing, mem_append, hi]
    simp only [mem_map, Prod.mk.injEq, mem_cons, or_and_right, exists_or]
    refine or_congr_left ⟨?_, ?_⟩
    · rintro ⟨_, hk, rfl, rfl⟩
      exact ⟨e.2, rfl, hk⟩
    · rintro ⟨ks, rfl, hk⟩
      exact ⟨key, hk, rfl, rfl⟩

theorem mem_entries : (key, n) ∈ ps.entries ↔ ∃ ks, ps.find? n = some ks ∧ key ∈ ks := by
  simp only [entries, mem_listing, mem_toList]

theorem entries_insert_of_lt (h : ∀ m, ps.Has m → m < n) :
    entries (ps.insert n ks) = ps.entries ++ ks.map (·, n) := by
  have hl := toList_insert_of_lt (v := ks) fun m hm => h m (mem_keys.mp hm)
  rw [entries, hl, listing_append, listing, listing, append_nil]
  rfl

theorem entries_insert_last (hf : ps.find? n = some ks) (h : ∀ m, ps.Has m → m ≤ n) :
    ∃ es, (ps.entries = es ++ ks.map (·, n)) ∧
      ∀ ks', entries (ps.insert n ks') = es ++ ks'.map (·, n) := by
  have ⟨l, r, hl, hins, _, _, hr⟩ := toList_split hf
  have hnil : r = [] := by
    refine eq_nil_iff_forall_not_mem.mpr fun e he => ?_
    have hm : e ∈ ps.toList := by rw [hl]; simp [he]
    exact absurd (h e.1 (has_of_find? (mem_toList.mp hm))) (not_le.mpr (hr e he))
  subst hnil
  refine ⟨listing l, ?_, fun ks' => ?_⟩
  · rw [entries, hl, listing_append, listing, listing, append_nil]
  · rw [entries, hins, listing_append, listing, listing, append_nil]

theorem entries_add_append (h : ps.add true key = some (n, ps')) :
    ps'.entries = ps.entries ++ [(key, n)] := by
  unfold add at h
  split at h
  case h_1 hnone =>
    cases h
    rw [getLast?_toList_eq_none.mp hnone]
    exact entries_insert_of_lt nofun
  case h_2 last ks hlast =>
    have ⟨hf, hle⟩ := getLast?_toList_eq_some hlast
    split_ifs at h <;> cases h
    case pos =>
      have ⟨es, hes, hins⟩ := entries_insert_last hf hle
      rw [hins, hes, append_assoc]
      simp [place]
    case pos => exact entries_insert_of_lt fun m hm => Nat.lt_succ_of_le (hle m hm)

theorem perm_entries_add (h : ps.add preserveOrder key = some (n, ps')) :
    ps'.entries.Perm ((key, n) :: ps.entries) := by
  unfold add at h
  split at h
  case h_1 hnone =>
    cases h
    rw [getLast?_toList_eq_none.mp hnone]
    exact .refl _
  case h_2 last ks hlast =>
    have ⟨hf, hle⟩ := getLast?_toList_eq_some hlast
    split_ifs at h <;> cases h
    case pos =>
      have ⟨es, hes, hins⟩ := entries_insert_last hf hle
      rw [hins, hes]
      refine ((perm_place.map (·, n)).append_left es).trans ?_
      exact perm_middle
    case pos =>
      rw [entries_insert_of_lt fun m hm => Nat.lt_succ_of_le (hle m hm)]
      exact perm_append_singleton ..

theorem remove_eq_none : ps.remove n key keepRoot = none ↔ (key, n) ∉ ps.entries := by
  unfold remove
  rw [mem_entries]
  cases ps.find? n
  case none => simp
  case some ks =>
    dsimp only
    split_ifs with hk hne h0 hd h0' <;> simp_all

theorem entries_remove (h : ps.remove n key keepRoot = some ps') :
    ps'.entries = ps.entries.erase (key, n) := by
  unfold remove at h
  split at h
  case h_1 => cases h
  case h_2 ks hf =>
    have ⟨l, r, hl, hins, her, hlt, _⟩ := toList_split hf
    have hnot : (key, n) ∉ listing l := fun hm => by
      have ⟨ks, hks, _⟩ := mem_listing.mp hm
      exact lt_irrefl _ (hlt _ hks)
    have hinj : Function.Injective fun k : UInt256 => (k, n) := fun _ _ h => congrArg Prod.fst h
    by_cases hk : key ∈ ks
    case neg =>
      rw [if_pos hk] at h
      cases h
    have hpage : ps.entries.erase (key, n) = listing (l ++ (n, ks.erase key) :: r) := by
      rw [entries, hl, listing_append, listing_append, erase_append_right _ hnot, listing,
        listing, erase_append_left _ (mem_map_of_mem hk), map_erase hinj]
    rw [if_neg (not_not.mpr hk)] at h
    by_cases hnil : ks.erase key = []
    case neg =>
      rw [if_pos hnil] at h
      cases h
      rw [hpage, entries, hins]
    -- A page without keys has no entries.
    have hdone : entries (if n = 0 then ps.insert 0 [] else ps.erase n) =
        ps.entries.erase (key, n) := by
      rw [hpage, hnil]
      split
      case isTrue h0 =>
        subst h0
        rw [entries, hins]
      case isFalse =>
        rw [entries, her, listing_append, listing_append, listing]
        rfl
    rw [if_neg (not_not.mpr hnil)] at h
    generalize (if n = 0 then ps.insert 0 [] else ps.erase n) = ps₁ at h hdone
    dsimp only at h
    split at h
    case isTrue hroot =>
      cases h
      rw [← hdone, entries, entries, hroot.right]
      rfl
    case isFalse =>
      cases h
      exact hdone

theorem getLast?_of_prev (h : Ring.Prev 0 ps.Has 0 last) :
    ∃ ks, ps.find? last = some ks ∧ ps.toList.getLast? = some (last, ks) ∧
      ∀ m, ps.Has m → m ≤ last := by
  have ⟨hlast, hmax⟩ := h
  replace hmax : ∀ m, ps.Has m → m ≤ last := hmax.elim (absurd rfl ·.left) And.right
  have ⟨ks, hks⟩ := Option.isSome_iff_exists.mp hlast
  cases hl : ps.toList.getLast?
  case none =>
    rw [getLast?_toList_eq_none.mp hl] at hks
    cases hks
  case some e =>
    have ⟨hf, hle⟩ := getLast?_toList_eq_some hl
    have heq : e.1 = last := le_antisymm (hmax _ (has_of_find? hf)) (hle last hlast)
    refine ⟨ks, hks, congrArg some ?_, hmax⟩
    rw [heq, hks] at hf
    exact Prod.ext heq (Option.some.inj hf).symm

theorem toList_eq_root : ps.toList = [(0, ks)] ↔ ps.find? 0 = some ks ∧ ∀ m, ps.Has m → m = 0 := by
  constructor
  case mp =>
    intro h
    have hmem (m : Nat) (ks' : List UInt256) (hm : ps.find? m = some ks') :
        (m, ks') ∈ [(0, ks)] := h ▸ mem_toList.mpr hm
    refine ⟨mem_toList.mp (h ▸ mem_singleton_self _), fun m hm => ?_⟩
    have ⟨ks', hks'⟩ := Option.isSome_iff_exists.mp hm
    exact congrArg Prod.fst (mem_singleton.mp (hmem m ks' hks'))
  case mpr =>
    rintro ⟨hf, hall⟩
    refine toList_eq (pairwise_singleton _ _) fun m ks' => ?_
    rw [mem_singleton]
    constructor
    case mp => rintro ⟨⟩; exact hf
    intro hm
    have h0 := hall m (has_of_find? hm)
    subst h0
    rw [hf] at hm
    rw [Option.some.inj hm]

end Pages
