import Bixd.Ledger.Directory.Theorems.Pages

open List OrderedMap

-- Iterations pass all keys, in the order of the pages.

namespace Pages

variable {ps : Pages}

theorem next_of_toList (h : ps.toList = l ++ (n, ks) :: r) (hm : Ring.Next 0 ps.Has n m) :
    match r with
    | [] => m = 0
    | e :: _ => m = e.1 := by
  have hs := h ▸ ps.sorted_toList
  have ⟨_, hr, hl⟩ := pairwise_append.mp hs
  have ⟨hgt, hrs⟩ := pairwise_cons.mp hr
  have hhas (e : Nat × List UInt256) (he : e ∈ r) : ps.Has e.1 := by
    have hmem : e ∈ ps.toList := by rw [h]; simp [he]
    exact has_of_find? (mem_toList.mp hmem)
  obtain ⟨hm, hlt, hmin⟩ | ⟨hm, hmax⟩ := hm
  case inl =>
    have ⟨ks', hks'⟩ := Option.isSome_iff_exists.mp hm
    have hmem : (m, ks') ∈ r := by
      have hmem := mem_toList.mpr hks'
      rw [h, mem_append, mem_cons] at hmem
      obtain hmem | hmem | hmem := hmem
      case inl => exact absurd (hl _ hmem _ (mem_cons_self ..)) hlt.not_gt
      case inr.inl => exact absurd (congrArg Prod.fst hmem) hlt.ne'
      case inr.inr => exact hmem
    match r with
    | e :: r =>
      refine le_antisymm (hmin _ (hhas e (mem_cons_self ..)) (hgt e (mem_cons_self ..))) ?_
      obtain hmem | hmem := mem_cons.mp hmem
      case inl => exact (congrArg Prod.fst hmem).ge
      case inr => exact ((pairwise_cons.mp hrs).left _ hmem).le
  case inr =>
    match r with
    | [] => exact hm
    | e :: r =>
      have hle := hmax _ (hhas e (mem_cons_self ..))
      exact absurd (hgt e (mem_cons_self ..)) hle.not_gt

theorem map_listing : ∀ l : List (Nat × List UInt256), (listing l).map Prod.fst = l.flatMap Prod.snd
  | [] => rfl
  | (n, ks) :: l => by
    rw [listing, map_append, map_listing l, map_map, flatMap_cons]
    exact congrArg (· ++ _) (map_id ks)

end Pages

namespace Directory

-- The position is on a page with the pages `r` after it, and the keys `es` are still to come.
def At (ps : Pages) (r : List (Nat × List UInt256)) (pos : DirPos) (es : List UInt256) : Prop :=
  ∃ l n ks, (ps.toList = l ++ (n, ks) :: r) ∧ IsPage ps n ks pos.sleNode ∧
    (es = ks.drop pos.uDirEntry ++ r.flatMap Prod.snd)

variable {S : Type}

-- What is fetched are the entries `M`, from states with the property `R`.
def Fetches (fetch : S → Keylet → Option SLE × S) (R : S → Prop) (M : UInt256 → Option SLE) : Prop :=
  ∀ s k, R s → (fetch s k).1 = (M k.key).filter k.check ∧ R (fetch s k).2

theorem fetches_readView {view : ReadView} (h : view.Denotes M) :
    Fetches ReadView.fetch (· = view) M := by
  rintro _ k rfl
  exact ⟨h.read k, rfl⟩

theorem fetches_applyView : Fetches ApplyView.fetch (ApplyView.Shows B M) M := by
  intro v k h
  have ⟨v', hv', he, hs, _⟩ := h.peek k
  exact ⟨hs, hv' ▸ he.shows⟩

variable [Digest]

theorem dirStep_spec (hf : Fetches fetch R M) (h : Holds dir M ps) (hs : R s)
    (hpos : At ps r pos es) (hfuel : r.length < fuel) :
    ∃ pos' s', dirStep fetch dir fuel s pos = some ((es.head?, pos'), s') ∧ R s' ∧
      (es ≠ [] → ∃ r', r'.length ≤ r.length ∧ At ps r' pos' es.tail) := by
  induction fuel generalizing s pos r
  case zero => exact absurd hfuel (Nat.not_lt_zero _)
  case succ fuel hi =>
    have ⟨l, n, ks, hl, hp, hes⟩ := hpos
    have ⟨sleNode, u⟩ := pos
    unfold dirStep
    simp only [hp.indexes]
    cases hk : ks[u]?
    case some k =>
      have ⟨hu, hk⟩ := List.getElem?_eq_some_iff.mp hk
      rw [hes, drop_eq_getElem_cons hu, hk]
      exact ⟨_, s, rfl, hs, fun _ => ⟨r, le_rfl, l, n, ks, hl, hp, rfl⟩⟩
    case none =>
      -- All keys of the page have been passed.
      rw [drop_eq_nil_of_le (getElem?_eq_none_iff.mp hk), nil_append] at hes
      have hlink := Pages.next_of_toList hl hp.next
      match r with
      | [] =>
        subst hes
        exact ⟨_, s, if_pos (toNat_eq_zero.mp hlink), hs, absurd rfl⟩
      | (n', ks') :: r =>
        have hl' : ps.toList = (l ++ [(n, ks)]) ++ (n', ks') :: r := by simp [hl]
        have hf' : ps.find? n' = some ks' := mem_toList.mp (by simp [hl'])
        have h0 : sleNode.getFieldU64 sfIndexNext ≠ 0 := by
          have hlt : n < n' := by
            have hs := hl ▸ ps.sorted_toList
            exact (pairwise_cons.mp (pairwise_append.mp hs).right.left).left _
              (mem_cons_self ..)
          intro h0
          rw [toNat_eq_zero.mpr h0] at hlink
          exact absurd hlink (Nat.zero_lt_of_lt hlt).ne
        have ⟨s', hs', hp'⟩ := h.page n' ks' hf'
        have ⟨hfetch, hstate⟩ := hf s (.page dir (sleNode.getFieldU64 sfIndexNext)) hs
        rw [page_key, hlink, hs', Option.filter_some, if_pos (hp'.check _)] at hfetch
        have hat : At ps r ⟨s', 0⟩ es := ⟨_, n', ks', hl', hp', hes⟩
        have ⟨pos', t, ht, hrt, hat⟩ := hi hstate hat (Nat.lt_of_succ_lt_succ hfuel)
        refine ⟨pos', t, ?_, hrt, fun hne => ?_⟩
        · rw [if_neg h0, ← ht]
          generalize fetch s (.page dir (sleNode.getFieldU64 sfIndexNext)) = f at hfetch
          have ⟨_, s⟩ := f
          cases hfetch
          rfl
        · have ⟨r', hr', hat⟩ := hat hne
          exact ⟨r', Nat.le_succ_of_le hr', hat⟩

theorem dirCollect_spec (hf : Fetches fetch R M) (h : Holds dir M ps) (hs : R s)
    (hpos : At ps r pos es) (hfuel : es.length + r.length < fuel) :
    ∃ s', dirCollect fetch dir fuel s pos = some (es, s') ∧ R s' := by
  induction fuel generalizing s pos r es
  case zero => exact absurd hfuel (Nat.not_lt_zero _)
  case succ fuel hi =>
    have ⟨pos', s₁, hstep, hs₁, hat⟩ :=
      dirStep_spec hf h hs hpos (Nat.lt_of_le_of_lt (Nat.le_add_left ..) hfuel)
    unfold dirCollect
    rw [hstep]
    match es with
    | [] => exact ⟨s₁, rfl, hs₁⟩
    | e :: es =>
      have ⟨r', hr', hat⟩ := hat nofun
      have hlt : es.length + r'.length < fuel := by
        rw [length_cons] at hfuel
        omega
      have ⟨s₂, hrest, hs₂⟩ := hi hs₁ hat hlt
      simp only [tail_cons] at hrest
      exact ⟨s₂, by simp only [head?_cons, hrest, Option.map_some], hs₂⟩

theorem dirEntries_spec (hf : Fetches fetch R M) (h : Holds dir M ps) (hs : R s)
    (hroot : ps.Has 0) (hfuel : ps.entries.length + ps.toList.length < fuel) :
    ∃ s', dirEntries fetch dir fuel s = some (ps.entries.map Prod.fst, s') ∧ R s' := by
  obtain ⟨ks, hks⟩ := Option.isSome_iff_exists.mp hroot
  obtain ⟨l, r, hl, _, _, hlt, _⟩ := toList_split hks
  have hnil : l = [] :=
    eq_nil_iff_forall_not_mem.mpr fun e he => absurd (hlt e he) (Nat.not_lt_zero _)
  subst hnil
  have hes : ps.entries.map Prod.fst = ks ++ r.flatMap Prod.snd := by
    rw [Pages.entries, Pages.map_listing, hl]
    rfl
  obtain ⟨s₀, hs₀, hp⟩ := h.page 0 ks hks
  obtain ⟨hfetch, hstate⟩ := hf s (.page dir 0) hs
  rw [page_key, UInt64.toNat_zero, hs₀, Option.filter_some, if_pos (hp.check 0)] at hfetch
  unfold dirEntries
  generalize fetch s (.page dir 0) = f at hfetch hstate
  obtain ⟨_, s₁⟩ := f
  cases hfetch
  refine dirCollect_spec (r := r) hf h hstate ⟨[], 0, ks, hl, hp, hes⟩ ?_
  rw [hl] at hfuel
  rw [length_map]
  exact lt_of_le_of_lt (Nat.add_le_add_left (Nat.le_succ _) _) hfuel

end Directory
