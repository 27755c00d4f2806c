import Bixd.SHAMap.Theorems.History
import Bixd.SHAMap.Theorems.Iterate

open List Option

-- A map is a finite map from keys to items that is ordered by the keys.
namespace SHAMap

open SHAMap.Tree

variable {h h' : NodeHeap} {m m' : SHAMap} {sh : Prop}
variable {k : UInt256} {i : SHAMapItem} {it : ConstIterator} {items : List SHAMapItem}
variable {f : UInt256 → Option SHAMapItem} {ty : LeafType}

-- `f` holds the items of the map.
def Contents (f : UInt256 → Option SHAMapItem) (ts : Fin 16 → Tree) : Prop :=
  ∀ k i, f k = some i ↔ i ∈ (inner ts).items ∧ i.key = k

theorem Contents.mem_iff (c : Contents f ts) : i ∈ (inner ts).items ↔ f i.key = some i := by
  rw [c i.key i]
  simp

theorem Contents.isSome_iff (c : Contents f ts) :
    (f k).isSome ↔ ∃ i ∈ (inner ts).items, i.key = k := by
  rw [isSome_iff_exists]
  exact exists_congr (c k)

theorem Contents.store (c : Contents f ts)
    (hm : ∀ j, j ∈ (inner ts').items ↔ j = i ∨ (j ∈ (inner ts).items ∧ j.key ≠ i.key)) :
    Contents (Function.update f i.key (some i)) ts' := by
  intro k j
  rw [hm, Function.update_apply]
  split
  case isTrue hk =>
    subst hk
    simp only [some.injEq]
    exact ⟨fun he => he ▸ ⟨.inl rfl, rfl⟩, fun ⟨hj, hjk⟩ => (hj.resolve_right (fun hx => hx.right hjk)).symm⟩
  case isFalse hk =>
    rw [c k j]
    refine ⟨fun ⟨hj, hjk⟩ => ⟨.inr ⟨hj, hjk ▸ hk⟩, hjk⟩, fun ⟨hj, hjk⟩ => ⟨?_, hjk⟩⟩
    exact (hj.resolve_left (fun he => hk (he ▸ hjk.symm))).left

theorem Contents.erase (c : Contents f ts)
    (hm : ∀ j, j ∈ (inner ts').items ↔ j ∈ (inner ts).items ∧ j.key ≠ k) :
    Contents (Function.update f k none) ts' := by
  intro k' j
  rw [hm, Function.update_apply]
  split
  case isTrue hk => simp +contextual [hk]
  case isFalse hk =>
    rw [c k' j]
    exact ⟨fun ⟨hj, hjk⟩ => ⟨⟨hj, hjk ▸ hk⟩, hjk⟩, fun ⟨hj, hjk⟩ => ⟨hj.left, hjk⟩⟩

section Lookup

variable [Digest]

theorem findKey_spec (v : Valid h m sh ts S) (k : UInt256) :
    ∃ r, m.findKey h k = .ok r ∧
      ∀ ty i, r = some (ty, i) ↔ (inner ts).walk k 0 = some (ty, i) ∧ i.key = k := by
  have ⟨a₀, id₀, stk, hs⟩ := v.walk k
  match hw : (inner ts).walk k 0 with
  | none =>
    simp only [hw] at hs
    exact ⟨none, by simp only [findKey, hs.left]; rfl, by simp⟩
  | some (ty, i) =>
    simp only [hw] at hs
    have ⟨hl, _, _, hg⟩ := hs
    refine ⟨if i.key ≠ k then none else some (ty, i), by simp only [findKey, hl, bind, Except.bind, hg]; rfl, ?_⟩
    intro ty' i'
    by_cases hk : i.key = k
    · simp only [hk, ne_eq, not_true, if_false, some.injEq, Prod.mk.injEq]
      exact ⟨fun ⟨h₁, h₂⟩ => ⟨⟨h₁, h₂⟩, h₂ ▸ hk⟩, And.left⟩
    · simp only [hk, ne_eq, not_false_iff, if_true, reduceCtorEq, some.injEq, Prod.mk.injEq, false_iff]
      rintro ⟨⟨_, rfl⟩, hx⟩
      exact hk hx

theorem findKey_contents (v : Valid h m sh ts S) (c : Contents f ts) (k : UInt256) :
    ∃ r, m.findKey h k = .ok r ∧ r.map Prod.snd = f k := by
  have ⟨r, hr, hw⟩ := findKey_spec v k
  refine ⟨r, hr, ext (fun i => ?_)⟩
  rw [c k i, map_eq_some_iff]
  constructor
  · rintro ⟨⟨ty, i⟩, he, rfl⟩
    have ⟨h₁, h₂⟩ := (hw ty i).mp he
    exact ⟨mem_of_walk h₁, h₂⟩
  · intro ⟨hi, hk⟩
    have ⟨ty, j, hj, hjk⟩ := v.wf.walk_key_iff.mpr ⟨i, hi, hk⟩
    have he := key_inj_of_sorted v.wf.sorted (mem_of_walk hj) hi (hjk.trans hk.symm)
    exact ⟨(ty, j), (hw ty j).mpr ⟨hj, hjk⟩, he⟩

end Lookup

section Iterator

theorem At.next (hat : At h it (i :: is)) : ∃ it', it.next h = .ok it' ∧ At h it' is := by
  have ⟨hi, hl⟩ := hat
  have ⟨p, sp, hk⟩ := (hl i is rfl).spine
  have ⟨x, stack', he, hat'⟩ := peekNextItem_loop sp hk
  refine ⟨⟨stack', x⟩, ?_, hat'⟩
  simp only [ConstIterator.next, hi, head?_cons, peekNextItem, he]
  rfl

theorem At.toEnd (hat : At h it items) (hf : items.length < fuel) : it.toEnd h fuel = .ok items := by
  obtain _ | fuel := fuel
  · omega
  induction items generalizing it fuel
  case nil => simp only [ConstIterator.toEnd, hat.left]; rfl
  case cons i is ih =>
    have ⟨it', he, hat'⟩ := hat.next
    rw [length_cons] at hf
    obtain _ | fuel := fuel
    · omega
    have hi := ih hat' fuel (by omega)
    rw [ConstIterator.toEnd]
    simp only [hat.left, head?_cons, he, bind, Except.bind, hi]
    rfl

variable [Digest]

theorem begin_spec (v : Valid h m sh ts S) :
    ∃ it, m.begin h = .ok it ∧ At h it (Tree.inner ts).items := by
  have hd := v.owned.denotes
  have hd' := hd
  cases hd
  case inner bs hg hb =>
    cases hs : (finRange 16).findSome? bs with
    | none =>
      have he b : ts b = .empty := by
        have hn := findSome?_eq_none_iff.mp hs b (mem_finRange b)
        exact (hb b).eq_none_iff.mp (by rw [hn]; rfl)
      have hi : (Tree.inner ts).items = [] := by simp [Tree.items, he]
      refine ⟨⟨[], none⟩, ?_, by rw [hi]; exact ⟨rfl, by simp⟩⟩
      rw [begin, peekFirstItem, levels, firstBelow]
      simp only [hg, firstBelow.childID, bind, Except.bind, pure, Except.pure, hs]
    | some x =>
      obtain ⟨l₁, b, l₂, hsp, hbx, hl₁⟩ := findSome?_eq_some_iff.mp hs
      have hbb := hb b
      rw [hbx] at hbb
      have hitems := Tree.items_of_first hsp
        (fun y hy => (hb y).eq_none_iff.mp (by rw [hl₁ y hy]; rfl))
      have sp := Spine.cons .root b .nil hd' (by simp) rfl v.wf.wf
      obtain ⟨i, is, a', stack', hi, hfb, hat⟩ := firstBelow_spec 64 sp hbb (v.wf.wf b) (by simp) (by simp) 0
      refine ⟨⟨stack', some i⟩, ?_, ?_⟩
      · rw [begin, peekFirstItem, levels, firstBelow]
        simp only [hg, firstBelow.childID, hs, bind, Except.bind, pure, Except.pure, hfb]
      · rw [hitems, hi]
        refine ⟨rfl, ?_⟩
        rintro _ _ ⟨⟩
        simpa using hat

theorem upperBound_spec (v : Valid h m sh ts S) (k : UInt256) :
    ∃ it, m.upperBound h k = .ok it ∧ At h it ((Tree.inner ts).items.filter (k < ·.key)) := by
  have ⟨x, stk, y, stk', hw, hu, hat⟩ := upperBound_walk (k := k) levels .root .nil
    v.owned.denotes (.inr ⟨rfl, ts, rfl, v.wf⟩) .nil rfl (by simp [levels])
  refine ⟨⟨stk', y⟩, ?_, by simpa using hat⟩
  simp only [upperBound, walkTowardsKey, hw, bind, Except.bind, hu]
  rfl

end Iterator

section Run

variable [Digest]

-- Without shared nodes no update is lost.
theorem edit_contents (v : Valid h m False ts S) (c : Contents f ts) (ty : LeafType) (e : Edit) :
    ∃ r m' h' ts', e.exec ty m h = .ok (r, m', h') ∧ Called S h m False h' m' ts' ∧
      Contents (if r then e.apply f else f) ts' ∧ ((inner ts).Typed ty → (inner ts').Typed ty) := by
  cases e
  case addGiveItem item =>
    have ⟨r, m', h', ts', he, hc, hr, hm, ht⟩ := addGiveItem_spec v ty item
    refine ⟨r, m', h', ts', he, hc, ?_, ht⟩
    cases r
    case false => exact fun k i => by simpa [hm i] using c k i
    case true =>
      refine c.store (fun j => (hm j).trans ?_)
      simp only [true_and]
      exact or_congr_right ⟨fun hj => ⟨hj, hr.mp rfl j hj⟩, And.left⟩
  case updateGiveItem item =>
    have ⟨r, m', h', ts', he, hc, _, hm, ht⟩ := updateGiveItem_spec v ty item
    refine ⟨r, m', h', ts', he, hc, ?_, ht⟩
    rcases hm with ⟨hr, hm⟩ | ⟨hr, rfl⟩
    · rw [if_pos hr]
      exact c.store hm
    · rw [if_neg hr]
      exact c
  case delItem k =>
    have ⟨r, m', h', ts', he, hc, hr, hm, ht⟩ := delItem_spec v k
    refine ⟨r, m', h', ts', he, hc, ?_, ht ty⟩
    cases r
    case true => exact c.erase hm
    have hn : ∀ j ∈ (inner ts).items, j.key ≠ k := fun j hj hk => by simpa using hr.mpr ⟨j, hj, hk⟩
    intro k' i
    rw [hm i]
    exact (c k' i).trans (and_congr_left fun _ => ⟨fun hi => ⟨hi, hn i hi⟩, And.left⟩)

theorem foldlM_edits_valid (edits : List (LeafType × Edit)) (v : Valid h m False ts S)
    (c : Contents f ts) : ∃ m' h' f' ts' S',
      edits.foldlM (fun (m, h, f) (type, e) => do
          let (r, m, h) ← Edit.exec type m h e
          pure (m, h, if r then e.apply f else f))
        (m, h, f) = Except.ok (m', h', f') ∧
      Valid h' m' False ts' S' ∧ Contents f' ts' ∧
      ∀ ty, (∀ e ∈ edits, e.1 = ty) → (inner ts).Typed ty → (inner ts').Typed ty := by
  induction edits generalizing m h f ts S
  case nil => exact ⟨_, _, _, _, _, rfl, v, c, fun _ _ ht => ht⟩
  case cons e edits ih =>
    obtain ⟨r, m₁, h₁, ts₁, he, hc, c₁, ht₁⟩ := edit_contents v c e.1 e.2
    obtain ⟨S₁, v₁, _⟩ := hc.valid v
    obtain ⟨m', h', f', ts', S', hr, v', c', ht'⟩ := ih v₁ c₁
    refine ⟨m', h', f', ts', S', ?_, v', c', fun ty hty ht => ?_⟩
    · simp only [foldlM_cons, he]
      exact hr
    · obtain ⟨h₁, h₂⟩ := forall_mem_cons.mp hty
      exact ht' ty h₂ (h₁ ▸ ht₁ (h₁ ▸ ht))

theorem runEdits_valid (edits : List (LeafType × Edit)) :
    ∃ m h f ts S, runEdits edits = .ok (m, h, f) ∧ Valid h m False ts S ∧ Contents f ts ∧
      ∀ ty, (∀ e ∈ edits, e.1 = ty) → (inner ts).Typed ty := by
  obtain ⟨m, h, f, ts, S, hr, v, c, ht⟩ :=
    foldlM_edits_valid edits empty_valid (f := fun _ => none) (fun _ _ => by simp [Tree.items])
  exact ⟨m, h, f, ts, S, hr, v, c, fun ty he => ht ty he (fun _ => trivial)⟩

theorem updateGiveItem_true_iff (v : Valid h m False ts S) (ty : LeafType) (item : SHAMapItem) :
    ∃ r m' h', m.updateGiveItem h ty item = .ok (r, m', h') ∧
      (r ↔ ∃ old, m.findKey h item.key = .ok (some (ty, old))) := by
  have ⟨r, m', h', _, he, _, hr, _, _⟩ := updateGiveItem_spec v ty item
  have ⟨x, hx, hw⟩ := findKey_spec v item.key
  refine ⟨r, m', h', he, hr.trans ?_⟩
  rw [hx]
  simp only [Except.ok.injEq]
  exact exists_congr fun j => (hw ty j).symm

theorem updateGiveItem_typed (v : Valid h m False ts S) (c : Contents f ts)
    (ht : (inner ts).Typed ty) (item : SHAMapItem) :
    ∃ m' h', m.updateGiveItem h ty item = .ok ((f item.key).isSome, m', h') := by
  have ⟨r, m', h', _, he, _, hr, _, _⟩ := updateGiveItem_spec v ty item
  suffices hs : r = (f item.key).isSome from ⟨m', h', hs ▸ he⟩
  rw [Bool.eq_iff_iff, hr, c.isSome_iff, ← v.wf.walk_key_iff]
  refine ⟨fun ⟨j, hj⟩ => ⟨ty, j, hj⟩, fun ⟨ty', j, hw, hj⟩ => ?_⟩
  obtain rfl := ht.walk hw
  exact ⟨j, hw, hj⟩

omit [Digest] in

theorem head?_eq_some_iff_of_sorted (hs : items.Pairwise (·.key < ·.key)) :
    items.head? = some i ↔ i ∈ items ∧ ∀ j ∈ items, i.key ≤ j.key := by
  cases items
  case nil => simp
  case cons j items =>
    have ⟨hlt, _⟩ := pairwise_cons.mp hs
    rw [head?_cons, some.injEq]
    constructor
    · rintro rfl
      refine ⟨mem_cons_self, fun x hx => ?_⟩
      rcases mem_cons.mp hx with rfl | hx
      · exact le_rfl
      · exact (hlt x hx).le
    · intro ⟨hi, hmin⟩
      rcases mem_cons.mp hi with rfl | hi
      · rfl
      · exact absurd (hlt i hi) (not_lt_of_ge (hmin j mem_cons_self))

-- An update succeeds if the leaf of the key has the type that comes with the call, so it always
-- succeeds on a key that is present if all calls come with one type.
theorem shaMap_ordered_map (edits : List (LeafType × Edit)) :
    ∃ m h f, runEdits edits = .ok (m, h, f) ∧
      (∀ k, m.peekItem h k = .ok (f k) ∧ m.hasItem h k = .ok (f k).isSome) ∧
      (∀ ty item, ∃ m' h', m.addGiveItem h ty item = .ok ((f item.key).isNone, m', h')) ∧
      (∀ k, ∃ m' h', m.delItem h k = .ok ((f k).isSome, m', h')) ∧
      (∀ ty item, ∃ r m' h', m.updateGiveItem h ty item = .ok (r, m', h') ∧
        (r ↔ ∃ old, m.findKey h item.key = .ok (some (ty, old)))) ∧
      (∀ ty item, (∀ e ∈ edits, e.1 = ty) →
        ∃ m' h', m.updateGiveItem h ty item = .ok ((f item.key).isSome, m', h')) ∧
      (∃ it items, m.begin h = .ok it ∧ it.toEnd h (items.length + 1) = .ok items ∧
        items.Pairwise (·.key < ·.key) ∧ ∀ i, i ∈ items ↔ f i.key = some i) ∧
      ∀ k, ∃ it, m.upperBound h k = .ok it ∧
        (∀ i, it.item = some i ↔ f i.key = some i ∧ k < i.key ∧
          ∀ j, f j.key = some j → k < j.key → i.key ≤ j.key) ∧
        (it.item = none ↔ ∀ j, f j.key = some j → ¬k < j.key) := by
  have ⟨m, h, f, ts, S, hr, v, c, ht⟩ := runEdits_valid edits
  refine ⟨m, h, f, hr, fun k => ?_, fun ty item => ?_, fun k => ?_, updateGiveItem_true_iff v,
    fun ty item he => updateGiveItem_typed v c (ht ty he) item, ?_, fun k => ?_⟩
  · have ⟨r, hr, hf⟩ := findKey_contents v c k
    rw [← hf]
    constructor
    · simp only [peekItem, hr]; rfl
    · simp only [hasItem, hr, isSome_map]; rfl
  · have ⟨r, m', h', _, he, _, hr, _, _⟩ := addGiveItem_spec v ty item
    suffices hs : r = (f item.key).isNone from ⟨m', h', hs ▸ he⟩
    rw [Bool.eq_iff_iff, hr, ← not_isSome, Bool.not_eq_true', ← Bool.not_eq_true, c.isSome_iff]
    push Not
    rfl
  · have ⟨r, m', h', _, he, _, hr, _, _⟩ := delItem_spec v k
    suffices hs : r = (f k).isSome from ⟨m', h', hs ▸ he⟩
    rw [Bool.eq_iff_iff, hr, c.isSome_iff]
  · have ⟨it, hb, hat⟩ := begin_spec v
    exact ⟨it, _, hb, hat.toEnd (Nat.lt_succ_self _), v.wf.sorted, fun i => c.mem_iff⟩
  · have ⟨it, hu, hat⟩ := upperBound_spec v k
    have hs := v.wf.sorted.filter (k < ·.key)
    refine ⟨it, hu, fun i => ?_, ?_⟩
    · rw [hat.left, head?_eq_some_iff_of_sorted hs]
      simp only [mem_filter, decide_eq_true_eq, c.mem_iff, and_imp, and_assoc]
    · rw [hat.left, head?_eq_none_iff, filter_eq_nil_iff]
      simp only [decide_eq_true_eq, c.mem_iff]

omit [Digest] in

theorem updateGiveItem_cross_type :
    ∃ (_ : Digest) (m : SHAMap) (h : NodeHeap) (f : UInt256 → Option SHAMapItem),
    runEdits [(.tnACCOUNT_STATE, .addGiveItem ⟨0, []⟩)] = .ok (m, h, f) ∧
    m.hasItem h 0 = .ok true ∧ m.updateGiveItem h .tnTRANSACTION_MD ⟨0, [1]⟩ = .ok (false, m, h) := by
  let _ : Digest := ⟨fun _ => 0⟩
  exact ⟨inferInstance, _, _, _, rfl, rfl, rfl⟩

end Run
end SHAMap
