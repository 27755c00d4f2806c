import Bixd.SHAMap.Tree

open SHAMap.HasPath Function List

-- The edits of a map, as functions on trees. The depth of the tree's root comes along, since it
-- decides which nibble of the key selects the branch.
namespace SHAMap.Tree

-- The leaf that the walk towards `k` ends at.
def walk (k : UInt256) : Nat → Tree → Option (LeafType × SHAMapItem)
  | _, empty     => none
  | _, leaf ty i => some (ty, i)
  | d, inner ts  => (ts (k.nibble d)).walk k (d + 1)

-- The inner nodes above two leaves, down to where their keys part.
def split (ty : LeafType) (i j : SHAMapItem) : Nat → Nat → Tree
  | 0, _ => inner (fun _ => empty)
  | n + 1, d =>
    if i.key.nibble d = j.key.nibble d then
      inner (update (fun _ => empty) (i.key.nibble d) (split ty i j n (d + 1)))
    else
      inner <| update (update (fun _ => empty) (i.key.nibble d) (leaf ty i))
        (j.key.nibble d) (leaf ty j)

def add (ty : LeafType) (i : SHAMapItem) : Nat → Tree → Tree
  | _, empty    => leaf ty i
  | d, leaf _ j => split ty i j 65 d
  | d, inner ts => inner (update ts (i.key.nibble d) ((ts (i.key.nibble d)).add ty i (d + 1)))

def replace (i : SHAMapItem) : Nat → Tree → Tree
  | _, empty     => empty
  | _, leaf ty _ => leaf ty i
  | d, inner ts  => inner (update ts (i.key.nibble d) ((ts (i.key.nibble d)).replace i (d + 1)))

def nonempty (ts : Fin 16 → Tree) : List (Fin 16) :=
  (finRange 16).filter (fun b => !(ts b).isEmpty)

-- The item of a tree with a single leaf.
def only : Tree → Option SHAMapItem
  | empty    => none
  | leaf _ i => some i
  | inner ts =>
    match nonempty ts with
    | [b] => (ts b).only
    | _   => none

def collapse (ty : LeafType) (ts : Fin 16 → Tree) : Tree :=
  match nonempty ts with
  | []  => empty
  | [b] =>
    match (ts b).only with
    | some i => leaf ty i
    | none   => inner ts
  | _ => inner ts

def del (k : UInt256) (ty : LeafType) : Nat → Tree → Tree
  | _, empty | _, leaf .. => empty
  | d, inner ts => collapse ty (update ts (k.nibble d) ((ts (k.nibble d)).del k ty (d + 1)))

variable {t : Tree} {p : List (Fin 16)} {k : UInt256} {d : Nat}
variable {i j : SHAMapItem} {ty ty' : LeafType}

theorem mem_items_update :
    j ∈ (inner (update ts b t)).items ↔ j ∈ t.items ∨ ∃ b', b' ≠ b ∧ j ∈ (ts b').items := by
  rw [mem_items_inner]
  constructor
  · intro ⟨b', h⟩
    by_cases hb : b' = b
    · exact .inl (by simpa [hb] using h)
    · exact .inr ⟨b', hb, by simpa [hb] using h⟩
  · rintro (h | ⟨b', hb, h⟩)
    · exact ⟨b, by simpa using h⟩
    · exact ⟨b', by simpa [hb] using h⟩

theorem mem_items_update_iff (hw : ∀ b, (ts b).WF (p ++ [b])) :
    j ∈ (inner (update ts b t)).items ↔
      j ∈ t.items ∨ (j ∈ (inner ts).items ∧ j.key.nibble p.length ≠ b) := by
  rw [mem_items_update, mem_items_inner]
  refine or_congr_right ⟨fun ⟨b', hb, h⟩ => ⟨⟨b', h⟩, ?_⟩, fun ⟨⟨b', h⟩, hb⟩ => ⟨b', ?_, h⟩⟩
  · exact (hw b').nibble h ▸ hb
  · exact (hw b').nibble h ▸ hb

theorem wf_update (hw : ∀ b, (ts b).WF (p ++ [b])) (ht : t.WF (p ++ [b])) (b' : Fin 16) :
    (update ts b t b').WF (p ++ [b']) := by
  by_cases hb : b' = b
  · subst hb; simpa using ht
  · simpa [hb] using hw b'

theorem typed_update (hw : ∀ b, (ts b).Typed ty) (ht : t.Typed ty) (b' : Fin 16) :
    (update ts b t b').Typed ty := by
  by_cases hb : b' = b
  · subst hb; simpa using ht
  · simpa [hb] using hw b'

theorem two_le_length (hi : i ∈ t.items) (hj : j ∈ t.items) (hne : i ≠ j) : 2 ≤ t.items.length := by
  by_contra hc
  match hl : t.items with
  | [] => simp [hl] at hi
  | [_] => simp_all
  | _ :: _ :: _ => simp [hl] at hc

theorem WF.inner_of_ne (hp : p.length < 64) (hw : ∀ b, (ts b).WF (p ++ [b]))
    (hi : i ∈ (inner ts).items) (hj : j ∈ (inner ts).items) (hne : i ≠ j) : (inner ts).WF p :=
  ⟨hp, hw, two_le_length hi hj hne⟩

theorem WF.exists_ne (hw : (inner ts).WF p) :
    ∃ i ∈ (inner ts).items, ∃ j ∈ (inner ts).items, i ≠ j := by
  by_contra hc
  push Not at hc
  have ⟨i, hi⟩ := exists_mem_of_length_pos (Nat.lt_of_lt_of_le Nat.zero_lt_two hw.right.right)
  have := length_le_one_of_sorted hw.sorted (fun j hj => hc j hj i hi)
  exact absurd hw.right.right (by omega)

theorem WF.exists_mem (hw : t.WF p) (ht : t ≠ empty) : ∃ i, i ∈ t.items :=
  exists_mem_of_ne_nil _ (mt hw.eq_empty ht)

section Walk

theorem mem_of_walk (h : t.walk k d = some (ty, i)) : i ∈ t.items := by
  induction t generalizing d
  case empty => simp [walk] at h
  case leaf => simp_all [walk, items]
  case inner ih => exact mem_items_inner.mpr ⟨_, ih _ h⟩

theorem WF.walk_of_mem (hw : t.WF p) (hi : i ∈ t.items) : ∃ ty, t.walk i.key p.length = some (ty, i) := by
  induction t generalizing p
  case empty => simp [items] at hi
  case leaf => simp_all [walk, items]
  case inner ih =>
    obtain ⟨b, hb⟩ := mem_items_inner.mp hi
    have hwb := hw.right.left b
    rw [walk, hwb.nibble hb]
    simpa using ih b hwb hb

theorem WF.walk_key_iff (hw : t.WF p) :
    (∃ ty i, t.walk k p.length = some (ty, i) ∧ i.key = k) ↔ ∃ i ∈ t.items, i.key = k := by
  constructor
  · intro ⟨ty, i, h, hk⟩
    exact ⟨i, mem_of_walk h, hk⟩
  · intro ⟨i, hi, hk⟩
    have ⟨ty, h⟩ := hw.walk_of_mem hi
    exact ⟨ty, i, hk ▸ h, hk⟩

theorem Typed.walk (ht : t.Typed ty) (h : t.walk k d = some (ty', i)) : ty' = ty := by
  induction t generalizing d
  case empty => simp [walk] at h
  case leaf => simp_all [walk, Typed]
  case inner ih => exact ih _ (ht _) h

end Walk

section Split

theorem mem_items_split (hd : d ≤ e) (hn : e < d + n) (he : i.key.nibble e ≠ j.key.nibble e) {x} :
    x ∈ (split ty i j n d).items ↔ x = i ∨ x = j := by
  induction n generalizing d
  case zero => omega
  case succ n ih =>
    rw [split]
    split
    case isTrue hc =>
      have hne : d ≠ e := fun h => he (h ▸ hc)
      rw [mem_items_update, ih (by omega) (by omega)]
      simp [items]
    case isFalse hc =>
      rw [mem_items_update]
      constructor
      · rintro (h | ⟨b, hb, h⟩)
        · exact .inr (by simpa [items] using h)
        · by_cases hbi : b = i.key.nibble d
          · exact .inl (by simpa [hbi, items] using h)
          · simp [hbi, items] at h
      · rintro (rfl | rfl)
        · exact .inr ⟨x.key.nibble d, hc, by simp [items]⟩
        · exact .inl (by simp [items])

theorem wf_split (hi : HasPath p i.key) (hj : HasPath p j.key) (hd : p.length ≤ e)
    (hn : e < p.length + n) (he64 : e < 64) (he : i.key.nibble e ≠ j.key.nibble e) :
    (split ty i j n p.length).WF p := by
  have hij : i ≠ j := by rintro rfl; exact he rfl
  have hmi : i ∈ (split ty i j n p.length).items := (mem_items_split hd hn he).mpr (.inl rfl)
  have hmj : j ∈ (split ty i j n p.length).items := (mem_items_split hd hn he).mpr (.inr rfl)
  induction n generalizing p
  case zero => omega
  case succ n ih =>
    rw [split] at hmi hmj ⊢
    split at hmi <;> rename_i hc
    case isTrue =>
      have hne : p.length ≠ e := fun h => he (h ▸ hc)
      rw [if_pos hc] at hmj ⊢
      refine WF.inner_of_ne (by omega) (wf_update (fun _ => trivial) ?_) hmi hmj hij
      have hp : (p ++ [i.key.nibble p.length]).length = p.length + 1 := by simp
      rw [← hp]
      refine ih (append_iff.mpr ⟨hi, rfl⟩) (append_iff.mpr ⟨hj, hc.symm⟩)
        (by simp; omega) (by simp; omega) ?_ ?_
      · exact (mem_items_split (by simp; omega) (by simp; omega) he).mpr (.inl rfl)
      · exact (mem_items_split (by simp; omega) (by simp; omega) he).mpr (.inr rfl)
    case isFalse =>
      rw [if_neg hc] at hmj ⊢
      refine WF.inner_of_ne (by omega) (wf_update (wf_update (fun _ => trivial) ?_) ?_) hmi hmj hij
      · exact append_iff.mpr ⟨hi, rfl⟩
      · exact append_iff.mpr ⟨hj, rfl⟩

theorem typed_split : (split ty i j n d).Typed ty := by
  induction n generalizing d <;> simp only [split]
  case zero => exact fun _ => trivial
  case succ ih =>
    split
    · exact typed_update (fun _ => trivial) ih
    · exact typed_update (typed_update (fun _ => trivial) rfl) rfl

end Split

section Add

theorem WF.add (ty : LeafType) (hw : t.WF p) (hp : HasPath p i.key)
    (hn : ∀ j ∈ t.items, j.key ≠ i.key) :
    (t.add ty i p.length).WF p ∧ ∀ j, j ∈ (t.add ty i p.length).items ↔ j = i ∨ j ∈ t.items := by
  induction t generalizing p
  case empty => exact ⟨hp, by simp [add, items]⟩
  case leaf j =>
    have hne : i.key ≠ j.key := fun h => hn j (by simp [items]) h.symm
    obtain ⟨e, he64, he, heq⟩ := UInt256.exists_first_nibble_ne hne
    -- The two keys share the path, so they part below it.
    have hpe : p.length ≤ e := by
      by_contra hc
      exact he (hp.nibble_eq hw (Nat.lt_of_not_le hc))
    refine ⟨wf_split hp hw hpe (by omega) he64 he, fun x => ?_⟩
    rw [add, mem_items_split hpe (by omega) he]
    simp [items]
  case inner ts ih =>
    have hb : (p ++ [i.key.nibble p.length]).length = p.length + 1 := by simp
    obtain ⟨hwb, hmb⟩ := ih (i.key.nibble p.length) (hw.right.left _) (append_iff.mpr ⟨hp, rfl⟩)
      (fun j hj => hn j (mem_items_inner.mpr ⟨_, hj⟩))
    rw [hb] at hwb hmb
    have hm : ∀ j, j ∈ (add ty i p.length (inner ts)).items ↔ j = i ∨ j ∈ (inner ts).items := by
      intro j
      rw [add, mem_items_update_iff hw.right.left, hmb, mem_items_child_iff hw.right.left]
      tauto
    refine ⟨?_, hm⟩
    obtain ⟨x, hx, y, hy, hxy⟩ := hw.exists_ne
    exact WF.inner_of_ne hw.left (wf_update hw.right.left hwb)
      ((hm x).mpr (.inr hx)) ((hm y).mpr (.inr hy)) hxy

theorem Typed.add (ht : t.Typed ty) : (t.add ty i d).Typed ty := by
  induction t generalizing d <;> simp only [add]
  case empty => exact rfl
  case leaf => exact typed_split
  case inner ih => exact typed_update ht (ih _ (ht _))

end Add

section Replace

theorem WF.replace (hw : t.WF p) (hp : HasPath p i.key) (hk : ∃ j ∈ t.items, j.key = i.key) :
    (t.replace i p.length).WF p ∧ (t.replace i p.length).items.length = t.items.length ∧
      ∀ j, j ∈ (t.replace i p.length).items ↔ j = i ∨ (j ∈ t.items ∧ j.key ≠ i.key) := by
  induction t generalizing p
  case empty => simp [items] at hk
  case leaf j =>
    have hj : j.key = i.key := by simpa [items] using hk
    refine ⟨hp, rfl, fun x => ?_⟩
    simp only [replace, items, mem_singleton]
    exact ⟨.inl, fun h => h.resolve_right (fun h => h.right (h.left ▸ hj))⟩
  case inner ts ih =>
    obtain ⟨j, hj, hjk⟩ := hk
    have hjb := mem_items_child_iff hw.right.left |>.mpr ⟨hj, congrArg (UInt256.nibble · p.length) hjk⟩
    have hb : (p ++ [i.key.nibble p.length]).length = p.length + 1 := by simp
    obtain ⟨hwb, hlb, hmb⟩ := ih (i.key.nibble p.length) (hw.right.left _)
      (append_iff.mpr ⟨hp, rfl⟩) ⟨j, hjb, hjk⟩
    rw [hb] at hwb hlb hmb
    have hl : (replace i p.length (inner ts)).items.length = (inner ts).items.length := by
      simp only [replace, items, length_flatMap]
      congr 1
      apply map_congr_left
      intro b _
      by_cases hc : b = i.key.nibble p.length
      · subst hc; simpa using hlb
      · simp [hc]
    refine ⟨⟨hw.left, wf_update hw.right.left hwb, hl ▸ hw.right.right⟩, hl, fun x => ?_⟩
    rw [replace, mem_items_update_iff hw.right.left, hmb, mem_items_child_iff hw.right.left]
    have : x.key = i.key → x.key.nibble p.length = i.key.nibble p.length := fun h => h ▸ rfl
    tauto

theorem Typed.replace (ht : t.Typed ty) : (t.replace i d).Typed ty := by
  induction t generalizing d <;> simp only [replace]
  case empty => trivial
  case leaf => exact ht
  case inner ih => exact typed_update ht (ih _ (ht _))

end Replace

section Del

theorem mem_nonempty : b ∈ nonempty ts ↔ ts b ≠ empty := by
  simp [nonempty, isEmpty_iff, ← Bool.not_eq_true]

theorem nonempty_nodup : (nonempty ts).Nodup :=
  (nodup_finRange 16).filter _

theorem items_of_only (h : t.only = some i) : ∀ j, j ∈ t.items ↔ j = i := by
  induction t
  case empty => simp [only] at h
  case leaf => simp_all [only, items]
  case inner ts ih =>
    rw [only] at h
    split at h
    case h_2 => simp at h
    case h_1 b hb =>
      intro j
      rw [← ih b h j, mem_items_inner]
      refine ⟨?_, fun h' => ⟨b, h'⟩⟩
      rintro ⟨b', h'⟩
      have : b' ∈ nonempty ts := mem_nonempty.mpr (fun he => by simp [he, items] at h')
      rw [hb, mem_singleton] at this
      exact this ▸ h'

theorem WF.two_le_of_only (hw : t.WF p) (ht : t ≠ empty) (h : t.only = none) : 2 ≤ t.items.length := by
  cases t
  case empty => exact absurd rfl ht
  case leaf => simp [only] at h
  case inner => exact hw.right.right

theorem wf_collapse (ty : LeafType) (hp : p.length < 64) (hw : ∀ b, (ts b).WF (p ++ [b])) :
    (collapse ty ts).WF p ∧ ∀ j, j ∈ (collapse ty ts).items ↔ j ∈ (inner ts).items := by
  have hpath : ∀ j ∈ (inner ts).items, HasPath p j.key := by
    intro j hj
    obtain ⟨b, hb⟩ := mem_items_inner.mp hj
    exact append_iff.mp ((hw b).hasPath hb) |>.left
  rw [collapse]
  split
  case h_1 hn =>
    refine ⟨trivial, fun j => ?_⟩
    have he : ∀ b, ts b = empty := fun b => by
      by_contra hc
      simpa [hn] using mem_nonempty.mpr hc
    simp [items, he]
  case h_2 b hn =>
    have hmem : ∀ j, j ∈ (inner ts).items ↔ j ∈ (ts b).items := by
      intro j
      refine ⟨fun hj => ?_, fun hj => mem_items_inner.mpr ⟨b, hj⟩⟩
      obtain ⟨b', h'⟩ := mem_items_inner.mp hj
      have : b' ∈ nonempty ts := mem_nonempty.mpr (fun he => by simp [he, items] at h')
      rw [hn, mem_singleton] at this
      exact this ▸ h'
    split
    case h_1 i hi =>
      have hone := items_of_only hi
      refine ⟨hpath i ((hmem i).mpr ((hone i).mpr rfl)), fun j => ?_⟩
      rw [hmem, hone]
      simp [items]
    case h_2 hi =>
      refine ⟨⟨hp, hw, ?_⟩, fun _ => Iff.rfl⟩
      have hb : b ∈ nonempty ts := by simp [hn]
      have h2 := (hw b).two_le_of_only (mem_nonempty.mp hb) hi
      have hsub : (ts b).items.Sublist (inner ts).items :=
        sublist_flatten_of_mem (mem_map.mpr ⟨b, mem_finRange b, rfl⟩)
      exact h2.trans hsub.length_le
  case h_3 h₁ h₂ =>
    refine ⟨?_, fun _ => Iff.rfl⟩
    rcases hn : nonempty ts with _ | ⟨b₁, _ | ⟨b₂, _⟩⟩
    · exact absurd hn h₁
    · exact absurd hn (h₂ b₁)
    · have hd : b₁ ≠ b₂ := by
        have hd : (b₁ :: b₂ :: _).Nodup := hn ▸ nonempty_nodup
        simp at hd
        exact hd.left.left
      obtain ⟨i, hi⟩ := (hw b₁).exists_mem (mem_nonempty.mp (by simp [hn]))
      obtain ⟨j, hj⟩ := (hw b₂).exists_mem (mem_nonempty.mp (by simp [hn]))
      refine WF.inner_of_ne hp hw (mem_items_inner.mpr ⟨b₁, hi⟩) (mem_items_inner.mpr ⟨b₂, hj⟩) ?_
      rintro rfl
      exact hd ((hw b₁).nibble hi ▸ (hw b₂).nibble hj)

theorem typed_collapse (ht : ∀ b, (ts b).Typed ty) : (collapse ty ts).Typed ty := by
  rw [collapse]
  split
  · trivial
  · split <;> first | exact rfl | exact ht
  · exact ht

theorem Placed.collapse (hp : (inner ts).Placed p) : (collapse ty ts).Placed p := by
  rw [Tree.collapse]
  split
  · trivial
  · split
    case h_1 i hi => exact hp.hasPath (mem_items_inner.mpr ⟨_, (items_of_only hi i).mpr rfl⟩)
    case h_2 => exact hp
  · exact hp

theorem Placed.update (hp : (inner ts).Placed p) (ht : t.Placed (p ++ [b])) :
    (inner (update ts b t)).Placed p := by
  refine ⟨hp.left, fun b' => ?_⟩
  by_cases hb : b' = b
  · subst hb; simpa using ht
  · simpa [hb] using hp.right b'

theorem Placed.del (hp : t.Placed p) : (t.del k ty p.length).Placed p := by
  induction t generalizing p
  case empty => trivial
  case leaf => trivial
  case inner ih =>
    have hb := ih (k.nibble p.length) (hp.right _)
    rw [length_append, length_singleton] at hb
    exact (hp.update hb).collapse

theorem WF.del (ty : LeafType) (hw : t.WF p) (hk : ∃ j ∈ t.items, j.key = k) :
    (t.del k ty p.length).WF p ∧ ∀ j, j ∈ (t.del k ty p.length).items ↔ j ∈ t.items ∧ j.key ≠ k := by
  induction t generalizing p
  case empty => simp [items] at hk
  case leaf j =>
    have hj : j.key = k := by simpa [items] using hk
    refine ⟨trivial, fun x => ?_⟩
    simp only [del, items, not_mem_nil, mem_singleton, false_iff, not_and, not_not]
    exact fun he => he ▸ hj
  case inner ts ih =>
    obtain ⟨j, hj, hjk⟩ := hk
    have hjb := mem_items_child_iff hw.right.left |>.mpr ⟨hj, congrArg (UInt256.nibble · p.length) hjk⟩
    have hb : (p ++ [k.nibble p.length]).length = p.length + 1 := by simp
    obtain ⟨hwb, hmb⟩ := ih (k.nibble p.length) (hw.right.left _) ⟨j, hjb, hjk⟩
    rw [hb] at hwb hmb
    obtain ⟨hwc, hmc⟩ := wf_collapse ty hw.left (wf_update hw.right.left hwb)
    refine ⟨hwc, fun x => ?_⟩
    rw [del, hmc, mem_items_update_iff hw.right.left, hmb, mem_items_child_iff hw.right.left]
    have : x.key = k → x.key.nibble p.length = k.nibble p.length := fun h => h ▸ rfl
    tauto

theorem Typed.del (ht : t.Typed ty) : (t.del k ty d).Typed ty := by
  induction t generalizing d <;> simp only [del]
  case empty => trivial
  case leaf => trivial
  case inner ih => exact typed_collapse (typed_update ht (ih _ (ht _)))

end Del

-- The edits of the root, which is an inner node whatever is below it.
section Root

theorem RootWF.update (hw : RootWF ts) (ht : t.WF [b]) : RootWF (update ts b t) :=
  ⟨wf_update (p := []) hw.wf ht⟩

theorem RootWF.mem_items_update (hw : RootWF ts) :
    j ∈ (inner (Function.update ts b t)).items ↔
      j ∈ t.items ∨ (j ∈ (inner ts).items ∧ j.key.nibble 0 ≠ b) :=
  mem_items_update_iff (p := []) hw.wf

theorem RootWF.mem_items_child_iff (hw : RootWF ts) :
    j ∈ (ts b).items ↔ j ∈ (inner ts).items ∧ j.key.nibble 0 = b :=
  Tree.mem_items_child_iff (p := []) hw.wf

theorem RootWF.walk_key_iff (hw : RootWF ts) :
    (∃ ty i, (inner ts).walk k 0 = some (ty, i) ∧ i.key = k) ↔ ∃ i ∈ (inner ts).items, i.key = k := by
  refine (hw.wf (k.nibble 0)).walk_key_iff.trans ⟨fun ⟨i, hi, hk⟩ => ?_, fun ⟨i, hi, hk⟩ => ?_⟩
  · exact ⟨i, mem_items_inner.mpr ⟨_, hi⟩, hk⟩
  · exact ⟨i, hw.mem_items_child_iff.mpr ⟨hi, hk ▸ rfl⟩, hk⟩

theorem RootWF.add (ty : LeafType) (hw : RootWF ts) (hn : ∀ j ∈ (inner ts).items, j.key ≠ i.key) :
    RootWF (Function.update ts (i.key.nibble 0) ((ts (i.key.nibble 0)).add ty i 1)) ∧
    ∀ j, j ∈ ((inner ts).add ty i 0).items ↔ j = i ∨ j ∈ (inner ts).items := by
  have ⟨hwb, hmb⟩ := (hw.wf (i.key.nibble 0)).add (i := i) ty
    (append_iff (p := []) |>.mpr ⟨.nil, rfl⟩) (fun j hj => hn j (mem_items_inner.mpr ⟨_, hj⟩))
  refine ⟨hw.update hwb, fun j => ?_⟩
  rw [Tree.add, hw.mem_items_update]
  simp only [length_singleton] at hmb
  rw [hmb, hw.mem_items_child_iff, or_assoc, ← and_or_left]
  simp [em]

theorem RootWF.replace (hw : RootWF ts) (hk : ∃ j ∈ (inner ts).items, j.key = i.key) :
    RootWF (Function.update ts (i.key.nibble 0) ((ts (i.key.nibble 0)).replace i 1)) ∧
    ∀ j, j ∈ ((inner ts).replace i 0).items ↔ j = i ∨ (j ∈ (inner ts).items ∧ j.key ≠ i.key) := by
  have ⟨j, hj, he⟩ := hk
  have ⟨hwb, _, hmb⟩ := (hw.wf (i.key.nibble 0)).replace (i := i)
    (append_iff (p := []) |>.mpr ⟨.nil, rfl⟩) ⟨j, hw.mem_items_child_iff.mpr ⟨hj, he ▸ rfl⟩, he⟩
  refine ⟨hw.update hwb, fun j => ?_⟩
  rw [Tree.replace, hw.mem_items_update]
  simp only [length_singleton] at hmb
  rw [hmb, hw.mem_items_child_iff]
  tauto

theorem RootWF.del (ty : LeafType) (hw : RootWF ts) (hk : ∃ j ∈ (inner ts).items, j.key = k) :
    RootWF (Function.update ts (k.nibble 0) ((ts (k.nibble 0)).del k ty 1)) ∧
    ∀ j, j ∈ (inner (Function.update ts (k.nibble 0) ((ts (k.nibble 0)).del k ty 1))).items ↔
      j ∈ (inner ts).items ∧ j.key ≠ k := by
  have ⟨j, hj, he⟩ := hk
  have ⟨hwb, hmb⟩ := (hw.wf (k.nibble 0)).del ty ⟨j, hw.mem_items_child_iff.mpr ⟨hj, he ▸ rfl⟩, he⟩
  refine ⟨hw.update hwb, fun j => ?_⟩
  rw [hw.mem_items_update]
  simp only [length_singleton] at hmb
  rw [hmb, hw.mem_items_child_iff]
  tauto

end Root
end SHAMap.Tree
