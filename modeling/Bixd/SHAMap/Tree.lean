import Bixd.SHAMap.Node

open List

namespace SHAMap

-- What a node and everything below it stand for, apart from sharing. An empty branch is `empty`.
inductive Tree
  | empty
  | leaf (type : LeafType) (item : SHAMapItem)
  | inner (children : Fin 16 → Tree)

-- The key `k` is found below the node that the branches `p` lead to.
def HasPath (p : List (Fin 16)) (k : UInt256) : Prop :=
  p = (range p.length).map k.nibble

namespace HasPath

variable {p : List (Fin 16)} {b : Fin 16}

theorem nil : HasPath [] k :=
  rfl

theorem append_iff : HasPath (p ++ [b]) k ↔ HasPath p k ∧ k.nibble p.length = b := by
  simp [HasPath, range_succ, eq_comm]

theorem nibble_eq (h₁ : HasPath p k₁) (h₂ : HasPath p k₂) (hi : i < p.length) :
    k₁.nibble i = k₂.nibble i := by
  have h := h₁.symm.trans h₂
  exact map_inj_left.mp h i (mem_range.mpr hi)

end HasPath

namespace Tree

def isEmpty : Tree → Bool
  | empty => true
  | _     => false

-- The items from left to right.
def items : Tree → List SHAMapItem
  | empty    => []
  | leaf _ i => [i]
  | inner ts => (finRange 16).flatMap (fun b => (ts b).items)

def hash [Digest] : Tree → UInt256
  | empty     => 0
  | leaf ty i => leafHash ty i
  | inner ts  => innerHash (fun b => if (ts b).isEmpty then none else some (ts b).hash)

-- Every leaf lies on the path of its key and every inner node has at least two leaves below it.
def WF : List (Fin 16) → Tree → Prop
  | _, empty    => True
  | p, leaf _ i => HasPath p i.key
  | p, inner ts => p.length < 64 ∧ (∀ b, (ts b).WF (p ++ [b])) ∧ 2 ≤ (inner ts).items.length

-- Every leaf lies on the path of its key.
def Placed : List (Fin 16) → Tree → Prop
  | _, empty    => True
  | p, leaf _ i => HasPath p i.key
  | p, inner ts => p.length < 64 ∧ ∀ b, (ts b).Placed (p ++ [b])

-- The root is an inner node, above any number of leaves.
structure RootWF (ts : Fin 16 → Tree) : Prop where
  wf : ∀ b, (ts b).WF [b]

def Typed (ty : LeafType) : Tree → Prop
  | empty     => True
  | leaf ty' _ => ty' = ty
  | inner ts  => ∀ b, (ts b).Typed ty

section

variable {t t₁ t₂ : Tree} {ts : Fin 16 → Tree} {p : List (Fin 16)} {b : Fin 16}
variable {i : SHAMapItem}

@[simp]
theorem mem_items_inner : i ∈ (inner ts).items ↔ ∃ b, i ∈ (ts b).items := by
  simp [items]

theorem isEmpty_iff : t.isEmpty ↔ t = empty := by
  cases t <;> simp [isEmpty]

theorem WF.placed (hw : t.WF p) : t.Placed p := by
  induction t generalizing p
  case empty => trivial
  case leaf => exact hw
  case inner ih => exact ⟨hw.left, fun b => ih b (hw.right.left b)⟩

theorem RootWF.placed (hw : RootWF ts) : (inner ts).Placed [] :=
  ⟨by simp, fun b => (hw.wf b).placed⟩

theorem Placed.hasPath (hp : t.Placed p) (hi : i ∈ t.items) : HasPath p i.key := by
  induction t generalizing p
  case empty => simp [items] at hi
  case leaf =>
    simp [items] at hi
    exact hi ▸ hp
  case inner ih =>
    have ⟨b, hb⟩ := mem_items_inner.mp hi
    exact HasPath.append_iff.mp (ih b (hp.right b) hb) |>.left

theorem WF.hasPath (hw : t.WF p) (hi : i ∈ t.items) : HasPath p i.key :=
  hw.placed.hasPath hi

theorem WF.nibble (hw : (ts b).WF (p ++ [b])) (hi : i ∈ (ts b).items) : i.key.nibble p.length = b :=
  HasPath.append_iff.mp (hw.hasPath hi) |>.right

-- The items of branch `b` are those whose keys go that way.
theorem mem_items_child_iff (hw : ∀ b, (ts b).WF (p ++ [b])) :
    i ∈ (ts b).items ↔ i ∈ (inner ts).items ∧ i.key.nibble p.length = b := by
  constructor
  · intro hi
    exact ⟨mem_items_inner.mpr ⟨b, hi⟩, (hw b).nibble hi⟩
  · intro ⟨hi, hb⟩
    have ⟨b', hb'⟩ := mem_items_inner.mp hi
    rw [← hb, (hw b').nibble hb']
    exact hb'

theorem children_sorted (hp : p.length < 64) (hw : ∀ b, (ts b).WF (p ++ [b]))
    (hs : ∀ b, (ts b).items.Pairwise (·.key < ·.key)) :
    (inner ts).items.Pairwise (·.key < ·.key) := by
  simp only [items, pairwise_flatMap]
  refine ⟨fun b _ => hs b, (pairwise_lt_finRange 16).imp ?_⟩
  intro b₁ b₂ hl i₁ hi₁ i₂ hi₂
  have h₁ := (hw b₁).nibble hi₁
  have h₂ := (hw b₂).nibble hi₂
  have hp₁ := HasPath.append_iff.mp ((hw b₁).hasPath hi₁) |>.left
  have hp₂ := HasPath.append_iff.mp ((hw b₂).hasPath hi₂) |>.left
  exact UInt256.lt_of_nibble_lt hp (fun i hi => hp₁.nibble_eq hp₂ hi) (by rwa [h₁, h₂])

theorem WF.sorted (hw : t.WF p) : t.items.Pairwise (·.key < ·.key) := by
  induction t generalizing p
  case empty => simp [items]
  case leaf => simp [items]
  case inner ih => exact children_sorted hw.left hw.right.left (fun b => ih b (hw.right.left b))

theorem RootWF.sorted (hw : RootWF ts) : (inner ts).items.Pairwise (·.key < ·.key) :=
  children_sorted (p := []) (by simp) hw.wf (fun b => (hw.wf b).sorted)

theorem key_inj_of_sorted {l : List SHAMapItem} (hs : l.Pairwise (·.key < ·.key)) (hi : i ∈ l)
    (hj : j ∈ l) (he : i.key = j.key) : i = j :=
  inj_on_of_nodup_map (pairwise_map.mpr (hs.imp ne_of_lt)) hi hj he

theorem length_le_one_of_sorted {l : List SHAMapItem} (hs : l.Pairwise (·.key < ·.key))
    (h : ∀ j ∈ l, j = i) : l.length ≤ 1 := by
  match l, hs, h with
  | [], _, _ => simp
  | [_], _, _ => simp
  | j₁ :: j₂ :: _, hs, h =>
    have hl := rel_of_pairwise_cons hs mem_cons_self
    rw [h j₁ (by simp), h j₂ (by simp)] at hl
    exact absurd hl (lt_irrefl _)

theorem WF.eq_empty (hw : t.WF p) (h : t.items = []) : t = empty := by
  cases t
  case empty => rfl
  case leaf => simp [items] at h
  case inner => simp [WF, h] at hw

theorem WF.ext (hw₁ : t₁.WF p) (hw₂ : t₂.WF p) (ht₁ : t₁.Typed ty) (ht₂ : t₂.Typed ty)
    (h : ∀ i, i ∈ t₁.items ↔ i ∈ t₂.items) : t₁ = t₂ := by
  induction t₁ generalizing p t₂
  case empty =>
    refine (hw₂.eq_empty ?_).symm
    simpa [items, eq_nil_iff_forall_not_mem] using h
  case leaf ty' i =>
    have hm : ∀ j, j ∈ t₂.items ↔ j = i := by simpa [items, eq_comm] using fun j => (h j).symm
    cases t₂
    case empty => simp [items] at hm
    case leaf =>
      simp only [items, mem_singleton] at hm
      simp_all [Typed]
    case inner =>
      have hl := length_le_one_of_sorted hw₂.sorted (fun j hj => (hm j).mp hj)
      exact absurd hw₂.right.right (by omega)
  case inner ts₁ ih =>
    have hne : ∀ i, ¬(∀ j ∈ (inner ts₁).items, j = i) := by
      intro i hc
      have hl := length_le_one_of_sorted hw₁.sorted hc
      exact absurd hw₁.right.right (by omega)
    cases t₂
    case empty =>
      refine absurd ?_ (hne ⟨0, []⟩)
      intro j hj
      simp [items] at h hj
      exact absurd hj.choose_spec (h j hj.choose)
    case leaf i =>
      refine absurd ?_ (hne i)
      intro j hj
      simpa [items] using (h j).mp hj
    case inner ts₂ =>
      congr 1
      funext b
      refine ih b (hw₁.right.left b) (hw₂.right.left b) (ht₁ b) (ht₂ b) (fun i => ?_)
      rw [mem_items_child_iff hw₁.right.left, mem_items_child_iff hw₂.right.left, h]

theorem RootWF.ext (hw₁ : RootWF ts₁) (hw₂ : RootWF ts₂) (ht₁ : (inner ts₁).Typed ty)
    (ht₂ : (inner ts₂).Typed ty) (h : ∀ i, i ∈ (inner ts₁).items ↔ i ∈ (inner ts₂).items) :
    ts₁ = ts₂ := by
  funext b
  refine (hw₁.wf b).ext (hw₂.wf b) (ht₁ b) (ht₂ b) (fun i => ?_)
  rw [mem_items_child_iff (p := []) hw₁.wf, mem_items_child_iff (p := []) hw₂.wf, h]

end

section Hash

variable [Digest]

-- A node as its hash sees it: a leaf, or an inner node with the hashes of its branches.
inductive Hashed
  | leaf (type : LeafType) (item : SHAMapItem)
  | inner (hashes : Fin 16 → Option UInt256)

def Hashed.hash : Hashed → UInt256
  | leaf ty i => leafHash ty i
  | inner hs  => innerHash hs

-- The node without branches. Its hash is zero, and so is the hash of an empty branch.
def Hashed.empty : Hashed :=
  inner (fun _ => none)

def childHashes (ts : Fin 16 → Tree) (b : Fin 16) : Option UInt256 :=
  if (ts b).isEmpty then none else some (ts b).hash

def hashed : Tree → Set Hashed
  | empty     => {}
  | leaf ty i => {.leaf ty i}
  | inner ts  => {.inner (childHashes ts)} ∪ ⋃ b, (ts b).hashed

variable {t₁ t₂ : Tree} {p : List (Fin 16)}

theorem hash_inner : (inner ts).hash = (Hashed.inner (childHashes ts)).hash :=
  rfl

theorem Hashed.hash_empty : Hashed.empty.hash = 0 := by
  simp [empty, hash, innerHash]

theorem hashed_child_subset (b : Fin 16) : (ts b).hashed ⊆ (inner ts).hashed :=
  fun _ h => .inr (Set.mem_iUnion.mpr ⟨b, h⟩)

theorem mem_hashed_inner : .inner (childHashes ts) ∈ (inner ts).hashed :=
  .inl rfl

theorem childHashes_eq_none_iff : childHashes ts b = none ↔ ts b = empty := by
  simp [childHashes, isEmpty_iff]

theorem WF.childHashes_ne (hw : (inner ts₁).WF p) : childHashes ts₁ ≠ fun _ => none := by
  intro hc
  have he : ∀ b, ts₁ b = empty := fun b => childHashes_eq_none_iff.mp (congrFun hc b)
  have := hw.right.right
  simp [items, he] at this

theorem children_eq_of_childHashes
    (ih : ∀ b t₂, (ts₁ b).WF (p ++ [b]) → t₂.WF (p ++ [b]) → (ts₁ b).hashed ⊆ S → t₂.hashed ⊆ S →
      (ts₁ b).hash = t₂.hash → ts₁ b = t₂)
    (hw₁ : ∀ b, (ts₁ b).WF (p ++ [b])) (hw₂ : ∀ b, (ts₂ b).WF (p ++ [b]))
    (hs₁ : (inner ts₁).hashed ⊆ S) (hs₂ : (inner ts₂).hashed ⊆ S)
    (h : childHashes ts₁ = childHashes ts₂) : ts₁ = ts₂ := by
  funext b
  have hb := congrFun h b
  by_cases he : ts₁ b = empty
  case pos =>
    rw [childHashes_eq_none_iff.mpr he] at hb
    rw [he, childHashes_eq_none_iff.mp hb.symm]
  have he' : ts₂ b ≠ empty :=
    fun hc => he (childHashes_eq_none_iff.mp (hb.trans (childHashes_eq_none_iff.mpr hc)))
  apply ih b _ (hw₁ b) (hw₂ b) ((hashed_child_subset b).trans hs₁) ((hashed_child_subset b).trans hs₂)
  simpa [childHashes, isEmpty_iff, he, he'] using hb

theorem WF.eq_of_hash (hi : Set.InjOn Hashed.hash S) (hm : .empty ∈ S) (hw₁ : t₁.WF p)
    (hw₂ : t₂.WF p) (hs₁ : t₁.hashed ⊆ S) (hs₂ : t₂.hashed ⊆ S) (h : t₁.hash = t₂.hash) :
    t₁ = t₂ := by
  have hz := Hashed.hash_empty
  induction t₁ generalizing p t₂
  case empty =>
    cases t₂
    case empty => rfl
    case leaf => cases hi hm (hs₂ rfl) (hz.trans h)
    case inner =>
      have hc := Hashed.inner.inj (hi hm (hs₂ mem_hashed_inner) (hz.trans h))
      exact absurd hc.symm hw₂.childHashes_ne
  case leaf =>
    cases t₂
    case empty => cases hi (hs₁ rfl) hm (h.trans hz.symm)
    case leaf => cases hi (hs₁ rfl) (hs₂ rfl) h; rfl
    case inner => cases hi (hs₁ rfl) (hs₂ mem_hashed_inner) h
  case inner ts₁ ih =>
    cases t₂
    case empty =>
      have hc := Hashed.inner.inj (hi (hs₁ mem_hashed_inner) hm (h.trans hz.symm))
      exact absurd hc hw₁.childHashes_ne
    case leaf => cases hi (hs₁ mem_hashed_inner) (hs₂ rfl) h
    case inner ts₂ =>
      have hc := Hashed.inner.inj (hi (hs₁ mem_hashed_inner) (hs₂ mem_hashed_inner) h)
      rw [children_eq_of_childHashes (fun b _ => ih b) hw₁.right.left hw₂.right.left hs₁ hs₂ hc]

theorem RootWF.eq_of_hash (hi : Set.InjOn Hashed.hash S) (hm : .empty ∈ S) (hw₁ : RootWF ts₁)
    (hw₂ : RootWF ts₂) (hs₁ : (inner ts₁).hashed ⊆ S) (hs₂ : (inner ts₂).hashed ⊆ S)
    (h : (inner ts₁).hash = (inner ts₂).hash) : ts₁ = ts₂ := by
  have hc := Hashed.inner.inj (hi (hs₁ mem_hashed_inner) (hs₂ mem_hashed_inner) h)
  exact children_eq_of_childHashes (p := [])
    (fun _ _ hw₁ hw₂ hs₁ hs₂ h => hw₁.eq_of_hash hi hm hw₂ hs₁ hs₂ h) hw₁.wf hw₂.wf hs₁ hs₂ hc

end Hash
end Tree
end SHAMap
