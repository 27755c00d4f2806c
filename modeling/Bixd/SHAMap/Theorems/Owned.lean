import Bixd.SHAMap.Basic
import Bixd.SHAMap.Tree.Edit

open Branch Set

-- What the heap holds below a pointer, as a tree together with the addresses that the map may write.
-- A null pointer stands for the empty tree.
namespace SHAMap

open SHAMap.Tree (WF)

-- Reads only, whoever owns the nodes and whatever their hashes are.
inductive Denotes (h : NodeHeap) : Option Addr → Tree → Prop
  | empty : Denotes h none .empty
  | leaf {a hash cowid ty i} : h.get a = .leaf hash cowid ty i → Denotes h (some a) (.leaf ty i)
  | inner {a hash cowid bs ts} :
    h.get a = .inner hash cowid bs → (∀ b, Denotes h ((bs b).map child) (ts b)) →
      Denotes h (some a) (.inner ts)

variable [Digest]

-- No map owns these nodes, and all of their hashes are up to date.
inductive Shared (h : NodeHeap) : Option Addr → Tree → Prop
  | empty : Shared h none .empty
  | leaf {a ty i} : a < h.next → h.get a = .leaf (leafHash ty i) 0 ty i → Shared h (some a) (.leaf ty i)
  | inner {a bs ts} :
    a < h.next → h.get a = .inner (Tree.inner ts).hash 0 bs →
      (∀ b br, bs b = some br → br.hash = (ts b).hash) →
      (∀ b, Shared h ((bs b).map child) (ts b)) → Shared h (some a) (.inner ts)

-- The map with the id `c` owns the nodes at `S` and no others. If `sh` holds, then the remaining nodes
-- are shared, otherwise there are none. The hash of an owned inner node is not known.
inductive Owned (h : NodeHeap) (c : UInt32) (sh : Prop) : Option Addr → Tree → Set Addr → Prop
  | empty : Owned h c sh none .empty ∅
  | shared {x t} : sh → Shared h x t → Owned h c sh x t ∅
  | leaf {a ty i} :
    a < h.next → h.get a = .leaf (leafHash ty i) c ty i → Owned h c sh (some a) (.leaf ty i) {a}
  | inner {a bs ts} {Ss : Fin 16 → Set Addr} :
    a < h.next → h.get a = .inner 0 c bs →
      (∀ b, Owned h c sh ((bs b).map child) (ts b) (Ss b)) → (∀ b, a ∉ Ss b) →
      Pairwise (fun b b' => Disjoint (Ss b) (Ss b')) →
      Owned h c sh (some a) (.inner ts) (insert a (⋃ b, Ss b))

variable {h : NodeHeap} {sh : Prop}
omit [Digest] in

theorem Denotes.eq_none_iff (hd : Denotes h x t) : x = none ↔ t = .empty := by
  cases hd <;> simp

theorem Shared.denotes (hs : Shared h x t) : Denotes h x t := by
  induction hs
  case empty => exact .empty
  case leaf hg => exact .leaf hg
  case inner hg _ _ ih => exact .inner hg ih

theorem Shared.frame (hs : Shared h x t) (f : h.Frame W h')
    (hw : ∀ a ∈ W, a < h.next → (h.get a).cowid ≠ 0) : Shared h' x t := by
  have hget {a n} (hl : a < h.next) (hg : h.get a = n) (hc : n.cowid = 0) : h'.get a = n := by
    rw [← hg]
    exact f.get_eq a hl (fun hm => hw a hm hl (hg ▸ hc))
  induction hs
  case empty => exact .empty
  case leaf hl hg => exact .leaf (hl.trans_le f.next_le) (hget hl hg rfl)
  case inner hl hg hb _ ih => exact .inner (hl.trans_le f.next_le) (hget hl hg rfl) hb ih

namespace Owned

theorem denotes (ho : Owned h c sh x t S) : Denotes h x t := by
  induction ho
  case empty => exact .empty
  case shared hs => exact hs.denotes
  case leaf hg => exact .leaf hg
  case inner hg _ _ _ ih => exact .inner hg ih

theorem lt (ho : Owned h c sh (some a) t S) : a < h.next := by
  cases ho
  case shared hs => cases hs <;> assumption
  all_goals assumption

theorem shared_of_none (ho : Owned h c sh none t S) : Shared h none t := by
  match ho with
  | .empty | .shared _ .empty => exact .empty

theorem shared_of_cowid (hc : c ≠ 0) (ho : Owned h c sh (some a) t S) (hz : (h.get a).cowid = 0) :
    Shared h (some a) t := by
  match ho with
  | .shared _ hs => exact hs
  | .leaf _ hg | .inner _ hg _ _ _ =>
    rw [hg] at hz
    exact absurd hz hc

theorem shared_of_eq_empty (ho : Owned h c sh x t S) (hS : S = ∅) : Shared h x t := by
  cases ho
  case empty => exact .empty
  case shared hs => exact hs
  case leaf => exact absurd hS (singleton_ne_empty _)
  case inner => exact absurd hS (insert_nonempty _ _).ne_empty

theorem of_mem (ho : Owned h c sh x t S) (hm : a ∈ S) : a < h.next ∧ (h.get a).cowid = c := by
  induction ho
  case empty => simp at hm
  case shared => simp at hm
  case leaf hl hg =>
    cases hm
    exact ⟨hl, by rw [hg]; rfl⟩
  case inner hl hg _ _ _ ih =>
    cases hm
    case inl he => exact ⟨he ▸ hl, by rw [he, hg]; rfl⟩
    case inr hm =>
      have ⟨b, hb⟩ := mem_iUnion.mp hm
      exact ih b hb

theorem frame (ho : Owned h c sh x t S) (f : h.Frame W h')
    (hw : ∀ a ∈ W, a < h.next → (h.get a).cowid ≠ 0) (hd : Disjoint S W) : Owned h' c sh x t S := by
  have hget {a} (hl : a < h.next) (hn : a ∉ W) : h'.get a = h.get a := f.get_eq a hl hn
  induction ho
  case empty => exact .empty
  case shared hs hx => exact .shared hs (hx.frame f hw)
  case leaf hl hg =>
    have hn := disjoint_left.mp hd rfl
    exact .leaf (hl.trans_le f.next_le) (hget hl hn ▸ hg)
  case inner hl hg _ ha hp ih =>
    have hn := disjoint_left.mp hd (mem_insert _ _)
    refine .inner (hl.trans_le f.next_le) (hget hl hn ▸ hg) (fun b => ih b ?_) ha hp
    exact hd.mono_left (fun _ hm => .inr (mem_iUnion.mpr ⟨b, hm⟩))

end Owned

-- An inner node with its branches apart. The owned nodes below the branches are at `Ss`.
structure Opened (h : NodeHeap) (c : UInt32) (sh : Prop) (a : Addr) (ts : Fin 16 → Tree) (S : Set Addr)
    (node : SHAMapTreeNode) (bs : Fin 16 → Option Branch) (Ss : Fin 16 → Set Addr) : Prop where
  lt       : a < h.next
  get      : h.get a = node
  owner    : (a ∈ S ∧ node = .inner 0 c bs) ∨ (sh ∧ (∃ hash, node = .inner hash 0 bs) ∧ ∀ b, Ss b = ∅)
  branches : ∀ b, Owned h c sh ((bs b).map child) (ts b) (Ss b)
  notMem   : ∀ b, a ∉ Ss b
  disjoint : Pairwise (fun b b' => Disjoint (Ss b) (Ss b'))
  subset   : ∀ b, Ss b ⊆ S

theorem Owned.opened (ho : Owned h c sh (some a) (.inner ts) S) :
    ∃ node bs Ss, Opened h c sh a ts S node bs Ss := by
  match ho with
  | .shared hsh (.inner hl hg _ hb) =>
    refine ⟨_, _, fun _ => ∅, hl, hg, .inr ⟨hsh, ⟨_, rfl⟩, fun _ => rfl⟩, fun b => .shared hsh (hb b), ?_, ?_, ?_⟩
      <;> simp [Pairwise]
  | .inner hl hg hb ha hp =>
    refine ⟨_, _, _, hl, hg, .inl ⟨.inl rfl, rfl⟩, hb, ha, hp, fun b _ hm => .inr ?_⟩
    exact mem_iUnion.mpr ⟨b, hm⟩

theorem Opened.inner (o : Opened h c sh a ts S node bs Ss) :
    ∃ hash cowid, node = .inner hash cowid bs := by
  rcases o.owner with ⟨_, rfl⟩ | ⟨_, ⟨_, rfl⟩, _⟩ <;> exact ⟨_, _, rfl⟩

-- A subtree whose owned nodes were at `S` in `h` has become the tree `t` at `x` in `h'`, and nothing
-- else has been written.
structure Edited (S : Set Addr) (h : NodeHeap) (c : UInt32) (sh : Prop) (h' : NodeHeap)
    (x : Option Addr) (t : Tree) : Prop where
  frame : h.Frame S h'
  owned : ∃ S', Owned h' c sh x t S' ∧ ∀ a ∈ S', a ∈ S ∨ h.next ≤ a

namespace Edited

theorem trans (e : h.Frame S h₁) (hs : ∀ a ∈ V, a ∈ S ∨ h.next ≤ a) (e' : Edited V h₁ c sh h₂ x t) :
    Edited S h c sh h₂ x t where
  frame := e.trans e'.frame hs
  owned := by
    have ⟨S'', ho, hs'⟩ := e'.owned
    refine ⟨S'', ho, fun a hm => ?_⟩
    cases hs' a hm
    case inl hm => exact hs a hm
    case inr hl => exact .inr (e.next_le.trans hl)

-- The node at `a'`, which is the opened one or a new one, gets a new branch `b`.
theorem attach (hc : c ≠ 0) (o : Opened h c sh a ts S node bs Ss)
    (f₁ : h.Frame (Ss b) h₁) (ho : Owned h₁ c sh x t S') (hs : ∀ a ∈ S', a ∈ Ss b ∨ h.next ≤ a)
    (ha : a' = a ∧ a ∈ S ∨ h.next ≤ a') (hn : a' ∉ S')
    (hw : a' < h₁.next → (h₁.get a').cowid ≠ 0) (f₂ : h₁.Frame {a'} h₂) (hl : a' < h₂.next)
    (bs' : Fin 16 → Option Branch) (hg : h₂.get a' = .inner 0 c bs')
    (hbs : ∀ b', (bs' b').map child = if b' = b then x else (bs b').map child) :
    Edited S h c sh h₂ (some a') (.inner (Function.update ts b t)) where
  frame := by
    refine (f₁.mono (o.subset b)).trans f₂ ?_
    rintro _ rfl
    exact ha.imp_left (fun ⟨he, hm⟩ => he ▸ hm)
  owned := by
    have hn' b' : a' ∉ Ss b' := by
      rcases ha with ⟨rfl, _⟩ | hf
      · exact o.notMem b'
      · exact fun hm => absurd ((o.branches b').of_mem hm).left (Nat.not_lt_of_le hf)
    have hw' : ∀ x ∈ ({a'} : Set Addr), x < h₁.next → (h₁.get x).cowid ≠ 0 := by
      rintro _ rfl; exact hw
    have hd {b'} (hb : b' ≠ b) : Disjoint (Ss b') S' := by
      refine disjoint_left.mpr (fun y hy hy' => ?_)
      cases hs y hy'
      case inl hm => exact disjoint_left.mp (o.disjoint hb) hy hm
      case inr hf => exact absurd ((o.branches b').of_mem hy).left (Nat.not_lt_of_le hf)
    refine ⟨insert a' (⋃ b', Function.update Ss b S' b'), .inner hl hg (fun b' => ?_) (fun b' => ?_) ?_, ?_⟩
    · by_cases hb : b' = b
      · subst hb
        simpa [hbs] using ho.frame f₂ hw' (disjoint_singleton_right.mpr hn)
      · simp only [Function.update_of_ne hb, hbs, if_neg hb]
        refine ((o.branches b').frame f₁ ?_ (o.disjoint hb)).frame f₂ hw' ?_
        · exact fun y hy _ => ((o.branches b).of_mem hy).right ▸ hc
        · exact disjoint_singleton_right.mpr (hn' b')
    · by_cases hb : b' = b
      · subst hb; simpa using hn
      · simpa [hb] using hn' b'
    · intro b₁ b₂ hb
      by_cases h₁ : b₁ = b
      · subst h₁; simpa [hb.symm] using (hd hb.symm).symm
      · by_cases h₂ : b₂ = b
        · subst h₂; simpa [h₁] using hd h₁
        · simpa [h₁, h₂] using o.disjoint hb
    · rintro y (rfl | hy)
      · exact ha.imp_left (fun ⟨he, hm⟩ => he ▸ hm)
      · have ⟨b', hy⟩ := mem_iUnion.mp hy
        by_cases hb : b' = b
        · subst hb
          exact (hs y (by simpa using hy)).imp_left (o.subset _ ·)
        · exact .inl (o.subset b' (by simpa [hb] using hy))

end Edited
end SHAMap
