import Bixd.SHAMap.Theorems.Owned

open SHAMapTreeNode Function

-- Flushing a map makes all of its nodes shareable and brings their hashes up to date. The map that
-- flushes has the id `c'`, while the nodes are owned by the map with the id `c`: the two differ when
-- a snapshot is flushed that starts out with the nodes of another map. It then flushes copies.
namespace SHAMap

variable [Digest] {h h' : NodeHeap} {m : SHAMap}
variable {t : Tree}

theorem Shared.getHash (hs : Shared h (some a) t) : (h.get a).getHash = t.hash := by
  match hs with
  | .leaf _ hg | .inner _ hg _ _ => rw [hg]; rfl

-- The inner node at `a` while its branches are flushed.
structure Flushing (h : NodeHeap) (c c' : UInt32) (a : Addr) (ts : Fin 16 → Tree)
    (bs : Fin 16 → Option Branch) (Ss : Fin 16 → Set Addr) : Prop where
  lt       : a < h.next
  get      : ∃ hash, h.get a = .inner hash c' bs
  branches : ∀ b, Owned h c True ((bs b).map Branch.child) (ts b) (Ss b)
  notMem   : ∀ b, a ∉ Ss b
  disjoint : Pairwise (fun b b' => Disjoint (Ss b) (Ss b'))

-- What flushing writes, apart from new nodes.
def flushed (c c' : UInt32) (S : Set Addr) : Set Addr :=
  { x | x ∈ S ∧ c = c' }

omit [Digest] in

theorem preFlushNode_spec (c' : UInt32) (hl : y < h.next) (hg : h.get y = n)
    (hn : n.cowid = c) (hm : y ∈ S) :
    ∃ y' h', preFlushNode c' h y = (y', h') ∧ h'.get y' = n.clone c' ∧ y' < h'.next ∧ h.Frame ∅ h' ∧
      (y' ∈ flushed c c' S ∧ y' = y ∨ h.next ≤ y') := by
  by_cases hc : c = c'
  case pos =>
    refine ⟨y, h, by simp [preFlushNode, hg, hn, hc], ?_, hl, .refl, .inl ⟨⟨hm, hc⟩, rfl⟩⟩
    rw [hg, ← hc, ← hn]
    cases n <;> rfl
  case neg =>
    refine ⟨h.next, h.alloc (n.clone c'), by simp [preFlushNode, hg, hn, hc], by simp, by simp, .alloc, ?_⟩
    exact .inr le_rfl

namespace Flushing

theorem cowid_ne_zero (hc : c ≠ 0) (hc' : c' ≠ 0) (fl : Flushing h c c' a ts bs Ss)
    (hy : y = a ∨ y ∈ Ss b) : (h.get y).cowid ≠ 0 := by
  cases hy
  case inl he =>
    have ⟨_, hg⟩ := fl.get
    rw [he, hg]
    exact hc'
  case inr hm => exact ((fl.branches b).of_mem hm).right ▸ hc

theorem drop (fl : Flushing h c c' a ts bs Ss) (hl : a < h'.next)
    (hg : ∃ hash, h'.get a = .inner hash c' bs')
    (hs : Shared h' ((bs' b).map Branch.child) (ts b))
    (ho : ∀ b', b' ≠ b → Owned h' c True ((bs' b').map Branch.child) (ts b') (Ss b')) :
    Flushing h' c c' a ts bs' (update Ss b ∅) where
  lt := hl
  get := hg
  branches b' := by
    by_cases hx : b' = b
    · subst hx; simpa using Owned.shared trivial hs
    · simpa [hx] using ho b' hx
  notMem b' := by
    by_cases hx : b' = b
    · simp [hx]
    · simpa [hx] using fl.notMem b'
  disjoint b₁ b₂ hne := by
    by_cases h₁ : b₁ = b
    · simp [h₁]
    · by_cases h₂ : b₂ = b
      · simp [h₂]
      · simpa [h₁, h₂] using fl.disjoint hne

theorem link (hc : c ≠ 0) (hc' : c' ≠ 0) (fl : Flushing h c c' a ts bs Ss) (hb : bs b = some br)
    (f : h.Frame (flushed c c' (Ss b)) h₁) (hs : Shared h₁ (some y) (ts b)) :
    Flushing (h₁.modify a (·.shareChild b y)) c c' a ts (update bs b (some { br with child := y }))
      (update Ss b ∅) ∧
    Shared (h₁.modify a (·.shareChild b y)) (some y) (ts b) ∧
    h.Frame (insert a (flushed c c' (Ss b))) (h₁.modify a (·.shareChild b y)) := by
  have ⟨hash, hg⟩ := fl.get
  have hg₁ : h₁.get a = .inner hash c' bs := hg ▸ f.get_eq a fl.lt (fun hm => fl.notMem b hm.left)
  have f₂ : h₁.Frame {a} (h₁.modify a (·.shareChild b y)) := .modify rfl
  have hw : ∀ x ∈ ({a} : Set Addr), x < h₁.next → (h₁.get x).cowid ≠ 0 := by
    rintro _ rfl _
    rw [hg₁]
    exact hc'
  have hs' := hs.frame f₂ hw
  refine ⟨fl.drop (fl.lt.trans_le f.next_le) ⟨hash, ?_⟩ (by simpa using hs') (fun b' hx => ?_), hs', ?_⟩
  · rw [Heap.get_modify_self, hg₁]
    simp [shareChild, hb]
  · rw [update_of_ne hx]
    refine ((fl.branches b').frame f ?_ ?_).frame f₂ hw ?_
    · exact fun _ hm _ => fl.cowid_ne_zero hc hc' (.inr hm.left)
    · exact (fl.disjoint hx).mono_right (fun _ hm => hm.left)
    · exact Set.disjoint_singleton_right.mpr (fl.notMem b')
  · exact (f.mono (Set.subset_insert _ _)).trans f₂ (by simp)

-- `visit` makes the inner node at its argument shared. The induction over the tree supplies this
-- for the branches.
def Visits (visit : NodeHeap → Addr → NodeHeap) (c c' : UInt32) (t : Tree) : Prop :=
  ∀ {h a ts bs Ss}, t = .inner ts → Flushing h c c' a ts bs Ss →
    Shared (visit h a) (some a) t ∧ h.Frame (insert a (flushed c c' (⋃ b, Ss b))) (visit h a)

theorem child (ho : Owned h c True (some y) t S) (hv : Visits visit c c' t)
    (hn : (h.get y).cowid ≠ 0) :
    ∃ y' h₁, preFlushNode c' h y = (y', h₁) ∧ (h₁.get y').isLeaf = (h.get y).isLeaf ∧
      Shared (if (h₁.get y').isLeaf then (h₁.modify y' .updateHash).modify y' .unshare else visit h₁ y')
        (some y') t ∧
      h.Frame (flushed c c' S)
        (if (h₁.get y').isLeaf then (h₁.modify y' .updateHash).modify y' .unshare else visit h₁ y') := by
  match ho with
  | .shared _ (.leaf _ hg) | .shared _ (.inner _ hg _ _) =>
    rw [hg] at hn
    exact absurd rfl hn
  | .leaf hl hg =>
    have ⟨y', h₁, hp, hg', hl', f, ha⟩ := preFlushNode_spec c' hl hg rfl (Set.mem_singleton y)
    refine ⟨y', h₁, hp, by rw [hg', hg]; rfl, ?_⟩
    simp only [hg', clone, isLeaf, if_true]
    refine ⟨.leaf hl' ?_, ?_⟩
    · simp only [Heap.get_modify_self, hg']
      rfl
    · refine (f.mono (by simp)).trans (V := {y'}) (.trans' (.modify rfl) (.modify rfl)) ?_
      rintro _ rfl
      exact ha.imp_left And.left
  | @Owned.inner _ _ _ _ _ bs ts Ss hl hg hb hm hd =>
    have ⟨y', h₁, hp, hg', hl', f, ha⟩ := preFlushNode_spec c' hl hg rfl (Set.mem_insert y (⋃ b, Ss b))
    refine ⟨y', h₁, hp, by rw [hg', hg]; rfl, ?_⟩
    simp only [hg', clone, isLeaf, if_false, Bool.false_eq_true]
    have hn' b : y' ∉ Ss b := by
      rcases ha with ⟨_, rfl⟩ | hf
      · exact hm b
      · exact fun hx => absurd ((hb b).of_mem hx).left (Nat.not_lt_of_le hf)
    have ⟨hs, f'⟩ := hv rfl ⟨hl', ⟨_, hg'⟩, fun b => (hb b).frame f (by simp) (by simp), hn', hd⟩
    refine ⟨hs, (f.mono (by simp)).trans f' ?_⟩
    rintro x (rfl | ⟨hx, he⟩)
    · exact ha.imp_left And.left
    · exact .inl ⟨.inr hx, he⟩

theorem flushBranch (hc : c ≠ 0) (hc' : c' ≠ 0) (fl : Flushing h c c' a ts bs Ss)
    (hv : Visits visit c c' (ts b)) (hh : h' = walkSubTree.flushBranch c' visit a h b) :
    ∃ bs', Flushing h' c c' a ts bs' (update Ss b ∅) ∧
      Shared h' ((bs' b).map Branch.child) (ts b) ∧ (∀ b', b' ≠ b → bs' b' = bs b') ∧
      h.Frame (insert a (flushed c c' (Ss b))) h' := by
  have ⟨hash, hg⟩ := fl.get
  have ho := fl.branches b
  -- Nothing to do for an empty branch and a shared one.
  have hskip (hs : Shared h ((bs b).map Branch.child) (ts b)) :=
    fl.drop fl.lt fl.get hs (fun b' _ => fl.branches b')
  rw [walkSubTree.flushBranch, hg] at hh
  match hb : bs b with
  | none =>
    simp only [SHAMapTreeNode.branches, hb] at hh
    have hs : Shared h ((bs b).map Branch.child) (ts b) := by
      rw [hb] at ho ⊢
      exact ho.shared_of_none
    exact ⟨bs, hh ▸ hskip hs, hh ▸ hs, fun _ _ => rfl, hh ▸ .refl⟩
  | some br =>
    simp only [SHAMapTreeNode.branches, hb] at hh
    rw [hb] at ho
    by_cases hz : (h.get br.child).cowid = 0
    case pos =>
      rw [if_pos hz] at hh
      have hs : Shared h ((bs b).map Branch.child) (ts b) := by
        rw [hb]
        exact ho.shared_of_cowid hc hz
      exact ⟨bs, hh ▸ hskip hs, hh ▸ hs, fun _ _ => rfl, hh ▸ .refl⟩
    case neg =>
      rw [if_neg hz] at hh
      have ⟨y', h₁, hp, _, hs, f⟩ := child ho hv hz
      simp only [hp] at hh
      have ⟨fl', hs', f'⟩ := fl.link hc hc' hb f hs
      refine ⟨_, hh ▸ fl', ?_, fun b' hb' => by simp [hb'], hh ▸ f'⟩
      simpa [hh] using hs'

-- What is shared stays so while the other branches are flushed.
theorem foldl (hc : c ≠ 0) (hc' : c' ≠ 0) (hv : ∀ b, Visits visit c c' (ts b)) (l : List (Fin 16))
    (fl : Flushing h c c' a ts bs Ss) (hh : h' = l.foldl (walkSubTree.flushBranch c' visit a) h) :
    ∃ bs' Ss', Flushing h' c c' a ts bs' Ss' ∧
      (∀ b, b ∈ l ∨ Shared h ((bs b).map Branch.child) (ts b) →
        Shared h' ((bs' b).map Branch.child) (ts b)) ∧
      h.Frame (insert a (flushed c c' (⋃ b, Ss b))) h' := by
  induction l generalizing h bs Ss
  case nil => exact ⟨bs, Ss, hh ▸ fl, fun b hs => hh ▸ hs.resolve_left (by simp), hh ▸ .refl⟩
  case cons b l ih =>
    have ⟨bs₁, fl₁, hs₁, hb₁, f₁⟩ := fl.flushBranch hc hc' (hv b) rfl
    have ⟨bs', Ss', fl', hs', f'⟩ := ih fl₁ hh
    refine ⟨bs', Ss', fl', fun b' hb' => hs' b' ?_, ?_⟩
    · by_cases hx : b' = b
      case pos => exact .inr (hx ▸ hs₁)
      refine hb'.imp (fun hm => (List.mem_cons.mp hm).resolve_left hx) (fun hs => ?_)
      rw [hb₁ b' hx]
      refine hs.frame f₁ (fun y hy _ => fl.cowid_ne_zero (b := b) hc hc' ?_)
      exact hy.imp_right And.left
    · have hsub : flushed c c' (Ss b) ⊆ flushed c c' (⋃ b, Ss b) :=
        fun y hy => ⟨Set.mem_iUnion.mpr ⟨b, hy.left⟩, hy.right⟩
      refine (f₁.mono (Set.insert_subset_insert hsub)).trans f' ?_
      rintro y (rfl | ⟨hy, he⟩)
      · exact .inl (.inl rfl)
      · have ⟨b', hy⟩ := Set.mem_iUnion.mp hy
        refine .inl (.inr ⟨Set.mem_iUnion.mpr ⟨b', ?_⟩, he⟩)
        by_cases hx : b' = b
        · simp [hx] at hy
        · simpa [hx] using hy

-- All branches are shared, so the node can be hashed and become shared itself.
theorem finish (hc' : c' ≠ 0) (fl : Flushing h c c' a ts bs Ss)
    (hs : ∀ b, Shared h ((bs b).map Branch.child) (ts b)) :
    Shared ((h.modify a (·.updateHashDeep h)).modify a .unshare) (some a) (.inner ts) := by
  have ⟨hash, hg⟩ := fl.get
  have f : h.Frame {a} ((h.modify a (·.updateHashDeep h)).modify a .unshare) :=
    .trans' (.modify rfl) (.modify rfl)
  have hs' b := (hs b).frame f (by rintro _ rfl _; rw [hg]; exact hc')
  have hbr : ∀ b br, bs b = some br → (h.get br.child).getHash = (ts b).hash ∧ ts b ≠ .empty := by
    intro b br hb
    have hsb := hs b
    rw [hb] at hsb
    refine ⟨hsb.getHash, fun he => ?_⟩
    rw [he] at hsb
    cases hsb
  have hhash : (innerHash fun b => (bs b).map (fun br => (h.get br.child).getHash)) = (Tree.inner ts).hash := by
    congr
    funext b
    cases hb : bs b
    case none =>
      have hsb := hs b
      rw [hb] at hsb
      cases hx : ts b <;> rw [hx] at hsb <;> cases hsb
      rfl
    case some br =>
      have ⟨he, hne⟩ := hbr b br hb
      simp [Tree.isEmpty_iff, hne, he]
  let bs' b := (bs b).map (fun br => { br with hash := (h.get br.child).getHash })
  have hg' : ((h.modify a (·.updateHashDeep h)).modify a .unshare).get a = .inner (Tree.inner ts).hash 0 bs' := by
    simp only [Heap.get_modify_self, hg, updateHashDeep, updateHash,
      SHAMapTreeNode.unshare, clone, Option.map_map, comp_def, hhash, bs']
  refine .inner fl.lt hg' ?_ ?_
  · intro b br' hb
    simp only [bs'] at hb
    cases hx : bs b <;> rw [hx] at hb <;> cases hb
    exact (hbr b _ hx).left
  · intro b
    simpa [bs', Option.map_map, comp_def] using hs' b

theorem visits (fuel : Nat) (hc : c ≠ 0) (hc' : c' ≠ 0) (hp : t.Placed p)
    (hf : 65 ≤ fuel + p.length) : Visits (walkSubTree.visit c' fuel) c c' t := by
  induction t generalizing p fuel
  case empty => intro _ _ _ _ _ he; cases he
  case leaf => intro _ _ _ _ _ he; cases he
  case inner ts ih =>
    intro h a ts' bs Ss he fl
    cases he
    have hlt := hp.left
    obtain _ | fuel := fuel
    · omega
    have hv b : Visits (walkSubTree.visit c' fuel) c c' (ts b) :=
      ih b fuel (hp.right b) (by rw [List.length_append, List.length_singleton]; omega)
    have ⟨bs', Ss', fl', hs, f⟩ := fl.foldl hc hc' hv (List.finRange 16) rfl
    refine ⟨fl'.finish hc' (fun b => hs b (.inl (List.mem_finRange b))), f.trans' ?_⟩
    exact .trans' (.modify (.inl rfl)) (.modify (.inl rfl))

end Flushing

section Unshare

theorem unshare_spec (hc : c ≠ 0) (hc' : m.cowid ≠ 0)
    (ho : Owned h c True (some m.root) (.inner ts) S) (hp : (Tree.inner ts).Placed []) :
    ∃ a h', m.unshare h = ({ m with root := a }, h') ∧ Shared h' (some a) (.inner ts) ∧
      h.Frame (flushed c m.cowid S) h' := by
  by_cases hz : (h.get m.root).cowid = 0
  case pos => exact ⟨m.root, h, by simp [unshare, hz], ho.shared_of_cowid hc hz, .refl⟩
  obtain ⟨_, bs, Ss, o⟩ := ho.opened
  obtain ⟨hash, cowid, hn⟩ := o.inner
  have hg := o.get.trans hn
  have hleaf : (h.get m.root).isLeaf = false := by rw [hg]; rfl
  by_cases he : (h.get m.root).isEmpty
  case pos =>
    have hts b : ts b = .empty := by
      have hbn : bs b = none := by
        simpa [hg, isEmpty, isEmptyBranch, branches] using
          List.all_eq_true.mp he b (List.mem_finRange b)
      exact (o.branches b).denotes.eq_none_iff.mp (by rw [hbn]; rfl)
    have hg' : (h.alloc (.newInner 0)).get h.next = .inner (Tree.inner ts).hash 0 (fun _ => none) := by
      simp [newInner, Tree.hash, hts, Tree.isEmpty, innerHash]
    refine ⟨h.next, h.alloc (.newInner 0), ?_, .inner (by simp) hg' (by simp) ?_, .alloc⟩
    · simp [unshare, hz, he, hleaf]
    · exact fun b => hts b ▸ .empty
  case neg =>
    obtain ⟨a, h₁, hpre, hl, hs, f⟩ :=
      Flushing.child ho (Flushing.visits levels hc hc' hp (by simp [levels])) hz
    rw [hl, hleaf] at hs f
    refine ⟨a, walkSubTree.visit m.cowid levels h₁ a, ?_, by simpa using hs, by simpa using f⟩
    simp [unshare, hz, he, hleaf, hpre]

theorem getHash_spec (hc : m.cowid ≠ 0) (ho : Owned h m.cowid True (some m.root) (.inner ts) S)
    (hp : (Tree.inner ts).Placed []) :
    ∃ a h', m.getHash h = ((Tree.inner ts).hash, { m with root := a }, h') ∧
      Shared h' (some a) (.inner ts) ∧ h.Frame S h' := by
  by_cases hz : (h.get m.root).getHash = 0
  case pos =>
    have ⟨a, h', hu, hs, f⟩ := unshare_spec hc hc ho hp
    refine ⟨a, h', ?_, hs, f.mono (fun _ hm => hm.left)⟩
    simp only [getHash, hz, if_true, hu, hs.getHash]
  case neg =>
    match ho with
    | .inner _ hg _ _ _ =>
      rw [hg] at hz
      exact absurd rfl hz
    | .shared _ hs => exact ⟨m.root, h, by rw [getHash, if_neg hz, hs.getHash], hs, .refl⟩

theorem snapShot_spec (isMutable : Bool) (hc : m.cowid ≠ 0) (hc' : m.cowid + 1 ≠ 0)
    (ho : Owned h m.cowid True (some m.root) (.inner ts) S) (hi : m.state = .immutable → S = ∅)
    (hp : (Tree.inner ts).Placed []) :
    ∃ a h', m.snapShot h isMutable =
        ({ cowid := m.cowid + 1, root := a, state := if isMutable then .modifying else .immutable }, h') ∧
      Shared h' (some a) (.inner ts) ∧ h.Frame ∅ h' := by
  let newMap : SHAMap :=
    { cowid := m.cowid + 1, root := m.root, state := if isMutable then .modifying else .immutable }
  by_cases hs : m.state ≠ .immutable ∨ newMap.state ≠ .immutable
  case pos =>
    have ⟨a, h', hu, hsh, f⟩ := unshare_spec (m := newMap) hc hc' ho hp
    refine ⟨a, h', by rw [snapShot, if_pos hs]; exact hu, hsh, f.mono ?_⟩
    rintro x ⟨_, he⟩
    simp [newMap] at he
  case neg =>
    have him : m.state = .immutable := by
      by_contra hx
      exact hs (.inl hx)
    exact ⟨m.root, h, by rw [snapShot, if_neg hs], ho.shared_of_eq_empty (hi him), .refl⟩

end Unshare
end SHAMap
