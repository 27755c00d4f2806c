import Bixd.SHAMap.Theorems.History

open Function List

-- Maps that share nodes do not see each other's edits.
namespace SHAMap

variable [Digest] {sh : Prop}

theorem Owned.reach (ho : Owned h c sh (some a) t S) (hr : Reach h a y) :
    ∃ t' S', Owned h c sh (some y) t' S' ∧ S' ⊆ S := by
  induction hr
  case refl => exact ⟨t, S, ho, subset_rfl⟩
  case child i br _ hg hb ih =>
    have ⟨t', S', ho', hs⟩ := ih
    cases t'
    case empty => cases ho'.denotes
    case leaf =>
      match ho'.denotes with
      | .leaf hg' => cases hg.symm.trans hg'
    case inner ts =>
      have ⟨_, bs, Ss, o⟩ := ho'.opened
      have ⟨_, _, hn⟩ := o.inner
      cases hg.symm.trans (o.get.trans hn)
      have hx := o.branches i
      rw [hb] at hx
      exact ⟨_, _, hx, (o.subset i).trans hs⟩

theorem Valid.reach (v : Valid h m sh ts S) (hr : Reach h m.root y) :
    y < h.next ∧ (y ∈ S ∧ (h.get y).cowid = m.cowid ∨ (h.get y).cowid = 0) := by
  have ⟨t', S', ho, hs⟩ := v.owned.reach hr
  refine ⟨ho.lt, ?_⟩
  match ho with
  | .shared _ (.leaf _ hg) | .shared _ (.inner _ hg _ _) => exact .inr (by rw [hg]; rfl)
  | .leaf _ hg => exact .inl ⟨hs rfl, by rw [hg]; rfl⟩
  | .inner _ hg _ _ _ => exact .inl ⟨hs (Set.mem_insert _ _), by rw [hg]; rfl⟩

namespace World

variable {w : World}

-- The map at `i` stands for the root of `tss i` and owns the nodes at `Ss i`.
structure Inv (w : World) (tss : Nat → Fin 16 → Tree) (Ss : Nat → Set Addr) : Prop where
  valid     : ∀ {i m}, w.maps[i]? = some m → Valid w.heap m True (tss i) (Ss i)
  immutable : ∀ {i m}, w.maps[i]? = some m → m.state = .immutable → Ss i = ∅
  disjoint  : ∀ {i j m n}, w.maps[i]? = some m → w.maps[j]? = some n → i ≠ j → Disjoint (Ss i) (Ss j)

theorem init_inv : Inv init (fun _ _ => .empty) (fun _ => {0}) := by
  have hm {i m} (hi : init.maps[i]? = some m) : i = 0 ∧ m = empty.1 := by
    cases i <;> simp_all [init]
  constructor
  case valid =>
    intro i m hi
    exact (hm hi).right ▸ empty_valid
  case immutable =>
    intro i m hi hs
    rw [(hm hi).right] at hs
    cases hs
  case disjoint =>
    intro i j m n hi hj hne
    exact absurd ((hm hi).left.trans (hm hj).left.symm) hne

theorem Inv.other (inv : Inv w tss Ss) (hi : w.maps[i]? = some m) (hj : w.maps[j]? = some n)
    (hne : j ≠ i) (f : w.heap.Frame (Ss i) h') : Valid h' n True (tss j) (Ss j) where
  cowid := (inv.valid hj).cowid
  wf := (inv.valid hj).wf
  owned := by
    refine (inv.valid hj).owned.frame f ?_ (inv.disjoint hj hi hne)
    intro y hy _
    exact ((inv.valid hi).owned.of_mem hy).right ▸ (inv.valid hi).cowid

theorem Inv.set (inv : Inv w tss Ss) (hi : w.maps[i]? = some m)
    (ex : Executed (Ss i) w.heap m (tss i) h' m' newMap ts' S') :
    Inv ⟨h', w.maps.set i m'⟩ (update tss i ts') (update Ss i S') := by
  have hd {j n} (hj : w.maps[j]? = some n) (hne : j ≠ i) : Disjoint (Ss j) S' := by
    refine Set.disjoint_left.mpr (fun y hy hy' => ?_)
    cases ex.fresh y hy'
    case inl hm => exact Set.disjoint_left.mp (inv.disjoint hj hi hne) hy hm
    case inr hl => exact absurd ((inv.valid hj).owned.of_mem hy).left (Nat.not_lt_of_le hl)
  have hget {j n} (hj : (w.maps.set i m')[j]? = some n) : (j = i ∧ n = m') ∨ (j ≠ i ∧ w.maps[j]? = some n) := by
    rw [getElem?_set] at hj
    by_cases he : i = j
    · refine .inl ⟨he.symm, ?_⟩
      split at hj
      · split at hj <;> simp_all
      · simp_all
    · exact .inr ⟨fun hx => he hx.symm, by simpa [he] using hj⟩
  constructor
  case valid =>
    intro j n hj
    rcases hget hj with ⟨rfl, rfl⟩ | ⟨hne, hj⟩
    · simpa using ex.valid
    · simpa [hne] using inv.other hi hj hne ex.frame
  case immutable =>
    intro j n hj hs
    rcases hget hj with ⟨rfl, rfl⟩ | ⟨hne, hj⟩
    · simpa using ex.immutable hs
    · simpa [hne] using inv.immutable hj hs
  case disjoint =>
    intro j₁ j₂ n₁ n₂ hj₁ hj₂ hne
    rcases hget hj₁ with ⟨rfl, rfl⟩ | ⟨hn₁, hg₁⟩ <;> rcases hget hj₂ with ⟨rfl, rfl⟩ | ⟨hn₂, hg₂⟩
    · exact absurd rfl hne
    · simpa [hn₂] using (hd hg₂ hn₂).symm
    · simpa [hn₁] using hd hg₁ hn₁
    · simpa [hn₁, hn₂] using inv.disjoint hg₁ hg₂ hne

theorem Inv.push (inv : Inv w tss Ss) (v : Valid w.heap m True ts ∅) :
    Inv ⟨w.heap, w.maps ++ [m]⟩ (update tss w.maps.length ts)
      (update Ss w.maps.length ∅) := by
  have hget {j n} (hj : (w.maps ++ [m])[j]? = some n) :
      (j = w.maps.length ∧ n = m) ∨ (j ≠ w.maps.length ∧ w.maps[j]? = some n) := by
    rw [getElem?_append] at hj
    split at hj
    case isTrue hl => exact .inr ⟨Nat.ne_of_lt hl, hj⟩
    case isFalse hl =>
      have := List.getElem?_eq_some_iff.mp hj
      simp at this
      exact .inl ⟨by omega, this.right.symm⟩
  constructor
  case valid =>
    intro j n hj
    rcases hget hj with ⟨rfl, rfl⟩ | ⟨hne, hj⟩
    · simpa using v
    · simpa [hne] using inv.valid hj
  case immutable =>
    intro j n hj hs
    rcases hget hj with ⟨rfl, rfl⟩ | ⟨hne, hj⟩
    · simp
    · simpa [hne] using inv.immutable hj hs
  case disjoint =>
    intro j₁ j₂ n₁ n₂ hj₁ hj₂ hne
    rcases hget hj₁ with ⟨rfl, rfl⟩ | ⟨hn₁, hg₁⟩ <;> rcases hget hj₂ with ⟨rfl, rfl⟩ | ⟨hn₂, hg₂⟩
    · exact absurd rfl hne
    · simp
    · simp
    · simpa [hn₁, hn₂] using inv.disjoint hg₁ hg₂ hne

omit [Digest] in

theorem Fits.cowid_ne (hf : w.Fits i call) (hi : w.maps[i]? = some m) (b : Bool)
    (hc : call = .snapShot b) : m.cowid + 1 ≠ 0 := by
  intro hx
  refine hf m b hi hc (UInt32.toNat_inj.mp ?_)
  have hx := congrArg UInt32.toNat hx
  have := m.cowid.toNat_lt
  simp [UInt32.toNat_add] at hx ⊢
  omega

theorem Inv.step (inv : Inv w tss Ss) (hf : w.Fits i call) (s : Step w i call w') :
    ∃ tss' Ss', Inv w' tss' Ss' := by
  have ⟨ty, m, m', newMap, hi, hm, he, hmaps⟩ := s.call
  have ⟨m₁, h₁, n₁, ts₁, S₁, he₁, ex, _⟩ :=
    exec_spec (inv.valid hi) (inv.immutable hi) ty call hm (hf.cowid_ne hi)
  cases he.symm.trans he₁
  have inv' := inv.set hi ex
  have ⟨h', maps'⟩ := w'
  subst hmaps
  cases newMap
  case none => exact ⟨_, _, by simpa using inv'⟩
  case some n => exact ⟨_, _, inv'.push (ex.newMap n rfl)⟩

theorem Inv.exists_step (inv : Inv w tss Ss) (hi : w.maps[i]? = some m) (hf : w.Fits i call)
    (hm : call.mutates → m.state ≠ .immutable) : ∃ w', Step w i call w' := by
  have ⟨m', h', newMap, _, _, he, _⟩ :=
    exec_spec (inv.valid hi) (inv.immutable hi) .tnACCOUNT_STATE call hm (hf.cowid_ne hi)
  exact ⟨⟨h', w.maps.set i m' ++ newMap.toList⟩, _, m, m', newMap, hi, hm, he, rfl⟩

theorem FitReachable.inv (r : FitReachable w) : ∃ tss Ss, Inv w tss Ss := by
  induction r
  case init => exact ⟨_, _, init_inv⟩
  case step hf s ih =>
    have ⟨_, _, inv⟩ := ih
    exact inv.step hf s

-- A call on one map neither changes what another map stands for nor writes to any node of it. A node
-- of two maps belongs to neither.
theorem snapShots_isolated (r : FitReachable w) :
    (∀ (i j : Nat) (call : Call) (w' : World) (n : SHAMap), w.Fits i call → Step w i call w' → j ≠ i →
      w.maps[j]? = some n → w'.maps[j]? = some n ∧ n.items w'.heap = n.items w.heap ∧
      (n.getHash w'.heap).1 = (n.getHash w.heap).1 ∧
      ∀ a, Reach w.heap n.root a → w'.heap.get a = w.heap.get a) ∧
    ∀ (i j : Nat) (m n : SHAMap) (a : Addr), i ≠ j → w.maps[i]? = some m → w.maps[j]? = some n →
      Reach w.heap m.root a → Reach w.heap n.root a →
      (w.heap.get a).cowid ≠ m.cowid ∧ (w.heap.get a).cowid ≠ n.cowid := by
  obtain ⟨tss, Ss, inv⟩ := r.inv
  constructor
  · intro i j call w' n hf s hne hj
    obtain ⟨ty, m, m', newMap, hi, hm, he, hmaps⟩ := s.call
    obtain ⟨_, _, _, ts', S', he', ex, _⟩ :=
      exec_spec (inv.valid hi) (inv.immutable hi) ty call hm (hf.cowid_ne hi)
    cases he.symm.trans he'
    have v := inv.valid hj
    have v' := inv.other hi hj hne ex.frame
    refine ⟨?_, ?_, ?_, fun a hr => ?_⟩
    · have hl : j < (w.maps.set i m').length := by
        simpa using (List.getElem?_eq_some_iff.mp hj).choose
      rw [hmaps, getElem?_append_left hl, getElem?_set_ne (fun hx => hne hx.symm), hj]
    · rw [items, items, v.tree_eq, v'.tree_eq]
    · rw [v.getHash_eq, v'.getHash_eq]
    · obtain ⟨hl, ha⟩ := v.reach hr
      refine ex.frame.get_eq a hl (fun hm => ?_)
      have hc := (inv.valid hi).owned.of_mem hm |>.right
      rcases ha with ⟨ha, _⟩ | ha
      · exact Set.disjoint_left.mp (inv.disjoint hj hi hne) ha hm
      · exact (inv.valid hi).cowid (hc ▸ ha)
  · intro i j m n a hne hi hj hri hrj
    have vi := inv.valid hi
    have vj := inv.valid hj
    have hz : (w.heap.get a).cowid = 0 := by
      rcases (vi.reach hri).right with ⟨hm, hc⟩ | hz
      · rcases (vj.reach hrj).right with ⟨hn, _⟩ | hz
        · exact absurd hn (Set.disjoint_left.mp (inv.disjoint hi hj hne) hm)
        · exact hz
      · exact hz
    exact hz ▸ ⟨vi.cowid.symm, vj.cowid.symm⟩

section Chain

-- The chain of snapshots of an empty map. From the first snapshot on they all have the same root.
structure Chain (n : Nat) (w : World) : Prop where
  base  : w.maps[0]? = some empty.1
  first : w.maps[1]? = some { cowid := 2, root := 1, state := .modifying }
  last  : w.maps[n + 1]? = some { cowid := UInt32.ofNat (n + 2), root := 1, state := .modifying }
  size  : w.maps.length = n + 2
  root  : w.heap.get 1 = .newInner 0
  next  : w.heap.next = 2

theorem exists_chain_zero : ∃ w, Chain 0 w ∧ Step init 0 (.snapShot true) w := by
  let newMap : SHAMap := { cowid := 2, root := 1, state := .modifying }
  refine ⟨⟨empty.2.alloc (.newInner 0), [empty.1, newMap]⟩, ⟨rfl, rfl, rfl, rfl, rfl, rfl⟩, ?_⟩
  exact ⟨.tnACCOUNT_STATE, empty.1, empty.1, some newMap, rfl, by simp [Call.mutates], rfl, rfl⟩

omit [Digest] in

theorem snapShots_isolated_edit : ∃ (_ : Digest) (w w' : World) (n : SHAMap),
    FitReachable w ∧ Step w 0 (.edit (.addGiveItem ⟨0, []⟩)) w' ∧ w.maps[1]? = some n ∧
      n.items w'.heap = n.items w.heap := by
  let _ : Digest := ⟨fun _ => 0⟩
  have ⟨w, c, s⟩ := exists_chain_zero
  have r : FitReachable w := .step .init (by intro m _ hm _; cases hm; decide) s
  have ⟨_, _, inv⟩ := r.inv
  have hf : w.Fits 0 (.edit (.addGiveItem ⟨0, []⟩)) := by intro _ _ _ hc; cases hc
  have ⟨w', s'⟩ := inv.exists_step c.base hf (by decide)
  have hiso := (snapShots_isolated r).left 0 1 _ w' _ hf s' (by decide) c.first
  exact ⟨inferInstance, w, w', _, r, s', c.first, hiso.right.left⟩

theorem Chain.succ (c : Chain n w) :
    ∃ w', Chain (n + 1) w' ∧ Step w (n + 1) (.snapShot true) w' := by
  let lastMap : SHAMap := { cowid := UInt32.ofNat (n + 2), root := 1, state := .modifying }
  let newMap : SHAMap := { cowid := UInt32.ofNat (n + 3), root := 1, state := .modifying }
  have hset : w.maps.set (n + 1) lastMap = w.maps := by
    have ⟨hl, he⟩ := List.getElem?_eq_some_iff.mp c.last
    rw [show lastMap = w.maps[n + 1] from he.symm]
    exact set_getElem_self hl
  have hcow : lastMap.cowid + 1 = newMap.cowid := (UInt32.ofNat_add (n + 2) 1).symm
  refine ⟨⟨w.heap, w.maps ++ [newMap]⟩, ⟨?_, ?_, ?_, ?_, c.root, c.next⟩, ?_⟩
  · rw [getElem?_append_left (by rw [c.size]; omega), c.base]
  · rw [getElem?_append_left (by rw [c.size]; omega), c.first]
  · rw [getElem?_append_right (by rw [c.size])]
    simp only [c.size, Nat.sub_self, newMap]
    rfl
  · simp [c.size]
  · refine ⟨.tnACCOUNT_STATE, lastMap, lastMap, some newMap, c.last, by simp [Call.mutates], ?_, by simp [hset]⟩
    simp only [Call.exec, snapShot, unshare, hcow, lastMap, c.root]
    rfl

theorem exists_chain (n : Nat) : ∃ w, Chain n w ∧ Reachable w := by
  induction n
  case zero =>
    have ⟨w, c, s⟩ := exists_chain_zero
    exact ⟨w, c, .step .init s⟩
  case succ ih =>
    have ⟨w, c, r⟩ := ih
    have ⟨w', c', s⟩ := c.succ
    exact ⟨w', c', .step r s⟩

-- The ids of a chain that is long enough start over with the one that is nobody's. The last map then
-- writes to the root of all the others.
theorem Chain.overwrite (c : Chain n w) (hn : n + 2 = 2 ^ 32) (item : SHAMapItem) :
    ∃ w' : World, Step w (n + 1) (.edit (.addGiveItem item)) w' ∧
      ∃ m, w.maps[1]? = some m ∧ m.items w.heap = [] ∧ item ∈ m.items w'.heap := by
  let lastMap : SHAMap := { cowid := 0, root := 1, state := .modifying }
  have hlast : w.maps[n + 1]? = some lastMap := by
    rw [c.last, hn]
    rfl
  let h' := (w.heap.alloc (.makeTypedLeaf .tnACCOUNT_STATE item 0)).modify 1
    (·.setChild (item.key.nibble 0) (some 2))
  have hadd : lastMap.addGiveItem w.heap .tnACCOUNT_STATE item = .ok (true, lastMap, h') := by
    simp only [addGiveItem, walkTowardsKey, levels, walkTowardsKey.loop, lastMap, c.root,
      SHAMapTreeNode.newInner, bind, Except.bind, pure, Except.pure, addGiveItem.onStack, unshareNode,
      SHAMapTreeNode.cowid, ne_eq, not_true, if_false, dirtyUp, c.next]
    rfl
  have hroot : h'.get 1 =
      .inner 0 0 (update (fun _ => none) (item.key.nibble 0) (some ⟨0, 2⟩)) := by
    simp only [h', Heap.get_modify_self]
    rw [Heap.get_alloc_lt (by rw [c.next]; decide), c.root]
    rfl
  have hleaf : h'.get 2 = .makeTypedLeaf .tnACCOUNT_STATE item 0 := by
    simp only [h', Heap.get_modify_ne (show (2 : Addr) ≠ 1 by decide)]
    exact c.next ▸ Heap.get_alloc_self
  refine ⟨⟨h', w.maps.set (n + 1) lastMap⟩, ⟨.tnACCOUNT_STATE, lastMap, lastMap, none, hlast, ?_, ?_, ?_⟩, _,
    c.first, ?_, ?_⟩
  · simp [lastMap]
  · simp only [Call.exec, Edit.exec, hadd]
    rfl
  · simp
  · simp [items, tree, readTree, levels, c.root, SHAMapTreeNode.newInner, Tree.items]
  · simp only [items, tree, levels, readTree, hroot]
    refine Tree.mem_items_inner.mpr ⟨item.key.nibble 0, ?_⟩
    simp [readTree, hleaf, SHAMapTreeNode.makeTypedLeaf, Tree.items]

omit [Digest] in

theorem snapShots_not_isolated :
    ∃ (_ : Digest) (w w' : World) (i j : Nat) (call : Call) (n : SHAMap),
    Reachable w ∧ Step w i call w' ∧ j ≠ i ∧ w.maps[j]? = some n ∧ n.items w'.heap ≠ n.items w.heap := by
  let _ : Digest := ⟨fun _ => 0⟩
  have ⟨w, c, r⟩ := exists_chain (2 ^ 32 - 2)
  have ⟨w', s, m, hm, he, hi⟩ := c.overwrite (by decide) ⟨0, []⟩
  refine ⟨inferInstance, w, w', _, 1, _, m, r, s, by decide, hm, ?_⟩
  rw [he]
  exact ne_nil_of_mem hi

end Chain
end World
end SHAMap
