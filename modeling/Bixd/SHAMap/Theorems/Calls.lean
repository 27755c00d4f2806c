import Bixd.SHAMap.Call
import Bixd.SHAMap.Theorems.Edit
import Bixd.SHAMap.Theorems.Flush

-- What each call on a map does to its tree.
namespace SHAMap

open SHAMap.Tree

-- The map stands for the root of `ts` and owns the nodes at `S`.
structure Valid [Digest] (h : NodeHeap) (m : SHAMap) (sh : Prop) (ts : Fin 16 → Tree) (S : Set Addr) :
    Prop where
  cowid : m.cowid ≠ 0
  owned : Owned h m.cowid sh (some m.root) (.inner ts) S
  wf    : RootWF ts

-- A call on the map `m` has returned the map `m'` with the root of `ts`. Of the nodes that were there
-- before, it has written to those at `S` only.
structure Called [Digest] (S : Set Addr) (h : NodeHeap) (m : SHAMap) (sh : Prop) (h' : NodeHeap)
    (m' : SHAMap) (ts : Fin 16 → Tree) : Prop where
  cowid  : m'.cowid = m.cowid
  state  : m'.state = m.state
  wf     : RootWF ts
  edited : Edited S h m.cowid sh h' (some m'.root) (.inner ts)

variable [Digest] {sh : Prop}

theorem Valid.placed (v : Valid h m sh ts S) : (inner ts).Placed SHAMapNodeID.root.path :=
  v.wf.placed

theorem Valid.called (v : Valid h m sh ts S) : Called S h m sh h m ts where
  cowid := rfl
  state := rfl
  wf := v.wf
  edited := .refl v.owned

theorem Called.valid (c : Called S h m sh h' m' ts') (v : Valid h m sh ts S) :
    ∃ S', Valid h' m' sh ts' S' ∧ ∀ a ∈ S', a ∈ S ∨ h.next ≤ a := by
  have ⟨S', ho, hs⟩ := c.edited.owned
  exact ⟨S', ⟨c.cowid ▸ v.cowid, c.cowid ▸ ho, c.wf⟩, hs⟩

section

variable (v : Valid h m sh ts S)

include v

theorem Valid.walk (k : UInt256) :
    ∃ a₀ id₀ stk,
      match (inner ts).walk k 0 with
      | none =>
        m.walkTowardsKey h k = .ok (none, (a₀, id₀) :: stk) ∧
        ∃ hash cowid bs, h.get a₀ = .inner hash cowid bs
      | some (ty, i) =>
        m.walkTowardsKey h k = .ok (some a₀, (a₀, id₀) :: stk) ∧
        ∃ hash cowid, h.get a₀ = .leaf hash cowid ty i :=
  walk_loop v.owned.denotes v.placed (by simp [levels])

theorem addGiveItem_spec (ty : LeafType) (item : SHAMapItem) :
    ∃ r m' h' ts', m.addGiveItem h ty item = .ok (r, m', h') ∧ Called S h m sh h' m' ts' ∧
      (r ↔ ∀ j ∈ (Tree.inner ts).items, j.key ≠ item.key) ∧
      (∀ j, j ∈ (Tree.inner ts').items ↔ (r ∧ j = item) ∨ j ∈ (Tree.inner ts).items) ∧
      ((Tree.inner ts).Typed ty → (Tree.inner ts').Typed ty) := by
  by_cases hk : ∃ j ∈ (Tree.inner ts).items, j.key = item.key
  case pos =>
    obtain ⟨ty', j, hw, hj⟩ := v.wf.walk_key_iff.mpr hk
    obtain ⟨a₀, id₀, stk, hs⟩ := v.walk item.key
    simp only [hw] at hs
    obtain ⟨hl, _, _, hg⟩ := hs
    refine ⟨false, m, h, ts, ?_, v.called, by simpa using hk, by simp, fun ht => ht⟩
    simp only [addGiveItem, hl, bind, Except.bind, addGiveItem.onStack, hg, hj, if_true]
    rfl
  case neg =>
    have hn : ∀ j ∈ (Tree.inner ts).items, j.key ≠ item.key := fun j hj he => hk ⟨j, hj, he⟩
    obtain ⟨x, stk, a, h', hl, hs, ed⟩ := addGiveItem_onStack levels [] ty v.cowid
      v.owned v.placed .nil hn (fun _ => ⟨rfl, _, rfl⟩) (by simp [levels])
    obtain ⟨hw, hm⟩ := v.wf.add ty hn
    refine ⟨true, { m with root := a }, h', _, ?_, ⟨rfl, rfl, hw, ed⟩, by simpa using hn, fun j => (hm j).trans (by simp), ?_⟩
    · simp only [addGiveItem, walkTowardsKey, hl, bind, Except.bind, hs]
      rfl
    · exact fun ht => Tree.Typed.add (d := 0) ht

-- The update of a shared leaf is lost if the new item has the hash of the old one.
theorem updateGiveItem_spec (ty : LeafType) (item : SHAMapItem) :
    ∃ r m' h' ts', m.updateGiveItem h ty item = .ok (r, m', h') ∧ Called S h m sh h' m' ts' ∧
      (r ↔ ∃ j, (Tree.inner ts).walk item.key 0 = some (ty, j) ∧ j.key = item.key) ∧
      ((r ∧ ∀ j, j ∈ (Tree.inner ts').items ↔ j = item ∨ (j ∈ (Tree.inner ts).items ∧ j.key ≠ item.key)) ∨
       ((r → sh) ∧ ts' = ts)) ∧
      ((Tree.inner ts).Typed ty → (Tree.inner ts').Typed ty) := by
  obtain ⟨a₀, id₀, stk, hs⟩ := v.walk item.key
  by_cases hk : ∃ j, (Tree.inner ts).walk item.key 0 = some (ty, j) ∧ j.key = item.key
  case pos =>
    obtain ⟨j, hw, hj⟩ := hk
    obtain ⟨x, stk, r, h', hl, hs, hcase⟩ := updateGiveItem_onStack levels []
      v.cowid v.owned v.placed (fun _ => ⟨rfl, _, rfl⟩) (by simp [levels]) hw hj
    obtain ⟨hwf, hm⟩ := v.wf.replace (v.wf.walk_key_iff.mp ⟨ty, j, hw, hj⟩)
    have hcall : m.updateGiveItem h ty item = .ok (true, r) := by
      simp only [updateGiveItem, walkTowardsKey, hl, bind, Except.bind, hs]
    rcases hcase with ⟨a, rfl, ed⟩ | ⟨rfl, _, ed⟩ | ⟨rfl, hsh, _, f⟩
    · exact ⟨true, _, h', _, hcall, ⟨rfl, rfl, hwf, ed⟩, iff_of_true rfl ⟨j, hw, hj⟩, .inl ⟨rfl, hm⟩,
        fun ht => Tree.Typed.replace (d := 0) ht⟩
    · exact ⟨true, _, h', _, hcall, ⟨rfl, rfl, hwf, ed⟩, iff_of_true rfl ⟨j, hw, hj⟩, .inl ⟨rfl, hm⟩,
        fun ht => Tree.Typed.replace (d := 0) ht⟩
    · refine ⟨true, _, h', ts, hcall, ⟨rfl, rfl, v.wf, f.mono (by simp), S, ?_, fun _ => .inl⟩, iff_of_true rfl ⟨j, hw, hj⟩,
        .inr ⟨fun _ => hsh, rfl⟩, fun ht => ht⟩
      exact v.owned.frame f (by simp) (by simp)
  case neg =>
    refine ⟨false, m, h, ts, ?_, v.called, by simpa using hk, .inr ⟨by simp, rfl⟩, fun ht => ht⟩
    rcases hw : (Tree.inner ts).walk item.key 0 with _ | ⟨ty', j⟩
    · simp only [hw] at hs
      obtain ⟨hl, _, _, _, hg⟩ := hs
      simp only [updateGiveItem, hl, bind, Except.bind, updateGiveItem.onStack, hg]
      rfl
    · simp only [hw] at hs
      obtain ⟨hl, _, _, hg⟩ := hs
      simp only [updateGiveItem, hl, bind, Except.bind, updateGiveItem.onStack, hg]
      by_cases hj : j.key = item.key
      case neg => rw [if_pos hj]; rfl
      case pos =>
        have hty : ty' ≠ ty := fun he => hk ⟨j, he ▸ hw, hj⟩
        rw [if_neg (not_not.mpr hj), if_pos hty]; rfl

theorem delItem_spec (k : UInt256) :
    ∃ r m' h' ts', m.delItem h k = .ok (r, m', h') ∧ Called S h m sh h' m' ts' ∧
      (r ↔ ∃ j ∈ (Tree.inner ts).items, j.key = k) ∧
      (∀ j, j ∈ (Tree.inner ts').items ↔ j ∈ (Tree.inner ts).items ∧ j.key ≠ k) ∧
      ∀ ty, (Tree.inner ts).Typed ty → (Tree.inner ts').Typed ty := by
  obtain ⟨a₀, id₀, stk, hs⟩ := v.walk k
  by_cases hk : ∃ j ∈ (Tree.inner ts).items, j.key = k
  case pos =>
    obtain ⟨ty, j, hw, hj⟩ := v.wf.walk_key_iff.mpr hk
    obtain ⟨_, bs, Ss, o⟩ := v.owned.opened
    obtain ⟨_, _, hnode⟩ := o.inner
    have hbk := o.branches (selectBranch .root k)
    cases hb : bs (selectBranch .root k) with
    | none =>
      rw [hb] at hbk
      have he : ts (k.nibble 0) = .empty := hbk.denotes.eq_none_iff.mp rfl
      simp [Tree.walk, he] at hw
    | some br =>
      rw [hb] at hbk
      obtain ⟨child, hpath, hl⟩ := walk_loop_child 64 []
        (o.get.trans hnode) hb (by simp [SHAMapNodeID.depth, SHAMapNodeID.root])
      have hdep := depth_of_path hpath
      have hw' : (ts (selectBranch .root k)).walk k child.depth = some (ty, j) := by rw [hdep]; exact hw
      obtain ⟨a₁, id₁, stk, x, h₁, hwk, ⟨_, _, hg⟩, hloop, ed⟩ := delItem_loop (m := m)
        64 [(m.root, .root)] v.cowid hbk (hpath ▸ v.placed.right _)
        (not_isRoot_of_path hpath) (by omega) hw'
      rw [hdep] at ed
      obtain ⟨a', h₂, hu, _, ed'⟩ := Edited.relink .root v.cowid o (fun _ => rfl) ed
      obtain ⟨hwf, hm⟩ := v.wf.del ty hk
      refine ⟨true, { m with root := a' }, _, _, ?_, ⟨rfl, rfl, hwf, ed'⟩, by simpa using hk, hm, ?_⟩
      · simp only [delItem, walkTowardsKey, levels, hl, hwk, bind, Except.bind, delItem.onStack, hg, hj, hloop,
          delItem.loop, hu, ne_eq, not_true, if_false]
        rfl
      · intro ty' ht
        obtain rfl := ht.walk hw
        exact Tree.typed_update ht (Tree.Typed.del (ht _))
  case neg =>
    have hn : ∀ j ∈ (Tree.inner ts).items, j.key ≠ k := fun j hj he => hk ⟨j, hj, he⟩
    refine ⟨false, m, h, ts, ?_, v.called, by simpa using hk, fun j => ⟨fun hj => ⟨hj, hn j hj⟩, And.left⟩,
      fun _ ht => ht⟩
    rcases hw : (Tree.inner ts).walk k 0 with _ | ⟨ty', j⟩
    · simp only [hw] at hs
      obtain ⟨hl, _, _, _, hg⟩ := hs
      simp only [delItem, hl, bind, Except.bind, delItem.onStack, hg]
      rfl
    · simp only [hw] at hs
      obtain ⟨hl, _, _, hg⟩ := hs
      simp only [delItem, hl, bind, Except.bind, delItem.onStack, hg]
      rw [if_pos (hn j (Tree.mem_of_walk hw))]
      rfl

theorem edit_called (ty : LeafType) (e : Edit) :
    ∃ r m' h' ts', e.exec ty m h = .ok (r, m', h') ∧ Called S h m sh h' m' ts' ∧
      ((inner ts).Typed ty → (inner ts').Typed ty) := by
  cases e
  case addGiveItem item =>
    have ⟨r, m', h', ts', he, hc, _, _, ht⟩ := addGiveItem_spec v ty item
    exact ⟨r, m', h', ts', he, hc, ht⟩
  case updateGiveItem item =>
    have ⟨r, m', h', ts', he, hc, _, _, ht⟩ := updateGiveItem_spec v ty item
    exact ⟨r, m', h', ts', he, hc, ht⟩
  case delItem k =>
    have ⟨r, m', h', ts', he, hc, _, _, ht⟩ := delItem_spec v k
    exact ⟨r, m', h', ts', he, hc, ht ty⟩

end

-- The outcome of a call on a map that is possibly one of several in the heap.
structure Executed (S : Set Addr) (h : NodeHeap) (m : SHAMap) (ts : Fin 16 → Tree) (h' : NodeHeap)
    (m' : SHAMap) (newMap : Option SHAMap) (ts' : Fin 16 → Tree) (S' : Set Addr) : Prop where
  cowid     : m'.cowid = m.cowid
  state     : m'.state = m.state
  valid     : Valid h' m' True ts' S'
  fresh     : ∀ a ∈ S', a ∈ S ∨ h.next ≤ a
  frame     : h.Frame S h'
  immutable : m'.state = .immutable → S' = ∅
  newMap    : ∀ n ∈ newMap, Valid h' n True ts ∅

theorem Called.executed (c : Called S h m True h' m' ts') (v : Valid h m True ts S)
    (hm : m.state ≠ .immutable) : ∃ S', Executed S h m ts h' m' none ts' S' := by
  have ⟨S', v', hs⟩ := c.valid v
  exact ⟨S', c.cowid, c.state, v', hs, c.edited.frame, fun hi => absurd (c.state ▸ hi) hm, by simp⟩

theorem Valid.executed_of_shared (v : Valid h m True ts S) (f : h.Frame S h')
    (hs : Shared h' (some a) (.inner ts)) : Executed S h m ts h' { m with root := a } none ts ∅ where
  cowid := rfl
  state := rfl
  valid := ⟨v.cowid, .shared trivial hs, v.wf⟩
  fresh := by simp
  frame := f
  immutable := fun _ => rfl
  newMap := by simp

theorem exec_spec (v : Valid h m True ts S) (hi : m.state = .immutable → S = ∅) (ty : LeafType)
    (c : Call) (hm : c.mutates → m.state ≠ .immutable)
    (hf : ∀ b, c = .snapShot b → m.cowid + 1 ≠ 0) :
    ∃ m' h' newMap ts' S', c.exec ty m h = .ok (m', h', newMap) ∧
      Executed S h m ts h' m' newMap ts' S' ∧ ((inner ts).Typed ty → (inner ts').Typed ty) := by
  cases c
  case edit e =>
    have ⟨r, m', h', ts', he, hc, ht⟩ := edit_called v ty e
    have ⟨S', ex⟩ := hc.executed v (hm rfl)
    exact ⟨m', h', none, ts', S', by simp only [Call.exec, he]; rfl, ex, ht⟩
  case getHash =>
    have ⟨a, h', he, hs, f⟩ := getHash_spec v.cowid v.owned v.placed
    exact ⟨_, h', none, ts, ∅, by simp only [Call.exec, he]; rfl, v.executed_of_shared f hs, fun ht => ht⟩
  case unshare =>
    have ⟨a, h', he, hs, f⟩ := unshare_spec v.cowid v.cowid v.owned v.placed
    refine ⟨_, h', none, ts, ∅, by simp only [Call.exec, he]; rfl, v.executed_of_shared ?_ hs, fun ht => ht⟩
    exact f.mono (fun _ hx => hx.left)
  case snapShot b =>
    have hc' := hf b rfl
    have ⟨a, h', he, hs, f⟩ := snapShot_spec b v.cowid hc' v.owned hi v.placed
    refine ⟨m, h', _, ts, S, by simp only [Call.exec, he]; rfl, ⟨rfl, rfl, ?_, fun _ => .inl, ?_, hi, ?_⟩,
      fun ht => ht⟩
    · exact ⟨v.cowid, v.owned.frame f (by simp) (by simp), v.wf⟩
    · exact f.mono (by simp)
    · rintro n hn
      cases hn
      exact ⟨hc', .shared trivial hs, v.wf⟩

end SHAMap
