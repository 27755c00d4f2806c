import Bixd.SHAMap.Theorems.Owned

open Heap SHAMapNodeID SHAMapTreeNode Function

-- The calls that edit a map do on the heap what the functions of `SHAMap.Tree` do on trees, and they
-- write to the map's own nodes only.
namespace SHAMap

variable [Digest] {h : NodeHeap} {sh : Prop} {m : SHAMap}
variable {id : SHAMapNodeID}
variable {item : SHAMapItem}

omit [Digest] in

theorem getChildNodeID_ok (id : SHAMapNodeID) (b : Fin 16) (hd : id.depth < 64) :
    ∃ child, id.getChildNodeID b = .ok child ∧ child.path = id.path ++ [b] := by
  simp [getChildNodeID, hd]

omit [Digest] in

theorem not_isRoot_of_path {child : SHAMapNodeID} (hp : child.path = id.path ++ [b]) :
    ¬child.isRoot := by
  simp [isRoot, depth, hp]

omit [Digest] in

theorem depth_of_path {child : SHAMapNodeID} (hp : child.path = id.path ++ [b]) :
    child.depth = id.depth + 1 := by
  simp [depth, hp]

-- The walk from the root, which has `levels` steps, is never cut short.
omit [Digest] in

theorem exists_fuel (hf : 65 ≤ fuel + id.depth) : ∃ n, fuel = n + 1 := by
  have := id.valid
  exact ⟨fuel - 1, by simp only [depth] at hf; omega⟩

-- The map after the node at `id` has moved to `a`.
def reroot (m : SHAMap) (id : SHAMapNodeID) (a : Addr) : SHAMap :=
  if id.isRoot then { m with root := a } else m

omit [Digest] in

@[simp]
theorem reroot_cowid : (m.reroot id a).cowid = m.cowid := by
  rw [reroot]; split <;> rfl

omit [Digest] in

theorem reroot_of_not_isRoot (hi : ¬id.isRoot) : m.reroot id a = m := by
  simp [reroot, hi]

omit [Digest] in

theorem reroot_self (hr : id.isRoot → m.root = a) : m.reroot id a = m := by
  rw [reroot]
  split
  case isTrue hi => simp [← hr hi]
  case isFalse => rfl

section UnshareNode

omit [Digest] in

theorem unshareNode_spec (h : NodeHeap) (hr : id.isRoot → m.root = a) :
    ∃ a' h', m.unshareNode h a id = (a', m.reroot id a', h') ∧
      h'.get a' = (h.get a).clone m.cowid ∧ h.Frame ∅ h' ∧
      ((h.get a).cowid = m.cowid ∧ a' = a ∧ h' = h ∨
       (h.get a).cowid ≠ m.cowid ∧ a' = h.next ∧ h'.next = h.next + 1) := by
  by_cases hc : (h.get a).cowid = m.cowid
  case pos =>
    refine ⟨a, h, by simp [unshareNode, hc, reroot_self hr], ?_, .refl, .inl ⟨hc, rfl, rfl⟩⟩
    rw [← hc]
    cases h.get a <;> rfl
  case neg =>
    refine ⟨h.next, h.alloc ((h.get a).clone m.cowid), ?_, by simp, .alloc, .inr ⟨hc, rfl, rfl⟩⟩
    simp [unshareNode, hc, reroot]

theorem Opened.owned_of_cowid (hc : c ≠ 0) (o : Opened h c sh a ts S node bs Ss)
    (hn : node.cowid = c) : a ∈ S := by
  rcases o.owner with ⟨hm, _⟩ | ⟨_, ⟨_, rfl⟩, _⟩
  · exact hm
  · exact absurd hn.symm hc

-- The node that `unshareNode` returns takes a new branch.
theorem Edited.unshare (hc : m.cowid ≠ 0) (o : Opened h m.cowid sh a ts S node bs Ss)
    (hr : id.isRoot → m.root = a) (f : h.Frame (Ss b) h₁) :
    ∃ a' h₂, m.unshareNode h₁ a id = (a', m.reroot id a', h₂) ∧ h₁.Frame ∅ h₂ ∧ a' < h₂.next ∧
      (a' = a ∨ h₁.next ≤ a') ∧ (∃ hash, h₂.get a' = .inner hash m.cowid bs) ∧
      ∀ h₃ x t S', h₂.Frame ∅ h₃ → Owned h₃ m.cowid sh x t S' → a' ∉ S' →
        (∀ y ∈ S', y ∈ Ss b ∨ h.next ≤ y) →
        Edited S h m.cowid sh (h₃.modify a' (·.setChild b x)) (some a') (.inner (update ts b t)) := by
  have hg : h₁.get a = node := o.get ▸ f.get_eq a o.lt (o.notMem b)
  have ⟨a', h₂, he, hg', f', hcase⟩ := unshareNode_spec h₁ hr
  have ⟨hash, cowid, hn⟩ := o.inner
  have hlt : a' < h₂.next := by
    rcases hcase with ⟨_, rfl, rfl⟩ | ⟨_, rfl, hx⟩
    · exact o.lt.trans_le f.next_le
    · exact hx ▸ Nat.lt_succ_self _
  have ha : a' = a ∧ a ∈ S ∨ h.next ≤ a' := by
    rcases hcase with ⟨hcow, rfl, _⟩ | ⟨_, rfl, _⟩
    · exact .inl ⟨rfl, o.owned_of_cowid hc (hg ▸ hcow)⟩
    · exact .inr f.next_le
  have hg₂ : h₂.get a' = .inner hash m.cowid bs := by rw [hg', hg, hn]; rfl
  refine ⟨a', h₂, he, f', hlt, ?_, ⟨_, hg₂⟩, fun h₃ x t S' f₃ ho hns hs => ?_⟩
  · rcases hcase with ⟨_, rfl, _⟩ | ⟨_, rfl, _⟩
    · exact .inl rfl
    · exact .inr le_rfl
  have hg₃ : h₃.get a' = .inner hash m.cowid bs := hg₂ ▸ f₃.get_eq a' hlt (by simp)
  have hlt₃ := hlt.trans_le f₃.next_le
  refine .attach hc o ((f.trans f' (by simp)).trans f₃ (by simp)) ho hs ha hns ?_ (.modify rfl)
    (by simpa using hlt₃) (update bs b (x.map (Branch.mk 0))) ?_ ?_
  · exact fun _ => by rw [hg₃]; exact hc
  · rw [get_modify_self, hg₃]; rfl
  · intro b'
    by_cases hb : b' = b
    · subst hb; simp [Option.map_map, comp_def]
    · simp [hb]

theorem Edited.relink (id : SHAMapNodeID) (hc : m.cowid ≠ 0)
    (o : Opened h m.cowid sh a ts S node bs Ss) (hr : id.isRoot → m.root = a)
    (e : Edited (Ss b) h m.cowid sh h₁ x t) :
    ∃ a' h₂, m.unshareNode h₁ a id = (a', m.reroot id a', h₂) ∧
      ((h₂.modify a' (·.setChild b x)).get a').cowid = m.cowid ∧
      Edited S h m.cowid sh (h₂.modify a' (·.setChild b x)) (some a') (.inner (update ts b t)) := by
  have ⟨a', h₂, he, f', hlt, ha, ⟨_, hg⟩, hatt⟩ := Edited.unshare hc o hr e.frame
  have ⟨S', ho, hs⟩ := e.owned
  refine ⟨a', h₂, he, by rw [get_modify_self, hg]; rfl, hatt h₂ x t S' .refl (ho.frame f' (by simp) (by simp)) ?_ hs⟩
  intro hm
  rcases ha with rfl | hl
  · exact (hs _ hm).elim (o.notMem b) (Nat.not_le_of_lt o.lt)
  · exact absurd (ho.of_mem hm).left (Nat.not_lt_of_le hl)

theorem dirtyUp_cons (rest : Stack) (hc : m.cowid ≠ 0) (o : Opened h m.cowid sh a ts S node bs Ss)
    (hr : id.isRoot → m.root = a) (e : Edited (Ss (selectBranch id k)) h m.cowid sh h₁ (some y) t) :
    ∃ a' h₂, dirtyUp k ((a, id) :: rest) m h₁ y = dirtyUp k rest (m.reroot id a') h₂ a' ∧
      Edited S h m.cowid sh h₂ (some a') (.inner (update ts (selectBranch id k) t)) := by
  have ⟨a', h₂, he, _, e'⟩ := Edited.relink id hc o hr e
  exact ⟨a', _, by simp only [dirtyUp, he], e'⟩

end UnshareNode

section Walk

omit [Digest] in

theorem walk_loop_child {hash : UInt256} (fuel : Nat) (rest : Stack)
    (hg : h.get a = .inner hash c bs) (hb : bs (selectBranch id k) = some br) (hd : id.depth < 64) :
    ∃ child : SHAMapNodeID, child.path = id.path ++ [selectBranch id k] ∧
      walkTowardsKey.loop h k (fuel + 1) a id rest =
        walkTowardsKey.loop h k fuel br.child child ((a, id) :: rest) := by
  have ⟨child, he, hp⟩ := getChildNodeID_ok id (selectBranch id k) hd
  refine ⟨child, hp, ?_⟩
  simp only [walkTowardsKey.loop, hg, hb, he]
  rfl

-- The stack of a walk has the node on top that the walk ends at.
omit [Digest] in

theorem walk_loop (hd : Denotes h (some a) t) (hp : t.Placed id.path) (hf : 65 ≤ fuel + id.depth) :
    ∃ a₀ id₀ stk,
      match t.walk k id.depth with
      | none =>
        walkTowardsKey.loop h k fuel a id rest = .ok (none, (a₀, id₀) :: stk) ∧
        ∃ hash cowid bs, h.get a₀ = .inner hash cowid bs
      | some (ty, i) =>
        walkTowardsKey.loop h k fuel a id rest = .ok (some a₀, (a₀, id₀) :: stk) ∧
        ∃ hash cowid, h.get a₀ = .leaf hash cowid ty i := by
  obtain ⟨fuel, rfl⟩ := exists_fuel hf
  induction t generalizing a id fuel rest
  case empty => cases hd
  case leaf =>
    cases hd
    case leaf hg => exact ⟨a, id, rest, by simp only [walkTowardsKey.loop, hg]; rfl, _, _, hg⟩
  case inner ts ih =>
    cases hd
    case inner hash cowid bs hg hb =>
      have hbk := hb (selectBranch id k)
      simp only [Tree.walk]
      cases hc : bs (selectBranch id k) with
      | none =>
        rw [hc] at hbk
        have he : ts (k.nibble id.depth) = .empty := hbk.eq_none_iff.mp rfl
        rw [he]
        exact ⟨a, id, rest, by simp only [walkTowardsKey.loop, hg, hc]; rfl, _, _, _, hg⟩
      | some br =>
        rw [hc] at hbk
        obtain ⟨child, hpath, hl⟩ := walk_loop_child fuel rest hg hc hp.left
        have hdep := depth_of_path hpath
        have hf' : 65 ≤ fuel + child.depth := by omega
        rw [hl, ← hdep]
        obtain ⟨fuel, rfl⟩ := exists_fuel hf'
        exact ih _ hbk (hpath ▸ hp.right _) fuel hf'

end Walk

section Add

theorem Opened.setLeaf (b : Fin 16) (ty : LeafType) (item : SHAMapItem) (hc : c ≠ 0)
    (o : Opened h c sh a ts S node bs Ss) (hn : node.cowid = c) :
    Edited S h c sh ((h.alloc (.makeTypedLeaf ty item c)).modify a (·.setChild b (some h.next)))
      (some a) (.inner (update ts b (.leaf ty item))) := by
  have ⟨hash, _, he⟩ := o.inner
  have hg : (h.alloc (.makeTypedLeaf ty item c)).get a = .inner hash c bs := by
    rw [get_alloc_lt o.lt, o.get, he, ← hn, he]; rfl
  have hl : Owned (h.alloc (.makeTypedLeaf ty item c)) c sh (some h.next) (.leaf ty item) {h.next} :=
    .leaf (by simp) (by simp [makeTypedLeaf])
  refine .attach hc o .alloc hl (by simp) (.inl ⟨rfl, o.owned_of_cowid hc hn⟩) ?_ ?_ (.modify rfl) ?_
    (update bs b (some (Branch.mk 0 h.next))) ?_ ?_
  · exact Nat.ne_of_lt o.lt
  · exact fun _ => by rw [hg]; exact hc
  · exact Nat.lt_succ_of_lt o.lt
  · rw [get_modify_self, hg]; rfl
  · intro b'
    by_cases hb : b' = b <;> simp [hb]

theorem newInner_owned (sh : Prop) (hl : a < h.next) (hg : h.get a = .newInner c) :
    Owned h c sh (some a) (.inner (fun _ => .empty)) {a} := by
  have ho : Owned h c sh (some a) (.inner (fun _ => .empty)) (insert a (⋃ _ : Fin 16, ∅)) :=
    .inner hl hg (fun _ => .empty) (by simp) (by simp [Pairwise])
  simpa using ho

theorem fork_edited (hc : c ≠ 0) (hl : a < h.next) (hg : h.get a = .newInner c) :
    Edited {a} h c sh (addGiveItem.fork c ty i j a id h) (some a)
      (.inner (update (update (fun _ => .empty) (i.key.nibble id.depth) (.leaf ty i))
        (j.key.nibble id.depth) (.leaf ty j))) := by
  have ⟨_, _, _, o⟩ := (newInner_owned sh hl hg).opened
  have e := o.setLeaf (selectBranch id i.key) ty i hc (by rw [← o.get, hg]; rfl)
  have ⟨S', ho, hs⟩ := e.owned
  have ⟨_, _, _, o'⟩ := ho.opened
  refine .trans e.frame hs (o'.setLeaf _ ty j hc ?_)
  rw [← o'.get, get_modify_self, get_alloc_lt hl, hg]
  rfl

theorem split_edited {i j : SHAMapItem} (n : Nat) (rest : Stack) (sh : Prop) (ty : LeafType)
    (hc : m.cowid ≠ 0) (hl : a < h.next) (hg : h.get a = .newInner m.cowid) (hr : ¬id.isRoot)
    (hd : id.depth ≤ e) (hn : e < id.depth + n) (he64 : e < 64)
    (he : i.key.nibble e ≠ j.key.nibble e) :
    ∃ a₁ id₁ stk h₁ a' h₂,
      addGiveItem.split m.cowid i.key j.key n a id rest h = .ok (a₁, id₁, stk, h₁) ∧
      dirtyUp i.key stk m (addGiveItem.fork m.cowid ty i j a₁ id₁ h₁) a₁ = dirtyUp i.key rest m h₂ a' ∧
      Edited {a} h m.cowid sh h₂ (some a') (Tree.split ty i j n id.depth) := by
  induction n generalizing a id h rest
  case zero => omega
  case succ n ih =>
    rw [addGiveItem.split, Tree.split]
    by_cases hb : i.key.nibble id.depth = j.key.nibble id.depth
    case neg =>
      simp only [selectBranch, hb, if_false]
      exact ⟨a, id, rest, h, a, _, rfl, rfl, fork_edited hc hl hg⟩
    have hne : id.depth ≠ e := fun hx => he (hx ▸ hb)
    obtain ⟨child, hok, hp⟩ := getChildNodeID_ok id (selectBranch id i.key) (by omega)
    have hdep := depth_of_path hp
    obtain ⟨a₁, id₁, stk, h₁, a₂, h₂, hs, hu, ed⟩ := ih ((a, id) :: rest) (a := h.next)
      (h := h.alloc (.newInner m.cowid)) (by simp) (by simp)
      (not_isRoot_of_path hp) (by omega) (by omega)
    obtain ⟨_, _, Ss, o⟩ := (newInner_owned sh hl hg).opened
    have ed := Edited.trans (S := Ss (selectBranch id i.key)) .alloc (by simp) ed
    obtain ⟨a', h₃, hu', ed'⟩ := dirtyUp_cons rest hc o (by simp [hr]) ed
    refine ⟨a₁, id₁, stk, h₁, a', h₃, ?_, ?_, ?_⟩
    · simp only [selectBranch, hb, if_true] at hok hs ⊢
      rw [hok]
      exact hs
    · rw [hu, hu', reroot_of_not_isRoot hr]
    · simp only [hb, if_true]
      rwa [hdep, selectBranch, hb] at ed'

theorem addGiveItem_onStack (fuel : Nat) (rest : Stack) (ty : LeafType) (hc : m.cowid ≠ 0)
    (ho : Owned h m.cowid sh (some a) t S) (hp : t.Placed id.path) (hk : HasPath id.path item.key)
    (hn : ∀ j ∈ t.items, j.key ≠ item.key) (hr : id.isRoot → m.root = a ∧ ∃ ts, t = .inner ts)
    (hf : 65 ≤ fuel + id.depth) :
    ∃ x stk a' h', walkTowardsKey.loop h item.key fuel a id rest = .ok (x, stk) ∧
      addGiveItem.onStack m h ty item stk =
        .ok (true, dirtyUp item.key rest (m.reroot id a') h' a') ∧
      Edited S h m.cowid sh h' (some a') (t.add ty item id.depth) := by
  obtain ⟨fuel, rfl⟩ := exists_fuel hf
  induction t generalizing a id fuel rest S
  case empty => cases ho.denotes
  case leaf ty' j =>
    have hroot : ¬id.isRoot := fun hi => by simpa using (hr hi).right
    obtain ⟨a₁, h₁, hu, hg₁, f₁, _⟩ := unshareNode_spec (m := m) (a := a) h (fun hi => absurd hi hroot)
    obtain ⟨e, he64, he, heq⟩ := UInt256.exists_first_nibble_ne (hn j (by simp [Tree.items])).symm
    have hde : id.depth ≤ e := by
      by_contra hlt
      exact he (hk.nibble_eq hp (Nat.lt_of_not_le hlt))
    have hcow : (h₁.get a₁).cowid = m.cowid := by
      rw [hg₁]; cases h.get a <;> rfl
    obtain ⟨a₂, id₂, stk, h₂, a₃, h₃, hs, hd, ed⟩ := split_edited (m := m) (a := h₁.next)
      (h := h₁.alloc (.newInner (h₁.get a₁).cowid)) levels rest sh ty hc (by simp) (by simp [hcow]) hroot hde (by simp only [levels]; omega) he64 he
    obtain _ | hg := ho.denotes
    refine ⟨some a, (a, id) :: rest, a₃, h₃, by simp only [walkTowardsKey.loop, hg]; rfl, ?_, ?_⟩
    · have hne := hn j (by simp [Tree.items])
      simp only [addGiveItem.onStack, hg, hne, if_false, hu, hs, reroot_of_not_isRoot hroot, ← hd]
      rfl
    · refine .trans (V := {h₁.next}) (f₁.mono (by simp) |>.trans' .alloc) ?_ ed
      rintro _ rfl
      exact .inr f₁.next_le
  case inner ts ih =>
    obtain ⟨node, bs, Ss, o⟩ := ho.opened
    obtain ⟨hash, cowid, hnode⟩ := o.inner
    have hg := o.get.trans hnode
    have hbk := o.branches (selectBranch id item.key)
    have hr' : id.isRoot → m.root = a := fun hi => (hr hi).left
    cases hb : bs (selectBranch id item.key) with
    | none =>
      rw [hb] at hbk
      have he : ts (item.key.nibble id.depth) = .empty := hbk.denotes.eq_none_iff.mp rfl
      obtain ⟨a', h₂, hu, f, hl, _, _, hatt⟩ := Edited.unshare (b := selectBranch id item.key) hc o hr' .refl
      have ed := hatt (h₂.alloc (.makeTypedLeaf ty item m.cowid)) (some h₂.next) (.leaf ty item) {h₂.next}
        .alloc (.leaf (by simp) (by simp [makeTypedLeaf])) (Nat.ne_of_lt hl)
        (by rintro _ rfl; exact .inr f.next_le)
      have hadd : Tree.add ty item id.depth (.inner ts) =
          .inner (update ts (selectBranch id item.key) (.leaf ty item)) := by
        simp only [Tree.add, he, selectBranch]
      refine ⟨none, (a, id) :: rest, a', _, by simp only [walkTowardsKey.loop, hg, hb]; rfl, ?_, hadd ▸ ed⟩
      simp only [addGiveItem.onStack, hg, hu, reroot_cowid]
      rfl
    | some br =>
      rw [hb] at hbk
      obtain ⟨child, hpath, hl⟩ := walk_loop_child fuel rest hg hb hp.left
      have hdep := depth_of_path hpath
      have hcr := not_isRoot_of_path hpath
      have hf' : 65 ≤ fuel + child.depth := by omega
      obtain ⟨fuel, rfl⟩ := exists_fuel hf'
      obtain ⟨x, stk, a₁, h₁, hw, hs, ed⟩ := ih (selectBranch id item.key) ((a, id) :: rest) hbk
        (hpath ▸ hp.right _) (hpath ▸ HasPath.append_iff.mpr ⟨hk, rfl⟩)
        (fun j hj => hn j (Tree.mem_items_inner.mpr ⟨_, hj⟩)) (by simp [hcr]) fuel hf'
      obtain ⟨a', h₂, hd, ed'⟩ := dirtyUp_cons rest hc o hr' ed
      refine ⟨x, stk, a', h₂, hl ▸ hw, ?_, ?_⟩
      · rw [hs, reroot_of_not_isRoot hcr, hd]
      · rwa [hdep] at ed'

end Add

section Update

-- A branch has changed without moving, so there is nothing to link.
theorem Edited.stay (hc : c ≠ 0) (o : Opened h c sh a ts S node bs Ss)
    (hb : (bs b).map Branch.child = some y) (hy : y ∈ Ss b)
    (e : Edited (Ss b) h c sh h' (some y) t) :
    a ∈ S ∧ Edited S h c sh h' (some a) (.inner (update ts b t)) := by
  rcases o.owner with ⟨hm, rfl⟩ | ⟨_, _, he⟩
  case inr => simp [he] at hy
  have ⟨S', ho, hs⟩ := e.owned
  have hg : h'.get a = .inner 0 c bs := o.get ▸ e.frame.get_eq a o.lt (o.notMem b)
  have hn : a ∉ S' := fun hm => (hs a hm).elim (o.notMem b) (Nat.not_le_of_lt o.lt)
  refine ⟨hm, .attach hc o e.frame ho hs (.inl ⟨rfl, hm⟩) hn ?_ .refl (o.lt.trans_le e.frame.next_le) bs hg ?_⟩
  · exact fun _ => by rw [hg]; exact hc
  · intro b'
    by_cases hx : b' = b
    · simp [hx, hb]
    · simp [hx]

theorem setItem_edited (item : SHAMapItem) (hc : m.cowid ≠ 0)
    (ho : Owned h m.cowid sh (some a) (.leaf ty j) S) (hroot : ¬id.isRoot) :
    (∃ cowid, h.get a = .leaf (leafHash ty j) cowid ty j) ∧
    ∃ a' h₁, m.unshareNode h a id = (a', m, h₁) ∧ h₁.get a' = .leaf (leafHash ty j) m.cowid ty j ∧
      Edited S h m.cowid sh (h₁.modify a' (·.setItem item)) (some a') (.leaf ty item) ∧
      (a' = a ∧ a ∈ S ∨ sh ∧ h.Frame ∅ (h₁.modify a' (·.setItem item))) := by
  have ⟨a', h₁, hu, hg₁, f₁, hcase⟩ :=
    unshareNode_spec (m := m) (a := a) h (fun hi => absurd hi hroot)
  have hg : ∃ cowid, h.get a = .leaf (leafHash ty j) cowid ty j := by
    match ho with
    | .leaf _ hg | .shared _ (.leaf _ hg) => exact ⟨_, hg⟩
  have hl : a' < h₁.next := by
    rcases hcase with ⟨_, rfl, rfl⟩ | ⟨_, rfl, hx⟩
    · exact ho.lt
    · exact hx ▸ Nat.lt_succ_self _
  have ha : a' = a ∧ a ∈ S ∨ sh ∧ a' = h.next := by
    match ho with
    | .leaf _ hg' =>
      rcases hcase with ⟨_, rfl, _⟩ | ⟨hne, _⟩
      · exact .inl ⟨rfl, rfl⟩
      · exact absurd (by rw [hg']; rfl) hne
    | .shared hsh (.leaf _ hg') =>
      rcases hcase with ⟨he, _⟩ | ⟨_, rfl, _⟩
      · rw [hg'] at he
        exact absurd he.symm hc
      · exact .inr ⟨hsh, rfl⟩
  have hg₁ : h₁.get a' = .leaf (leafHash ty j) m.cowid ty j := by
    have ⟨_, hg⟩ := hg
    rw [hg₁, hg]; rfl
  have hm : ∀ y ∈ ({a'} : Set Addr), y ∈ S ∨ h.next ≤ y := by
    rintro _ rfl
    exact ha.imp (fun ⟨he, hm⟩ => he ▸ hm) (fun ⟨_, he⟩ => he.ge)
  refine ⟨hg, a', h₁, by rw [hu, reroot_of_not_isRoot hroot], hg₁, ⟨?_, {a'}, .leaf hl ?_, hm⟩, ?_⟩
  · exact (f₁.mono (by simp)).trans (V := {a'}) (.modify rfl) hm
  · rw [get_modify_self, hg₁]; rfl
  · refine ha.imp_right (fun ⟨hsh, he⟩ => ⟨hsh, f₁.trans (V := {a'}) (.modify rfl) ?_⟩)
    simp [he]

-- If the hash of the leaf stays the same, then the nodes above are left alone. A leaf that was shared
-- then keeps its item, since it is a copy that has changed.
theorem updateGiveItem_onStack (fuel : Nat) (rest : Stack) (hc : m.cowid ≠ 0)
    (ho : Owned h m.cowid sh (some a) t S) (hp : t.Placed id.path)
    (hr : id.isRoot → m.root = a ∧ ∃ ts, t = .inner ts) (hf : 65 ≤ fuel + id.depth)
    (hw : t.walk item.key id.depth = some (ty, j)) (hj : j.key = item.key) :
    ∃ x stk r h', walkTowardsKey.loop h item.key fuel a id rest = .ok (x, stk) ∧
      updateGiveItem.onStack m h ty item stk = .ok (true, r) ∧
      ((∃ a', r = dirtyUp item.key rest (m.reroot id a') h' a' ∧
          Edited S h m.cowid sh h' (some a') (t.replace item id.depth)) ∨
       (r = (m, h') ∧ a ∈ S ∧ Edited S h m.cowid sh h' (some a) (t.replace item id.depth)) ∨
       (r = (m, h') ∧ sh ∧ leafHash ty j = leafHash ty item ∧ h.Frame ∅ h')) := by
  obtain ⟨fuel, rfl⟩ := exists_fuel hf
  induction t generalizing a id fuel rest S
  case empty => cases ho.denotes
  case leaf ty' j' =>
    have hroot : ¬id.isRoot := fun hi => by simpa using (hr hi).right
    simp only [Tree.walk, Option.some.injEq, Prod.mk.injEq] at hw
    obtain ⟨rfl, rfl⟩ := hw
    obtain ⟨hg, a', h₁, hu, hg₁, ed, ha⟩ := setItem_edited item hc ho hroot
    have hset : (h₁.modify a' (·.setItem item)).get a' = .leaf (leafHash ty' item) m.cowid ty' item := by
      rw [get_modify_self, hg₁]; rfl
    obtain ⟨cowid, hg⟩ := hg
    refine ⟨some a, (a, id) :: rest, ?_⟩
    simp only [walkTowardsKey.loop, hg, updateGiveItem.onStack, hj, hu, hset, hg₁, ne_eq, not_true,
      if_false, SHAMapTreeNode.getHash, Tree.replace, reroot_of_not_isRoot hroot]
    by_cases heq : leafHash ty' j' = leafHash ty' item
    case neg => exact ⟨_, _, rfl, by rw [if_pos heq]; rfl, .inl ⟨a', rfl, ed⟩⟩
    refine ⟨_, h₁.modify a' (·.setItem item), rfl, by rw [if_neg (not_not.mpr heq)]; rfl, .inr ?_⟩
    rcases ha with ⟨rfl, hm⟩ | ⟨hsh, f⟩
    · exact .inl ⟨rfl, hm, ed⟩
    · exact .inr ⟨rfl, hsh, heq, f⟩
  case inner ts ih =>
    obtain ⟨node, bs, Ss, o⟩ := ho.opened
    obtain ⟨hash, cowid, hnode⟩ := o.inner
    have hbk := o.branches (selectBranch id item.key)
    have hr' : id.isRoot → m.root = a := fun hi => (hr hi).left
    cases hb : bs (selectBranch id item.key) with
    | none =>
      rw [hb] at hbk
      have he : ts (item.key.nibble id.depth) = .empty := hbk.denotes.eq_none_iff.mp rfl
      simp [Tree.walk, he] at hw
    | some br =>
      rw [hb] at hbk
      obtain ⟨child, hpath, hl⟩ := walk_loop_child fuel rest (o.get.trans hnode) hb hp.left
      have hdep := depth_of_path hpath
      have hcr := not_isRoot_of_path hpath
      have hf' : 65 ≤ fuel + child.depth := by omega
      obtain ⟨fuel, rfl⟩ := exists_fuel hf'
      obtain ⟨x, stk, r, h', hwk, hs, hcase⟩ := ih (selectBranch id item.key) ((a, id) :: rest) hbk
        (hpath ▸ hp.right _) (by simp [hcr]) (hdep ▸ hw) fuel hf'
      rw [hdep] at hcase
      refine ⟨x, stk, r, ?_⟩
      rw [hl]
      rcases hcase with ⟨a₁, hd, ed⟩ | ⟨hd, hm, ed⟩ | hcase
      · obtain ⟨a', h₂, hd', ed'⟩ := dirtyUp_cons rest hc o hr' ed
        rw [reroot_of_not_isRoot hcr] at hd
        exact ⟨h₂, hwk, hs, .inl ⟨a', hd ▸ hd', ed'⟩⟩
      · have hst := Edited.stay (b := selectBranch id item.key) hc o (by rw [hb]; rfl) hm ed
        exact ⟨h', hwk, hs, .inr (.inl ⟨hd, hst⟩)⟩
      · exact ⟨h', hwk, hs, .inr (.inr hcase)⟩

end Update

section Del

omit [Digest] in

theorem Denotes.nonempty_eq {hash : UInt256} (hd : Denotes h (some a) (.inner ts))
    (hg : h.get a = .inner hash c bs) :
    Tree.nonempty ts = (List.finRange 16).filter (fun b => (bs b).isSome) := by
  refine List.filter_congr (fun b _ => ?_)
  cases hd
  case inner hg' hb =>
    cases hg.symm.trans hg'
    have := (hb b).eq_none_iff
    cases hx : bs b <;> cases hy : ts b <;> simp_all [Tree.isEmpty]

omit [Digest] in

theorem onlyBelow_eq {p : List (Fin 16)} (hd : Denotes h (some a) t) (hp : t.Placed p)
    (hf : 65 ≤ fuel + p.length) (hl : p.length ≤ 64) : onlyBelow h fuel a = t.only := by
  obtain _ | fuel := fuel
  · omega
  induction t generalizing a p fuel
  case empty => cases hd
  case leaf =>
    cases hd
    case leaf hg => simp [onlyBelow, hg, Tree.only]
  case inner ts ih =>
    have hd' := hd
    cases hd
    case inner bs hg hb =>
      have hfm : (List.finRange 16).filterMap bs = (Tree.nonempty ts).filterMap bs := by
        rw [hd'.nonempty_eq hg, List.filterMap_filter]
        refine List.filterMap_congr (fun b _ => ?_)
        cases bs b <;> simp
      have hsome : ∀ b ∈ Tree.nonempty ts, ∃ br, bs b = some br := by
        simp [hd'.nonempty_eq hg, Option.isSome_iff_exists]
      simp only [onlyBelow, hg, Tree.only, hfm]
      rcases hn : Tree.nonempty ts with _ | ⟨b, _ | ⟨b₂, bs'⟩⟩
      · rfl
      · obtain ⟨br, hbr⟩ := hsome b (by simp [hn])
        have hbk := hb b
        have hp' := hp.left
        obtain _ | fuel := fuel
        · omega
        simp only [List.filterMap_cons, List.filterMap_nil, hbr] at hbk ⊢
        exact ih b hbk (hp.right b) (by simp; omega) fuel (by simp; omega)
      · obtain ⟨br₁, hb₁⟩ := hsome b (by simp [hn])
        obtain ⟨br₂, hb₂⟩ := hsome b₂ (by simp [hn])
        simp [hb₁, hb₂]

omit [Digest] in

theorem getBranchCount_eq {hash : UInt256} (hd : Denotes h (some a) (.inner ts))
    (hg : h.get a = .inner hash c bs) : (h.get a).getBranchCount = (Tree.nonempty ts).length := by
  rw [hd.nonempty_eq hg, getBranchCount, List.countP_eq_length_filter, hg]
  congr 2
  funext b
  cases hx : bs b <;> simp [isEmptyBranch, branches, hx]

theorem Edited.refl (ho : Owned h c sh x t S) : Edited S h c sh h x t :=
  ⟨.refl, S, ho, fun _ => .inl⟩

theorem collapse_edited {p : List (Fin 16)} (hc : c ≠ 0) (ho : Owned h c sh (some a) (.inner ts) S)
    (hcow : (h.get a).cowid = c) (hp : (Tree.inner ts).Placed p) :
    Edited S h c sh (delItem.collapse ty h a).2 (delItem.collapse ty h a).1 (Tree.collapse ty ts) := by
  obtain ⟨node, bs, Ss, o⟩ := ho.opened
  obtain ⟨hash, cowid, hn⟩ := o.inner
  have hg := o.get.trans hn
  have hd := ho.denotes
  have hob : onlyBelow h levels a = (Tree.inner ts).only :=
    onlyBelow_eq hd hp (by simp only [levels]; omega) (Nat.le_of_lt hp.left)
  rw [delItem.collapse, getBranchCount_eq hd hg, hob, Tree.collapse, Tree.only]
  rcases hne : Tree.nonempty ts with _ | ⟨b, _ | ⟨b₂, bs'⟩⟩
  · exact ⟨.refl, ∅, .empty, by simp⟩
  · cases hi : (ts b).only with
    | none => simpa [hi] using Edited.refl ho
    | some i =>
      have hm : a ∈ S := o.owned_of_cowid hc (o.get ▸ hcow)
      have hfind : (List.finRange 16).find? (fun b => !(h.get a).isEmptyBranch b) = some b := by
        have := congrArg List.head? ((hd.nonempty_eq hg).symm.trans hne)
        simpa [List.head?_filter, hg, isEmptyBranch, branches] using this
      have hcow' : ((h.modify a (·.setChild b none)).get a).cowid = c := by
        rw [get_modify_self, ← hcow, hg]; rfl
      simp only [List.length_singleton, hi, hfind, hcow']
      refine ⟨.trans' (.modify hm) .alloc, {h.next}, .leaf ?_ ?_, by simp⟩
      · simp
      · exact get_alloc_self
  · simpa using Edited.refl ho

theorem delItem_loop (fuel : Nat) (rest : Stack) (hc : m.cowid ≠ 0)
    (ho : Owned h m.cowid sh (some a) t S) (hp : t.Placed id.path) (hr : ¬id.isRoot)
    (hf : 65 ≤ fuel + id.depth) (hw : t.walk k id.depth = some (ty, j)) :
    ∃ a₀ id₀ stk x h', walkTowardsKey.loop h k fuel a id rest = .ok (some a₀, (a₀, id₀) :: stk) ∧
      (∃ hash cowid, h.get a₀ = .leaf hash cowid ty j) ∧
      delItem.loop k ty stk none m h = delItem.loop k ty rest x m h' ∧
      Edited S h m.cowid sh h' x (t.del k ty id.depth) := by
  obtain ⟨fuel, rfl⟩ := exists_fuel hf
  induction t generalizing a id fuel rest S
  case empty => cases ho.denotes
  case leaf =>
    obtain ⟨rfl, rfl⟩ := hw
    obtain _ | hg := ho.denotes
    exact ⟨a, id, rest, none, h, by simp only [walkTowardsKey.loop, hg]; rfl, ⟨_, _, hg⟩, rfl,
      .refl, ∅, .empty, by simp⟩
  case inner ts ih =>
    obtain ⟨node, bs, Ss, o⟩ := ho.opened
    obtain ⟨hash, cowid, hnode⟩ := o.inner
    have hbk := o.branches (selectBranch id k)
    cases hb : bs (selectBranch id k) with
    | none =>
      rw [hb] at hbk
      have he : ts (k.nibble id.depth) = .empty := hbk.denotes.eq_none_iff.mp rfl
      simp [Tree.walk, he] at hw
    | some br =>
      rw [hb] at hbk
      obtain ⟨child, hpath, hl⟩ := walk_loop_child fuel rest (o.get.trans hnode) hb hp.left
      have hdep := depth_of_path hpath
      have hf' : 65 ≤ fuel + child.depth := by omega
      obtain ⟨fuel, rfl⟩ := exists_fuel hf'
      obtain ⟨a₀, id₀, stk, x, h', hwk, hg₀, hloop, ed⟩ := ih (selectBranch id k) ((a, id) :: rest)
        hbk (hpath ▸ hp.right _) (not_isRoot_of_path hpath) (hdep ▸ hw) fuel hf'
      rw [hdep] at ed
      obtain ⟨a', h₂, hu, hcow, ed'⟩ := Edited.relink id hc o (fun hi => absurd hi hr) ed
      obtain ⟨S', ho', hs'⟩ := ed'.owned
      have hp' : (Tree.inner (update ts (selectBranch id k) (Tree.del k ty (id.depth + 1) _))).Placed
          id.path := hp.update (by simpa [depth] using (hp.right (selectBranch id k)).del)
      refine ⟨a₀, id₀, stk, _, _, hl ▸ hwk, hg₀, ?_, .trans ed'.frame hs' (collapse_edited hc ho' hcow hp')⟩
      rw [hloop, delItem.loop, hu, reroot_of_not_isRoot hr]
      simp [hr]

end Del
end SHAMap
