import Bixd.SHAMap.Iterator
import Bixd.SHAMap.Theorems.Calls

open List

-- The iterators go through the items from left to right.
namespace SHAMap

open SHAMap.Tree

namespace Tree

-- The items to the right of branch `b`.
def after (ts : Fin 16 → Tree) (b : Fin 16) : List SHAMapItem :=
  ((List.finRange 16).filter (b < ·)).flatMap (fun b => (ts b).items)

variable {ts : Fin 16 → Tree} {b b' : Fin 16} {l₁ l₂ : List (Fin 16)} {p : List (Fin 16)}

theorem flatMap_items_eq_nil {l : List (Fin 16)} (h : ∀ x ∈ l, ts x = empty) :
    l.flatMap (fun b => (ts b).items) = [] :=
  flatMap_eq_nil_iff.mpr (fun x hx => by rw [h x hx]; rfl)

section

variable (h : List.finRange 16 = l₁ ++ b :: l₂)

include h

theorem finRange_lt : (∀ x ∈ l₁, x < b) ∧ ∀ x ∈ l₂, b < x := by
  have hp := h ▸ pairwise_lt_finRange 16
  have ⟨_, hc, hl⟩ := pairwise_append.mp hp
  exact ⟨fun x hx => hl x hx b mem_cons_self, (pairwise_cons.mp hc).left⟩

theorem after_eq : after ts b = l₂.flatMap (fun b => (ts b).items) := by
  have ⟨h₁, h₂⟩ := finRange_lt h
  rw [after, h, filter_append, filter_cons_of_neg (by simp)]
  rw [filter_eq_nil_iff.mpr, filter_eq_self.mpr]
  · rfl
  · simpa using h₂
  · simpa using fun x hx => (h₁ x hx).le

theorem items_of_first (he : ∀ x ∈ l₁, ts x = empty) :
    (inner ts).items = (ts b).items ++ after ts b := by
  rw [items, after_eq h, h, flatMap_append, flatMap_items_eq_nil he]
  simp

end

theorem after_of_first (h : finRange 16 = l₁ ++ b' :: l₂) (hb : b < b')
    (he : ∀ x ∈ l₁, b < x → ts x = empty) : after ts b = (ts b').items ++ after ts b' := by
  have ⟨_, h₂⟩ := finRange_lt h
  rw [after_eq h, after, h, filter_append, filter_cons_of_pos (by simpa using hb),
    flatMap_append, flatMap_items_eq_nil, filter_eq_self.mpr]
  · simp
  · simpa using fun x hx => hb.trans (h₂ x hx)
  · simpa using he

theorem after_eq_nil (he : ∀ x, b < x → ts x = empty) : after ts b = [] :=
  flatMap_items_eq_nil (by simpa using he)

-- The items above a key that leads through branch `b`.
theorem filter_items (hp : p.length < 64) (hw : ∀ b, (ts b).WF (p ++ [b])) (hk : HasPath p k) :
    (inner ts).items.filter (k < ·.key) =
      (ts (k.nibble p.length)).items.filter (k < ·.key) ++ after ts (k.nibble p.length) := by
  have hlt {b x} (hx : x ∈ (ts b).items) (hb : k.nibble p.length < b) : k < x.key := by
    have hpx := HasPath.append_iff.mp ((hw b).hasPath hx)
    exact UInt256.lt_of_nibble_lt hp (fun i hi => hk.nibble_eq hpx.left hi) (by rwa [hpx.right])
  have hgt {b x} (hx : x ∈ (ts b).items) (hb : b < k.nibble p.length) : x.key < k := by
    have hpx := HasPath.append_iff.mp ((hw b).hasPath hx)
    exact UInt256.lt_of_nibble_lt hp (fun i hi => hpx.left.nibble_eq hk hi) (by rwa [hpx.right])
  have ⟨l₁, l₂, hl⟩ := append_of_mem (mem_finRange (k.nibble p.length))
  have ⟨h₁, h₂⟩ := finRange_lt hl
  have hnil : (l₁.flatMap (fun b => (ts b).items)).filter (k < ·.key) = [] := by
    simpa using fun x b hb hx => (hgt hx (h₁ b hb)).le
  have hall : (l₂.flatMap (fun b => (ts b).items)).filter (k < ·.key) = l₂.flatMap (fun b => (ts b).items) := by
    simpa using fun x b hb hx => hlt hx (h₂ b hb)
  rw [after_eq hl, items, hl, flatMap_append, flatMap_cons, filter_append,
    filter_append, hnil, hall, nil_append]

end Tree

-- The nodes on the stack lead to the position `p`. The items to the right of it are `rest`.
inductive Spine (h : NodeHeap) : List (Fin 16) → Stack → List SHAMapItem → Prop
  | nil : Spine h [] [] []
  | cons {p stack rest a ts} (id : SHAMapNodeID) (b : Fin 16) :
    Spine h p stack rest → Denotes h (some a) (.inner ts) → p.length < 64 → id.depth = p.length →
      (∀ b, (ts b).WF (p ++ [b])) → Spine h (p ++ [b]) ((a, id) :: stack) (after ts b ++ rest)

variable {h : NodeHeap} {ts : Fin 16 → Tree} {b : Fin 16}
variable {id : SHAMapNodeID}

theorem Spine.childID (sp : Spine h p stack rest) (hp : p.length < 64) (br : Fin 16) :
    ∃ id, firstBelow.childID br stack = .ok id ∧ id.depth = p.length := by
  match sp with
  | .nil => exact ⟨_, rfl, rfl⟩
  | .cons id _ _ _ _ hd _ =>
    rw [length_append, length_singleton] at hp ⊢
    have ⟨child, he, hc⟩ := getChildNodeID_ok id br (by omega)
    exact ⟨child, he, by rw [depth_of_path hc, hd]⟩

-- The top of the stack is the leaf of `i`. The items to the right of it are `rest`.
structure AtLeaf (h : NodeHeap) (stack : Stack) (i : SHAMapItem) (rest : List SHAMapItem) : Prop where
  spine : ∃ p, Spine h p stack.tail rest ∧ HasPath p i.key

theorem Denotes.isSome_iff {hash : UInt256} (hd : Denotes h (some a) (.inner ts))
    (hg : h.get a = .inner hash c bs) (b : Fin 16) : (bs b).isSome ↔ ts b ≠ .empty := by
  cases hd
  case inner hg' hb =>
    cases hg.symm.trans hg'
    rw [← not_iff_not, not_not, ← (hb b).eq_none_iff]
    cases bs b <;> simp

theorem firstBelow_spec (fuel : Nat) (sp : Spine h p stack rest) (hd : Denotes h (some a) t)
    (hw : t.WF p) (hl : p.length ≤ 64) (hf : 65 ≤ fuel + p.length) (br : Fin 16) :
    ∃ i is a' stack', t.items = i :: is ∧ firstBelow h br fuel a stack = .ok (some (a', i), stack') ∧
      AtLeaf h stack' i (is ++ rest) := by
  obtain _ | fuel := fuel
  · omega
  induction t generalizing a p stack rest fuel
  case empty => cases hd
  case leaf i =>
    cases hd
    case leaf hg =>
      exact ⟨i, [], a, (a, .ofKey i.key) :: stack, rfl, by simp only [firstBelow, hg]; rfl, ⟨p, sp, hw⟩⟩
  case inner ts ih =>
    have hd' := hd
    cases hd
    case inner bs hg hb =>
      have hlt := hw.left
      obtain ⟨id, hid, hdep⟩ := sp.childID hlt br
      obtain ⟨j, hj, _⟩ := hw.exists_ne
      cases hs : (finRange 16).findSome? bs with
      | none =>
        obtain ⟨b, hjb⟩ := Tree.mem_items_inner.mp hj
        have hn := findSome?_eq_none_iff.mp hs b (mem_finRange b)
        have he := (hb b).eq_none_iff.mp (by rw [hn]; rfl)
        simp [he, Tree.items] at hjb
      | some x =>
        obtain ⟨l₁, b, l₂, hsp, hbx, hl₁⟩ := findSome?_eq_some_iff.mp hs
        have hbb := hb b
        rw [hbx] at hbb
        have hitems := Tree.items_of_first hsp
          (fun y hy => (hb y).eq_none_iff.mp (by rw [hl₁ y hy]; rfl))
        have sp' := Spine.cons id b sp hd' hlt hdep hw.right.left
        obtain _ | fuel := fuel
        · omega
        obtain ⟨i, is, a', stack', hi, hfb, hat⟩ := ih b sp' hbb (hw.right.left b) (by simp; omega) fuel (by simp; omega)
        refine ⟨i, is ++ Tree.after ts b, a', stack', by rw [hitems, hi]; rfl, ?_, by simpa using hat⟩
        rw [firstBelow]
        simp only [hg, hid, hs]
        exact hfb

theorem firstAfter_spec (sp : Spine h p stack rest) (hd : Denotes h (some a) (.inner ts))
    (hl : p.length < 64) (hdep : id.depth = p.length) (hw : ∀ b, (ts b).WF (p ++ [b]))
    (k : UInt256) :
    (after ts (k.nibble p.length) = [] ∧ firstAfter h k a id stack = .ok none) ∨
    ∃ i is stack', after ts (k.nibble p.length) = i :: is ∧
      firstAfter h k a id stack = .ok (some (i, stack')) ∧ AtLeaf h stack' i (is ++ rest) := by
  have hd' := hd
  cases hd
  case inner hash cowid bs hg hb =>
    rw [firstAfter, hg]
    simp only [selectBranch, hdep, SHAMapTreeNode.branches]
    cases hs : (finRange 16).find? (fun b => k.nibble p.length < b ∧ (bs b).isSome) with
    | none =>
      refine .inl ⟨after_eq_nil (fun b hlt => ?_), rfl⟩
      have := find?_eq_none.mp hs b (mem_finRange b)
      by_contra hne
      simp [hlt, (hd'.isSome_iff hg b).mpr hne] at this
    | some b =>
      obtain ⟨hb', l₁, l₂, hsp, hl₁⟩ := find?_eq_some_iff_append.mp hs
      simp only [Bool.decide_and, Bool.decide_eq_true, Bool.and_eq_true, decide_eq_true_eq] at hb' hl₁
      obtain ⟨x, hx⟩ := Option.isSome_iff_exists.mp hb'.right
      have hbb := hb b
      rw [hx] at hbb
      have hafter : after ts _ = _ := after_of_first hsp hb'.left (fun y hy hlt => by
        by_contra hne
        simpa [hlt, (hd'.isSome_iff hg y).mpr hne] using hl₁ y hy)
      have sp' := Spine.cons id b sp hd' hl hdep hw
      obtain ⟨i, is, a', stack', hi, hfb, hat⟩ :=
        firstBelow_spec levels sp' hbb (hw b) (by simp; omega) (by simp [levels]) b
      refine .inr ⟨i, is ++ after ts b, stack', by rw [hafter, hi]; rfl, ?_, by simpa using hat⟩
      simp only [hx, hfb]
      rfl

-- An iterator at the first of `items`, or at the end if there are none.
def At (h : NodeHeap) (it : ConstIterator) (items : List SHAMapItem) : Prop :=
  it.item = items.head? ∧ ∀ i is, items = i :: is → AtLeaf h it.stack i is

theorem peekNextItem_loop (sp : Spine h p stack rest) (hk : HasPath p k) :
    ∃ x stack', peekNextItem.loop h k stack = .ok (x, stack') ∧ At h ⟨stack', x⟩ rest := by
  induction sp
  case nil => exact ⟨none, [], rfl, rfl, by simp⟩
  case cons p stack rest a ts id b sp hd hl hdep hw ih =>
    have ⟨hkp, hkb⟩ := HasPath.append_iff.mp hk
    rw [peekNextItem.loop, ← hkb]
    rcases firstAfter_spec sp hd hl hdep hw k with ⟨ha, he⟩ | ⟨i, is, stack', ha, he, hat⟩
    · have ⟨x, stack', hx, hat⟩ := ih hkp
      exact ⟨x, stack', by rw [he]; exact hx, by rwa [ha]⟩
    · refine ⟨some i, stack', by rw [he]; rfl, by rw [ha]; rfl, ?_⟩
      rw [ha]
      rintro _ _ ⟨⟩
      exact hat

theorem upperBound_loop (sp : Spine h p stack rest) (hk : HasPath p k) :
    upperBound.loop h k stack = peekNextItem.loop h k stack := by
  induction sp
  case nil => rfl
  case cons hd _ _ _ ih =>
    cases hd
    case inner hg _ =>
      rw [upperBound.loop, peekNextItem.loop, hg, ih (HasPath.append_iff.mp hk).left]

theorem upperBound_walk (fuel : Nat) (id : SHAMapNodeID) (sp : Spine h p stack rest)
    (hd : Denotes h (some a) t) (hw : t.WF p ∨ p = [] ∧ ∃ ts, t = .inner ts ∧ RootWF ts)
    (hk : HasPath p k) (hdep : id.path = p) (hf : 65 ≤ fuel + id.depth) :
    ∃ x stk y stk', walkTowardsKey.loop h k fuel a id stack = .ok (x, stk) ∧
      upperBound.loop h k stk = .ok (y, stk') ∧ At h ⟨stk', y⟩ (t.items.filter (k < ·.key) ++ rest) := by
  subst hdep
  obtain ⟨fuel, rfl⟩ := exists_fuel hf
  induction t generalizing a id stack rest fuel
  case empty => cases hd
  case leaf ty j =>
    cases hd
    case leaf hg =>
      refine ⟨some a, (a, id) :: stack, ?_⟩
      simp only [walkTowardsKey.loop, hg, upperBound.loop]
      by_cases hj : k < j.key
      case pos =>
        refine ⟨some j, (a, id) :: stack, rfl, by rw [if_pos hj]; rfl, by simp [Tree.items, hj], ?_⟩
        simp only [Tree.items, hj, filter_cons_of_pos, decide_true, filter_nil]
        rintro _ _ ⟨⟩
        exact ⟨id.path, sp, hw.resolve_right (by simp)⟩
      case neg =>
        obtain ⟨y, stk', hy, hat⟩ := peekNextItem_loop sp hk
        refine ⟨y, stk', rfl, by rw [if_neg hj, upperBound_loop sp hk, hy], ?_⟩
        simpa [Tree.items, hj] using hat
  case inner ts ih =>
    have hwc : id.path.length < 64 ∧ ∀ b, (ts b).WF (id.path ++ [b]) := by
      rcases hw with hw | ⟨hp, ts', he, hr⟩
      · exact ⟨hw.left, hw.right.left⟩
      · cases he
        rw [hp]
        exact ⟨by simp, hr.wf⟩
    have hd' := hd
    cases hd
    case inner hash cowid bs hg hb =>
      have sp' := Spine.cons id (selectBranch id k) sp hd' hwc.left rfl hwc.right
      have hk' := HasPath.append_iff.mpr ⟨hk, rfl⟩
      have hfil := Tree.filter_items hwc.left hwc.right hk
      have hbk := hb (selectBranch id k)
      cases hc : bs (selectBranch id k) with
      | none =>
        rw [hc] at hbk
        have he : ts (k.nibble id.path.length) = .empty := hbk.eq_none_iff.mp rfl
        obtain ⟨y, stk', hy, hat⟩ := peekNextItem_loop sp' hk'
        refine ⟨none, (a, id) :: stack, y, stk', by simp only [walkTowardsKey.loop, hg, hc]; rfl, ?_, ?_⟩
        · rw [upperBound_loop sp' hk', hy]
        · rw [hfil, he]
          exact hat
      | some br =>
        rw [hc] at hbk
        obtain ⟨child, hpath, hl⟩ := walk_loop_child fuel stack hg hc hwc.left
        have hf' : 65 ≤ fuel + child.depth := by rw [depth_of_path hpath]; omega
        rw [hl, hfil, append_assoc]
        obtain ⟨fuel, rfl⟩ := exists_fuel hf'
        exact ih _ child hbk (hpath ▸ sp') (.inl (hpath ▸ hwc.right _)) (hpath ▸ hk') fuel hf'

end SHAMap
