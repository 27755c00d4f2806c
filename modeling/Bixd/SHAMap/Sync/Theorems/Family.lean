import Bixd.SHAMap.Sync.Run

open SHAMap.Sync.Node Option Heap

namespace SHAMap
namespace Sync

open SHAMap.Tree (Hashed)

namespace Node

variable {n : Node}

-- The node as its hash sees it.
def data : Node → Hashed
  | inner _ _ branches => .inner (fun b => (branches b).map Branch.hash)
  | leaf _ type item   => .leaf type item

def childAt (n : Node) (b : Fin 16) : Option Addr :=
  (n.branches b).bind Branch.child

@[simp]
theorem data_make [Digest] {n : Hashed} : (make n).data = n := by
  cases n
  case leaf => rfl
  case inner hashes =>
    simp only [make, data, map_map]
    congr
    funext b
    cases hashes b <;> rfl

@[simp]
theorem getHash_make [Digest] {n : Hashed} : (make n).getHash = n.hash := by
  cases n <;> rfl

@[simp]
theorem childAt_make [Digest] {n : Hashed} : (make n).childAt b = none := by
  cases n
  case leaf => rfl
  case inner hashes =>
    simp only [make, childAt, branches]
    cases hashes b <;> rfl

theorem isFullBelow_make [Digest] {n : Hashed} (h : gen ≠ 0) : (make n).isFullBelow gen = false := by
  cases n
  case leaf => rfl
  case inner => exact decide_eq_false (fun he => h he.symm)

@[simp]
theorem data_setFullBelowGen : (n.setFullBelowGen gen).data = n.data := by
  cases n <;> rfl

@[simp]
theorem getHash_setFullBelowGen : (n.setFullBelowGen gen).getHash = n.getHash := by
  cases n <;> rfl

@[simp]
theorem getHash_canonicalizeChild : (n.canonicalizeChild b c).getHash = n.getHash := by
  cases n <;> rfl

@[simp]
theorem isFullBelow_canonicalizeChild :
    (n.canonicalizeChild b c).isFullBelow gen = n.isFullBelow gen := by
  cases n <;> rfl

@[simp]
theorem data_canonicalizeChild : (n.canonicalizeChild b c).data = n.data := by
  cases n
  case leaf => rfl
  case inner hash gen branches =>
    simp only [canonicalizeChild, data]
    congr
    funext b'
    by_cases hb : b' = b
    case pos =>
      subst hb
      cases branches b' <;> simp
    case neg => simp [hb]

theorem childAt_canonicalizeChild_ne (hb : b' ≠ b) :
    (n.canonicalizeChild b c).childAt b' = n.childAt b' := by
  cases n
  case leaf => rfl
  case inner => simp [canonicalizeChild, childAt, branches, hb]

theorem childAt_canonicalizeChild_self (hbr : n.branches b = some br) :
    (n.canonicalizeChild b c).childAt b = some ((n.childAt b).getD c) := by
  cases n
  case leaf => cases hbr
  case inner hash gen branches =>
    have hbr' : branches b = some br := hbr
    simp [canonicalizeChild, childAt, Node.branches, hbr']

theorem isInner_data : n.data.isInner = n.isInner := by
  cases n <;> rfl

theorem data_eq_inner (h : n.data = .inner hashes) : hashes b = (n.branches b).map Branch.hash := by
  cases n
  case leaf => cases h
  case inner => cases h; rfl

theorem childAt_eq_some : n.childAt b = some c ↔ ∃ br, (n.branches b = some br) ∧ br.child = some c := by
  simp [childAt, bind_eq_some_iff]

end Node

section Position

variable [Digest]

theorem PositionOf.head_cases (hp : PositionOf S h p h₂) :
    (p = [] ∧ h₂ = h) ∨ ∃ b h₁ q, (p = b :: q) ∧ Refers S h b h₁ ∧ PositionOf S h₁ q h₂ := by
  induction hp
  case root => exact .inl ⟨rfl, rfl⟩
  case child p b h₁ h₂ _ hr hi =>
    right
    obtain ⟨rfl, rfl⟩ | ⟨b', h₀, q, rfl, hr₀, hq⟩ := hi
    case inl => exact ⟨b, h₂, [], rfl, hr, .root⟩
    case inr => exact ⟨b', h₀, q ++ [b], rfl, hr₀, hq.child hr⟩

theorem PositionOf.cons (hr : Refers S h b h₁) (hp : PositionOf S h₁ p h₂) :
    PositionOf S h (b :: p) h₂ := by
  induction hp
  case root => exact PositionOf.child (p := []) .root hr
  case child p b' h₃ h₄ _ hr' hi => exact PositionOf.child (p := b :: p) hi hr'

end Position

namespace Family

variable {f : Family}

-- Nodes are added and children hooked up, and nothing is taken away.
structure Grows (f f' : Family) : Prop where
  next_le    : f.nodes.next ≤ f'.nodes.next
  data       : ∀ a < f.nodes.next, (f'.get a).data = (f.get a).data
  getHash    : ∀ a < f.nodes.next, (f'.get a).getHash = (f.get a).getHash
  childAt    : ∀ a < f.nodes.next, ∀ b c,
    (f.get a).childAt b = some c → (f'.get a).childAt b = some c
  available  : ∀ h n, f.available h = some n → f'.available h = some n
  generation : f'.generation = f.generation

theorem Grows.refl : Grows f f where
  next_le := le_rfl
  data _ _ := rfl
  getHash _ _ := rfl
  childAt _ _ _ _ hc := hc
  available _ _ hn := hn
  generation := rfl

theorem Grows.trans (g : Grows f f') (g' : Grows f' f'') : Grows f f'' where
  next_le := g.next_le.trans g'.next_le
  data a ha := (g'.data a (ha.trans_le g.next_le)).trans (g.data a ha)
  getHash a ha := (g'.getHash a (ha.trans_le g.next_le)).trans (g.getHash a ha)
  childAt a ha b c h := g'.childAt a (ha.trans_le g.next_le) b c (g.childAt a ha b c h)
  available h n hn := g'.available h n (g.available h n hn)
  generation := g'.generation.trans g.generation

theorem Grows.branch (g : Grows f f') (ha : a < f.nodes.next) :
    ((f'.get a).branches b).map Branch.hash = ((f.get a).branches b).map Branch.hash := by
  have hd := g.data a ha
  cases hn : f.get a
  case leaf =>
    rw [hn] at hd
    cases hn' : f'.get a
    case leaf => rfl
    case inner => rw [hn'] at hd; cases hd
  case inner =>
    rw [hn] at hd
    have he := data_eq_inner (b := b) hd
    rw [← he]
    rfl

theorem Available.grows (ha : f.Available h) (g : Grows f f') : f'.Available h := by
  obtain ha | ⟨a, hl, ha⟩ := ha
  case inl =>
    have ⟨n, hn⟩ := isSome_iff_exists.mp ha
    exact .inl (isSome_iff_exists.mpr ⟨n, g.available h n hn⟩)
  case inr => exact .inr ⟨a, hl.trans_le g.next_le, (g.getHash a hl).trans ha⟩

theorem available_of_lt (ha : a < f.nodes.next) : f.Available (f.get a).getHash :=
  .inr ⟨a, ha, rfl⟩

variable [Digest]

theorem Complete.grows (hc : f.Complete S h) (g : Grows f f') : f'.Complete S h :=
  fun p h' hp => (hc p h' hp).grows g

theorem Complete.refers (hc : f.Complete S h) (hr : Refers S h b h') : f.Complete S h' :=
  fun p h'' hp => hc (b :: p) h'' (hp.cons hr)

theorem Complete.of_children (ha : f.Available h)
    (hc : ∀ b h', Refers S h b h' → f.Complete S h') : f.Complete S h := by
  intro p h'' hp
  obtain ⟨rfl, rfl⟩ | ⟨b, h₁, q, rfl, hr, hq⟩ := hp.head_cases
  case inl => exact ha
  case inr => exact hc b h₁ hr q h'' hq

-- The nodes are what their hashes say, and what is recorded as full below is complete.
structure Sound (S : Set Hashed) (f : Family) : Prop where
  data       : ∀ a < f.nodes.next, ((f.get a).data ∈ S) ∧ ((f.get a).getHash = (f.get a).data.hash)
  hooked     : ∀ a < f.nodes.next, ∀ b br c, (f.get a).branches b = some br → br.child = some c →
    (c < f.nodes.next) ∧ ((f.get c).getHash = br.hash)
  available  : ∀ h n, f.available h = some n → (n ∈ S) ∧ (n.hash = h)
  fullBelow  : ∀ h ∈ f.fullBelow, f.Complete S h
  marked     : ∀ a < f.nodes.next, (f.get a).isFullBelow f.generation →
    f.Complete S (f.get a).getHash
  generation : f.generation ≠ 0

namespace Sound

section

variable (hf : f.Sound S) (hi : Set.InjOn Hashed.hash S) (ha : a < f.nodes.next)

include hf hi ha

theorem refers_iff :
    Refers S (f.get a).getHash b h ↔ ∃ br, ((f.get a).branches b = some br) ∧ (br.hash = h) := by
  have ⟨hm, hh⟩ := hf.data a ha
  constructor
  case mp =>
    rintro ⟨hashes, hs, he, hb⟩
    have hd := hi hm hs (hh.symm.trans he.symm)
    rw [data_eq_inner hd, map_eq_some_iff] at hb
    exact hb
  case mpr =>
    rintro ⟨br, hb, rfl⟩
    cases hn : f.get a
    case leaf => rw [hn] at hb; cases hb
    case inner hash gen branches =>
      rw [hn] at hm hh hb
      refine ⟨_, hm, hh.symm, ?_⟩
      have hb' : branches b = some br := hb
      simp [hb']

theorem complete_leaf (hl : (f.get a).isInner = false) : f.Complete S (f.get a).getHash := by
  apply Complete.of_children (available_of_lt ha)
  intro b h' hr
  have ⟨br, hb, _⟩ := (hf.refers_iff hi ha).mp hr
  cases hn : f.get a
  case leaf => rw [hn] at hb; cases hb
  case inner => rw [hn] at hl; cases hl

theorem complete_inner (hc : ∀ b br, (f.get a).branches b = some br → f.Complete S br.hash) :
    f.Complete S (f.get a).getHash := by
  apply Complete.of_children (available_of_lt ha)
  intro b h' hr
  have ⟨br, hb, he⟩ := (hf.refers_iff hi ha).mp hr
  exact he ▸ hc b br hb

end

end Sound

-- A call has found the node of hash `h` at `a`.
structure Gives (S : Set Hashed) (f : Family) (h : UInt256) (a : Addr) (f' : Family) : Prop where
  grows : Grows f f'
  sound : f'.Sound S
  lt : a < f'.nodes.next
  getHash : (f'.get a).getHash = h
  available : f'.available = f.available

section Calls

theorem grows_add : Grows f (f.add n).2 where
  next_le := Nat.le_succ _
  data a ha := by simp [add, get, get_alloc_lt ha]
  getHash a ha := by simp [add, get, get_alloc_lt ha]
  childAt a ha b c h := by simpa [add, get, get_alloc_lt ha] using h
  available _ _ hn := hn
  generation := rfl

theorem add_gives (hf : f.Sound S) (hn : n ∈ S) : Gives S f n.hash (f.add n).1 (f.add n).2 := by
  have hg : Grows f (f.add n).2 := grows_add
  have hget {a : Addr} (ha : a < f.nodes.next) : (f.add n).2.get a = f.get a := get_alloc_lt ha
  have hnew : (f.add n).2.get f.nodes.next = .make n := get_alloc_self
  have hlt {a : Addr} (ha : a < (f.add n).2.nodes.next) : a < f.nodes.next ∨ a = f.nodes.next :=
    Nat.lt_succ_iff_lt_or_eq.mp ha
  refine ⟨hg, ?_, Nat.lt_succ_self _, by rw [show (f.add n).1 = f.nodes.next from rfl, hnew,
    getHash_make], rfl⟩
  constructor
  case data =>
    intro a ha
    obtain ha | rfl := hlt ha
    case inl => rw [hget ha]; exact hf.data a ha
    case inr => rw [hnew, data_make, getHash_make]; exact ⟨hn, rfl⟩
  case hooked =>
    intro a ha b br c hb hc
    obtain ha | rfl := hlt ha
    case inl =>
      rw [hget ha] at hb
      have ⟨hl, hh⟩ := hf.hooked a ha b br c hb hc
      exact ⟨hl.trans_le hg.next_le, by rw [hget hl]; exact hh⟩
    case inr =>
      have hca := childAt_eq_some.mpr ⟨br, hb, hc⟩
      rw [hnew, childAt_make] at hca
      cases hca
  case available => exact hf.available
  case fullBelow => exact fun h hm => (hf.fullBelow h hm).grows hg
  case marked =>
    intro a ha hm
    obtain ha | rfl := hlt ha
    case inl =>
      rw [hget ha] at hm ⊢
      exact (hf.marked a ha hm).grows hg
    have hgen : (f.add n).2.generation ≠ 0 := hf.generation
    rw [hnew, isFullBelow_make hgen] at hm
    cases hm
  case generation => exact hf.generation

theorem canonicalize_gives (route : Route) (hf : f.Sound S) (hn : n ∈ S) (hh : n.hash = h) :
    Gives S f h (f.canonicalize h n route).1 (f.canonicalize h n route).2 := by
  have ha := add_gives hf hn
  rw [hh] at ha
  unfold canonicalize
  split
  case h_1 a =>
    split
    case isTrue h => exact ⟨.refl, hf, h.left, h.right, rfl⟩
    case isFalse => exact ha
  case h_2 => exact ha

theorem fetchNodeNT_gives (hf : f.Sound S) (hr : f.fetchNodeNT h route = some (a, f')) :
    Gives S f h a f' := by
  have ⟨n, hn, he⟩ := map_eq_some_iff.mp hr
  have ⟨hm, hh⟩ := hf.available h n hn
  have hg := canonicalize_gives route hf hm hh
  rwa [he] at hg

theorem fetchNodeNT_eq_none : f.fetchNodeNT h route = none ↔ f.available h = none :=
  map_eq_none_iff

section

variable (hf : f.Sound S) (ha : a < f.nodes.next) (hb : (f.get a).branches b = some br)

include hf ha hb

theorem hookChild_gives (hc : c < f.nodes.next) (hh : (f.get c).getHash = br.hash) :
    Gives S f br.hash (f.hookChild a b c).1 (f.hookChild a b c).2 ∧
      (((f.hookChild a b c).2.get a).childAt b = some (f.hookChild a b c).1) := by
  let d := ((f.get a).childAt b).getD c
  have hd : d < f.nodes.next ∧ (f.get d).getHash = br.hash := by
    cases hca : (f.get a).childAt b
    case none => simpa [d, hca] using ⟨hc, hh⟩
    case some c' =>
      have ⟨br', hb', hc'⟩ := childAt_eq_some.mp hca
      rw [hb] at hb'
      cases hb'
      simpa [d, hca] using hf.hooked a ha b br c' hb hc'
  have hself : (f.hookChild a b c).2.get a = (f.get a).canonicalizeChild b d := get_modify_self
  have hne {a' : Addr} (hn : a' ≠ a) : (f.hookChild a b c).2.get a' = f.get a' := get_modify_ne hn
  have hdata (a' : Addr) : ((f.hookChild a b c).2.get a').data = (f.get a').data := by
    by_cases he : a' = a
    case pos => rw [he, hself, data_canonicalizeChild]
    case neg => rw [hne he]
  have hhash (a' : Addr) : ((f.hookChild a b c).2.get a').getHash = (f.get a').getHash := by
    by_cases he : a' = a
    case pos => rw [he, hself, getHash_canonicalizeChild]
    case neg => rw [hne he]
  have hchild : ((f.hookChild a b c).2.get a).childAt b = some d := by
    rw [hself, childAt_canonicalizeChild_self hb]
    cases hca : (f.get a).childAt b <;> simp [d, hca]
  have hg : Grows f (f.hookChild a b c).2 := by
    refine ⟨le_rfl, fun a' _ => hdata a', fun a' _ => hhash a', ?_, fun _ _ hn => hn, rfl⟩
    intro a' _ b' c' hc'
    by_cases he : a' = a
    case neg => rw [hne he]; exact hc'
    subst he
    by_cases hbb : b' = b
    case pos => subst hbb; rw [hchild]; simp [d, hc']
    case neg => rw [hself, childAt_canonicalizeChild_ne hbb]; exact hc'
  refine ⟨⟨hg, ?_, hd.left, (hhash d).trans hd.right, rfl⟩, hchild⟩
  constructor
  case data => intro a' ha'; rw [hdata, hhash]; exact hf.data a' ha'
  case hooked =>
    intro a' ha' b' br' c' hb' hc'
    have hca := childAt_eq_some.mpr ⟨br', hb', hc'⟩
    have hbh : ((f.get a').branches b').map Branch.hash = some br'.hash := by
      rw [← hg.branch ha', hb']; rfl
    have ⟨br₀, hb₀, hh₀⟩ := map_eq_some_iff.mp hbh
    rw [← hh₀, hhash]
    by_cases he : a' = a ∧ b' = b
    case pos =>
      obtain ⟨rfl, rfl⟩ := he
      rw [hchild] at hca
      rw [hb] at hb₀
      cases hb₀
      exact some.inj hca ▸ hd
    case neg =>
      have hold : (f.get a').childAt b' = some c' := by
        by_cases hea : a' = a
        case neg => rwa [hne hea] at hca
        case pos =>
          subst hea
          rwa [hself, childAt_canonicalizeChild_ne (fun hb => he ⟨rfl, hb⟩)] at hca
      have ⟨br₁, hb₁, hc₁⟩ := childAt_eq_some.mp hold
      rw [hb₀] at hb₁
      cases hb₁
      exact hf.hooked a' ha' b' br₀ c' hb₀ hc₁
  case available => exact hf.available
  case fullBelow => exact fun h hm => (hf.fullBelow h hm).grows hg
  case marked =>
    intro a' ha' hm
    rw [hhash]
    refine (hf.marked a' ha' ?_).grows hg
    by_cases he : a' = a
    case pos => rw [he, hself, isFullBelow_canonicalizeChild] at hm; rw [he]; exact hm
    case neg => rwa [hne he] at hm
  case generation => exact hf.generation

theorem fetchChild_gives (hr : f.fetchChild a b br.hash route = some (c, f')) :
    Gives S f br.hash c f' ∧ ((f'.get a).childAt b = some c) := by
  have ⟨⟨c₀, f₀⟩, h₀, h₁⟩ := bind_eq_some_iff.mp hr
  have g₀ := fetchNodeNT_gives hf h₀
  have hbh : ((f₀.get a).branches b).map Branch.hash = some br.hash := by
    rw [g₀.grows.branch ha, hb]; rfl
  have ⟨br', hb', hh⟩ := map_eq_some_iff.mp hbh
  have hg := hookChild_gives g₀.sound (ha.trans_le g₀.grows.next_le) hb' g₀.lt
    (g₀.getHash.trans hh.symm)
  have h₁' := some.inj h₁
  rw [h₁', hh] at hg
  exact ⟨⟨g₀.grows.trans hg.left.grows, hg.left.sound, hg.left.lt, hg.left.getHash,
    hg.left.available.trans g₀.available⟩, hg.right⟩

end

theorem fetchChild_eq_none : f.fetchChild a b h route = none ↔ f.available h = none := by
  have hn : f.fetchNodeNT h route = none ↔ f.available h = none := fetchNodeNT_eq_none
  rw [fetchChild, ← hn]
  cases f.fetchNodeNT h route <;> simp

section

variable (hf : f.Sound S) (ha : a < f.nodes.next) (hb : (f.get a).branches b = some br)

include hf ha hb

theorem descend_gives (hr : f.descend a b br route = some (c, f')) :
    Gives S f br.hash c f' ∧ ((f'.get a).childAt b = some c) := by
  unfold descend at hr
  split at hr
  case h_1 c' hc =>
    cases hr
    have ⟨hl, hh⟩ := hf.hooked a ha b br c hb hc
    exact ⟨⟨.refl, hf, hl, hh, rfl⟩, childAt_eq_some.mpr ⟨br, hb, hc⟩⟩
  case h_2 => exact fetchChild_gives hf ha hb hr

theorem descendAsync_found (hr : f.descendAsync backed a b br route = .found c f') :
    Gives S f br.hash c f' ∧ ((f'.get a).childAt b = some c) := by
  unfold descendAsync at hr
  split at hr
  case h_1 c' hc =>
    cases hr
    have ⟨hl, hh⟩ := hf.hooked a ha b br c hb hc
    exact ⟨⟨.refl, hf, hl, hh, rfl⟩, childAt_eq_some.mpr ⟨br, hb, hc⟩⟩
  case h_2 => split at hr <;> cases hr
  case h_3 he =>
    split at hr
    case isTrue => cases hr
    case isFalse => cases hr; exact fetchChild_gives hf ha hb he
  case h_4 he => cases hr; exact fetchChild_gives hf ha hb he

end

theorem descendAsync_missing (hr : f.descendAsync backed a b br route = .missing) :
    f.available br.hash = none := by
  unfold descendAsync at hr
  split at hr
  case h_1 => cases hr
  case h_2 he => exact fetchChild_eq_none.mp he
  case h_3 => split at hr <;> cases hr
  case h_4 => cases hr

end Calls
end Family
end Sync
end SHAMap
