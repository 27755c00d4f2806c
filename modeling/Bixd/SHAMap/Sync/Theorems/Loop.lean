import Bixd.SHAMap.Sync.Theorems.Search

open List Option

namespace SHAMap
namespace Sync

open SHAMap.Tree (Hashed)

variable [Digest]
variable {mn : MissingNodes} {pos : StackEntry}

namespace Search

variable {g : Search}

-- What the calls hold on to, from the family `f₀` at the start on. No node has become available.
structure Held (S : Set Hashed) (r : Addr) (f₀ f : Family) : Prop where
  sound     : f.Sound S
  grows     : f₀.Grows f
  root      : r < f₀.nodes.next
  available : f.available = f₀.available

theorem Held.root_lt (hh : Held S r f₀ f) : r < f.nodes.next :=
  hh.root.trans_le hh.grows.next_le

theorem Held.gives (hh : Held S r f₀ f) (hg : f.Gives S h a f') : Held S r f₀ f' where
  sound := hg.sound
  grows := hh.grows.trans hg.grows
  root := hh.root
  available := hg.available.trans hh.available

-- The search goes on unless an exception has ended it.
structure Inv (S : Set Hashed) (r : Addr) (h₀ : UInt256) (M : Int) (f₀ : Family) (g : Search) :
    Prop where
  held     : Held S r f₀ g.family
  progress : g.thrown = none → Progress S r h₀ M g.family g.mn g.pos

-- One lemma for each way to deal with the next branch of the node that is being processed.
section Branch

variable {pos : StackEntry}

section

variable (hh : Held S r f₀ g.family) (hpos : g.pos = pos.advance pos.fullBelow)

include hh hpos

theorem Held.not_full (hp : Progress S r h₀ M g.family mn pos) (hn : pos.node = some a)
    (hb : (g.family.get a).branches pos.next = some br)
    (hl : ∀ V, Settled S g.family mn V br.hash ∨ ∃ id, ⟨a, id, pos.next⟩ ∈ mn.deferred) :
    Inv S r h₀ M f₀ { g.notFull with mn := mn } := by
  refine ⟨hh, fun _ => ?_⟩
  have he : g.notFull.pos = pos.advance false := by rw [notFull, hpos]; rfl
  rw [he]
  refine hp.advance hn (fun h => absurd h (by decide)) fun V br' hb' => ?_
  cases hb.symm.trans hb'
  exact hl V

theorem Held.full (hp : Progress S r h₀ M g.family g.mn pos) (hn : pos.node = some a)
    (hb : (g.family.get a).branches pos.next = some br) (hc : g.family.Complete S br.hash) :
    Inv S r h₀ M f₀ g := by
  refine ⟨hh, fun _ => ?_⟩
  rw [hpos]
  refine hp.advance hn (fun h => ⟨h, fun br' hb' => ?_⟩) fun V br' hb' => ?_
  · cases hb.symm.trans hb'; exact hc
  · cases hb.symm.trans hb'; exact .inl (.complete hc)

end

theorem branch_inv (hi : Set.InjOn Hashed.hash S) (hh : Held S r f₀ g.family)
    (hpos : g.pos = pos.advance pos.fullBelow) (hp : Progress S r h₀ M g.family g.mn pos)
    (hn : pos.node = some a) (hb : (g.family.get a).branches pos.next = some br) :
    Inv S r h₀ M f₀ (gmn_ProcessNodes.branch env backed g a pos.next br) := by
  have ⟨hpl, _, _⟩ := hp.atPos.of_some hn
  have href := (hp.sound.refers_iff hi hpl.lt).mpr ⟨br, hb, rfl⟩
  have hid {childID : SHAMapNodeID} (h : g.pos.nodeID.getChildNodeID pos.next = .ok childID) :
      PositionOf S h₀ childID.path br.hash := by
    have hpath := getChildNodeID_path h
    rw [hpos] at hpath
    rw [hpath]
    exact hpl.position.child href
  have hnodeID : g.pos.nodeID = pos.nodeID := by rw [hpos]; rfl
  unfold gmn_ProcessNodes.branch
  split
  case isTrue hm =>
    exact hh.not_full hpos hp hn hb fun V => .inl (.missing (contains_iff_mem.mp hm))
  case isFalse hm =>
    split
    case isTrue htouch =>
      simp only [Family.touchIfExists, Bool.and_eq_true, contains_iff_mem] at htouch
      exact hh.full hpos hp hn hb (hh.sound.fullBelow _ htouch.right.right)
    split
    case h_1 =>
      rw [hnodeID]
      exact hh.not_full hpos (hp.defer (d := ⟨a, pos.nodeID, pos.next⟩) hpl) hn hb
        fun V => .inr ⟨pos.nodeID, mem_append_right _ (mem_singleton_self _)⟩
    case h_2 hd =>
      have ha := Family.descendAsync_missing hd
      split
      case h_1 => exact ⟨hh, nofun⟩
      case h_2 childID hc =>
        have hm' : br.hash ∉ g.mn.missingHashes := fun h => hm (contains_iff_mem.mpr h)
        exact hh.not_full hpos (hp.report hm' (hid hc) ha) hn hb
          fun V => .inl (.missing (mem_append_right _ (mem_singleton_self _)))
    case h_3 c f hd =>
      have ⟨hgive, _⟩ := Family.descendAsync_found hh.sound hpl.lt hb hd
      have hp' := hp.grows hh.root_lt hgive.grows hgive.sound hgive.available
      have hbh : ((f.get a).branches pos.next).map Branch.hash = some br.hash := by
        rw [hgive.grows.branch hpl.lt, hb]; rfl
      have ⟨br', hb', hh'⟩ := map_eq_some_iff.mp hbh
      split
      case isTrue =>
        split
        case h_1 => exact ⟨hh.gives hgive, nofun⟩
        case h_2 childID hc =>
          refine ⟨hh.gives hgive, fun _ => ?_⟩
          have hent := hp'.enter hn hb' hgive.lt (hgive.getHash.trans hh'.symm)
            (k := env.rand g.clock c) (hh' ▸ hid hc)
          simpa only [enter, hpos] using hent
      case isFalse hfull =>
        have hcomp : f.Complete S (f.get c).getHash := by
          cases hin : (f.get c).isInner
          case false => exact hgive.sound.complete_leaf hi hgive.lt hin
          case true =>
            rw [hin, Bool.true_and, Bool.not_eq_true', Bool.not_eq_false] at hfull
            exact hgive.sound.marked c hgive.lt hfull
        refine Held.full (g := { g with family := f }) (hh.gives hgive) hpos hp' hn hb' ?_
        rw [hh', ← hgive.getHash]
        exact hcomp

theorem round_inv (hi : Set.InjOn Hashed.hash S) (hg : Inv S r h₀ M f₀ g) (ht : g.thrown = none)
    (hn : g.pos.node = some a) : Inv S r h₀ M f₀ (gmn_ProcessNodes.round env backed g a) := by
  have hp := hg.progress ht
  unfold gmn_ProcessNodes.round
  simp only
  split
  case h_1 hb =>
    refine ⟨hg.held, fun _ => hp.advance hn (fun h => ⟨h, fun br' hb' => ?_⟩) fun V br' hb' => ?_⟩
    all_goals cases hb.symm.trans hb'
  case h_2 br hb =>
    exact branch_inv
      (g := { g with pos.currentChild := g.pos.currentChild + 1, clock := g.clock + 1 })
      hi hg.held rfl hp hn hb

end Branch

theorem mark_held (backed : Bool) (hh : Held S r f₀ f)
    (hc : f.Complete S (f.get a).getHash) :
    Held S r f₀ (gmn_ProcessNodes.finish.mark backed a f) ∧
      f.Grows (gmn_ProcessNodes.finish.mark backed a f) := by
  have hself : (gmn_ProcessNodes.finish.mark backed a f).get a =
      (f.get a).setFullBelowGen f.generation := Heap.get_modify_self
  have hne {a' : Addr} (hn : a' ≠ a) : (gmn_ProcessNodes.finish.mark backed a f).get a' = f.get a' :=
    Heap.get_modify_ne hn
  have hdata (a' : Addr) :
      ((gmn_ProcessNodes.finish.mark backed a f).get a').data = (f.get a').data := by
    by_cases he : a' = a
    case pos => rw [he, hself, Node.data_setFullBelowGen]
    case neg => rw [hne he]
  have hhash (a' : Addr) :
      ((gmn_ProcessNodes.finish.mark backed a f).get a').getHash = (f.get a').getHash := by
    by_cases he : a' = a
    case pos => rw [he, hself, Node.getHash_setFullBelowGen]
    case neg => rw [hne he]
  have hbranch (a' : Addr) (b : Fin 16) :
      ((gmn_ProcessNodes.finish.mark backed a f).get a').branches b = (f.get a').branches b := by
    by_cases he : a' = a
    case pos => rw [he, hself]; cases f.get a <;> rfl
    case neg => rw [hne he]
  have hgrows : f.Grows (gmn_ProcessNodes.finish.mark backed a f) :=
    ⟨le_rfl, fun a' _ => hdata a', fun a' _ => hhash a',
      fun a' _ b c h => by rw [Node.childAt, hbranch]; exact h, fun _ _ hn => hn, rfl⟩
  refine ⟨⟨?_, hh.grows.trans hgrows, hh.root, hh.available⟩, hgrows⟩
  constructor
  case data => intro a' ha'; rw [hdata, hhash]; exact hh.sound.data a' ha'
  case hooked =>
    intro a' ha' b br c hb hbc
    rw [hbranch] at hb
    rw [hhash]
    exact hh.sound.hooked a' ha' b br c hb hbc
  case available => exact hh.sound.available
  case fullBelow =>
    intro h hm
    simp only [gmn_ProcessNodes.finish.mark] at hm
    split at hm
    case isTrue =>
      obtain rfl | hm := mem_cons.mp hm
      case inl => exact hc.grows hgrows
      case inr => exact (hh.sound.fullBelow h hm).grows hgrows
    case isFalse => exact (hh.sound.fullBelow h hm).grows hgrows
  case marked =>
    intro a' ha' hm
    rw [hhash]
    by_cases he : a' = a
    case pos => exact he ▸ hc.grows hgrows
    case neg => rw [hne he] at hm; exact (hh.sound.marked a' ha' hm).grows hgrows
  case generation => exact hh.sound.generation

section

variable (hi : Set.InjOn Hashed.hash S)

include hi

theorem finish_inv (hg : Inv S r h₀ M f₀ g) (ht : g.thrown = none) (hn : g.pos.node = some a)
    (hl : 16 ≤ g.pos.currentChild) : Inv S r h₀ M f₀ (gmn_ProcessNodes.finish backed g a) := by
  have hp := hg.progress ht
  unfold gmn_ProcessNodes.finish
  split
  case isTrue hf =>
    have ⟨hh, hgr⟩ := mark_held backed hg.held (hp.complete_pos hi hn hl hf)
    have hp' := hp.grows hg.held.root_lt hgr hh.sound rfl
    exact ⟨hh, fun _ => hp'.leave hn hl fun hf => hp'.complete_pos hi hn hl hf⟩
  case isFalse hf => exact ⟨hg.held, fun _ => hp.leave hn hl fun h => absurd h hf⟩

theorem gmn_ProcessNodes_inv (hg : Inv S r h₀ M f₀ g) :
    Inv S r h₀ M f₀ (gmn_ProcessNodes env backed g) := by
  suffices hs : ∀ n, Inv S r h₀ M f₀ (gmn_ProcessNodes.loop env backed n g) from hs _
  intro n
  induction n generalizing g
  case zero => exact hg
  case succ n hi' =>
    unfold gmn_ProcessNodes.loop
    split
    case h_1 => exact hg
    case h_2 a hn =>
      split
      case isTrue => exact hg
      case isFalse ht =>
        have ht' := not_isSome_iff_eq_none.mp fun h => ht (.inl h)
        split
        case isTrue => exact hi' (round_inv hi hg ht' hn)
        case isFalse hl => exact finish_inv hi hg ht' hn (Nat.le_of_not_lt hl)

theorem read_inv (ht : g.thrown = none) (hg : Inv S r h₀ M f₀ { g with mn.deferred := d :: todo }) :
    Inv S r h₀ M f₀ { gmn_ProcessDeferredReads.read env g d with mn.deferred := todo } := by
  have hp := hg.progress ht
  have hpl := hp.deferred d mem_cons_self
  unfold gmn_ProcessDeferredReads.read
  simp only
  split
  case h_1 hb => exact ⟨hg.held, fun _ => hp.read fun _ V br' hb' => nomatch hb.symm.trans hb'⟩
  case h_2 br hb =>
    split
    case h_1 c f hf =>
      have ⟨hgive, _⟩ := Family.fetchChild_gives hg.held.sound hpl.lt hb hf
      have hp' := hp.grows hg.held.root_lt hgive.grows hgive.sound hgive.available
      refine ⟨hg.held.gives hgive, fun _ => ?_⟩
      refine (hp'.resume (hpl.grows hgive.grows)).read fun _ V br' hb' => ?_
      exact .inr ⟨d.parentID, mem_cons_self⟩
    case h_2 hf =>
      have ha := Family.fetchChild_eq_none.mp hf
      split
      case isTrue hm =>
        split
        case h_1 => exact ⟨hg.held, nofun⟩
        case h_2 childID hc =>
          have hm' : br.hash ∉ g.mn.missingHashes := fun h => hm.right (contains_iff_mem.mpr h)
          have hid : PositionOf S h₀ childID.path br.hash := by
            rw [getChildNodeID_path hc]
            exact hpl.position.child
              ((hg.held.sound.refers_iff hi hpl.lt).mpr ⟨br, hb, rfl⟩)
          refine ⟨hg.held, fun _ => ?_⟩
          refine (hp.report hm' hid ha).read fun _ V br' hb' => ?_
          cases hb.symm.trans hb'
          exact .inl (.missing (mem_append_right _ (mem_singleton_self _)))
      case isFalse hm =>
        refine ⟨hg.held, fun _ => hp.read fun hmax V br' hb' => ?_⟩
        cases hb.symm.trans hb'
        have hmem : g.mn.missingHashes.contains br.hash := by
          by_contra hc
          exact hm ⟨hmax, hc⟩
        exact .inl (.missing (contains_iff_mem.mp hmem))

theorem reads_inv (hg : Inv S r h₀ M f₀ { g with mn.deferred := reads }) :
    Inv S r h₀ M f₀
      { reads.foldl (fun g d => if g.thrown.isSome then g else gmn_ProcessDeferredReads.read env g d) g
        with mn.deferred := [] } := by
  induction reads generalizing g
  case nil => exact hg
  case cons d reads hi' =>
    rw [foldl_cons]
    apply hi'
    split
    case isTrue ht => exact ⟨hg.held, fun hn => absurd hn (isSome_iff_ne_none.mp ht)⟩
    case isFalse ht => exact read_inv hi (not_isSome_iff_eq_none.mp ht) hg

theorem gmn_ProcessDeferredReads_inv (hg : Inv S r h₀ M f₀ g) :
    Inv S r h₀ M f₀ (gmn_ProcessDeferredReads env g) :=
  reads_inv hi ⟨hg.held, fun ht => (hg.progress ht).perm (env.finished_eq _ _)⟩

end

theorem read_same (env : Env) (g : Search) (d : Read) :
    ((gmn_ProcessDeferredReads.read env g d).pos = g.pos) ∧
    ((gmn_ProcessDeferredReads.read env g d).mn.stack = g.mn.stack) ∧
    ((gmn_ProcessDeferredReads.read env g d).mn.max ≤ g.mn.max) := by
  unfold gmn_ProcessDeferredReads.read
  simp only
  split
  case h_1 => exact ⟨rfl, rfl, le_rfl⟩
  split
  case h_1 => exact ⟨rfl, rfl, le_rfl⟩
  split
  case isFalse => exact ⟨rfl, rfl, le_rfl⟩
  split
  case h_1 => exact ⟨rfl, rfl, le_rfl⟩
  case h_2 => exact ⟨rfl, rfl, Int.sub_le_self _ (by decide)⟩

theorem gmn_ProcessDeferredReads_same (env : Env) (g : Search) :
    ((gmn_ProcessDeferredReads env g).pos = g.pos) ∧
    ((gmn_ProcessDeferredReads env g).mn.stack = g.mn.stack) ∧
    ((gmn_ProcessDeferredReads env g).mn.max ≤ g.mn.max) := by
  unfold gmn_ProcessDeferredReads
  generalize env.finished g.clock g.mn.deferred = reads
  induction reads generalizing g
  case nil => exact ⟨rfl, rfl, le_rfl⟩
  case cons d reads hi =>
    rw [foldl_cons]
    split
    case isTrue => exact hi g
    have ⟨hp, hs, hm⟩ := read_same env g d
    have ⟨hp', hs', hm'⟩ := hi (gmn_ProcessDeferredReads.read env g d)
    exact ⟨hp'.trans hp, hs'.trans hs, hm'.trans hm⟩

-- A search without a node to process has nothing on the stack.
def Rested (g : Search) : Prop :=
  g.pos.node = none → g.mn.stack = []

theorem resumeParent_inv (hg : Inv S r h₀ M f₀ g) : Inv S r h₀ M f₀ g.resumeParent := by
  unfold resumeParent
  split
  case h_1 e stack hn hs => exact ⟨hg.held, fun ht => (hg.progress ht).back hn hs⟩
  case h_2 => exact hg

theorem resumeParent_rested (hg : Inv S r h₀ M f₀ g) (ht : g.thrown = none) :
    g.resumeParent.Rested := by
  unfold resumeParent
  split
  case h_1 e stack hn hs =>
    intro hnone
    have hat := (hg.progress ht).atPos
    unfold AtPos at hat
    rw [hn] at hat
    have ⟨_, _, hc⟩ := hat
    rw [hs] at hc
    have ⟨a, _, _, he, _⟩ := hc
    cases he.symm.trans hnone
  case h_2 hne =>
    intro hnone
    cases hs : g.mn.stack
    case nil => rfl
    case cons e stack => exact absurd hs (hne e stack hnone)

theorem traverse_inv (hi : Set.InjOn Hashed.hash S) (hg : Inv S r h₀ M f₀ g)
    (hr : g.Rested) (h : traverse env backed n g = some g') :
    Inv S r h₀ M f₀ g' ∧ (g'.thrown = none → 0 < g'.mn.max → g'.Rested) := by
  induction n generalizing g
  case zero => cases h
  case succ n hi' =>
    unfold traverse at h
    split at h
    case isTrue => cases h; exact ⟨hg, fun _ _ => hr⟩
    have hp : Inv S r h₀ M f₀ (gmn_ProcessNodes env backed g) := gmn_ProcessNodes_inv hi hg
    simp only at h
    split at h
    case isTrue hend =>
      cases h
      refine ⟨hp, fun ht hm => ?_⟩
      rw [ht] at hend
      exact absurd hend (by simp; exact hm)
    case isFalse hend =>
      have ht := not_isSome_iff_eq_none.mp fun h => hend (.inl h)
      exact hi' (resumeParent_inv hp) (resumeParent_rested hp ht) h

-- The nodes to resume, as far as they are not full below by now.
def unfinished (env : Env) (g : Search) : List (Addr × SHAMapNodeID) :=
  (env.pointers g.clock g.mn.resumes).filter fun x =>
    !(g.family.get x.1).isFullBelow g.family.generation

omit [Digest] in

theorem recheck_eq (hs : g.mn.stack = []) : recheck env g =
    { g with
      clock := g.clock + 1
      mn.resumes := []
      mn.stack := ((unfinished env g).map (Progress.fresh (env.rand g.clock))).reverse } := by
  unfold recheck
  rw [hs]
  rfl

theorem recheck_inv (hi : Set.InjOn Hashed.hash S) (hg : Inv S r h₀ M f₀ g)
    (hn : g.pos.node = none) (hs : g.mn.stack = []) : Inv S r h₀ M f₀ (recheck env g) := by
  rw [recheck_eq hs]
  refine ⟨hg.held, fun ht => (hg.progress ht).recheck hi hn hs (fun x hx => ?_) fun x hx => ?_⟩
  · exact (env.pointers_eq _ _).mem_iff.mp (mem_of_mem_filter hx)
  · by_cases hf : (g.family.get x.1).isFullBelow g.family.generation
    case pos => exact .inr hf
    case neg =>
      refine .inl (mem_filter.mpr ⟨(env.pointers_eq _ _).mem_iff.mpr hx, ?_⟩)
      simpa using hf

omit [Digest] in

theorem recheck_fresh (env : Env) (hs : g.mn.stack = []) (he : e ∈ (recheck env g).mn.stack) :
    ∃ a, (e.node = some a) ∧ (e.currentChild = 0) ∧ (e.fullBelow = true) := by
  rw [recheck_eq hs] at he
  have ⟨x, _, hx⟩ := mem_map.mp (mem_reverse.mp he)
  subst hx
  exact ⟨x.1, rfl, rfl, rfl⟩

theorem restart_inv (hi : Set.InjOn Hashed.hash S) (hg : Inv S r h₀ M f₀ g) (hr : g.Rested) :
    Inv S r h₀ M f₀ (restart env g) := by
  unfold restart
  split
  case h_1 => exact hg
  case h_2 hn =>
    have hg' : Inv S r h₀ M f₀ (recheck env g) := recheck_inv hi hg hn (hr hn)
    simp only
    split
    case h_1 => exact hg'
    case h_2 e stack hs =>
      refine ⟨hg'.held, fun ht => ?_⟩
      have hpos : (recheck env g).pos.node = none := by rw [recheck_eq (hr hn)]; exact hn
      have hb := (hg'.progress ht).back hpos hs
      have ⟨_, _, hz, hf⟩ := recheck_fresh env (hr hn) (hs ▸ mem_cons_self)
      have he : (decide (e.currentChild = 0) || e.fullBelow && (recheck env g).pos.fullBelow) =
          e.fullBelow := by simp [hz, hf]
      rw [he] at hb
      exact hb

-- If there is still no node to process, nothing is left at all.
omit [Digest] in

theorem restart_none (hr : g.Rested) (hn : (restart env g).pos.node = none) :
    ((restart env g).mn.stack = []) ∧ ((restart env g).mn.resumes = []) ∧
      ((restart env g).mn.deferred = g.mn.deferred) := by
  unfold restart at hn ⊢
  split at hn
  case h_1 he => cases he.symm.trans hn
  case h_2 he =>
    simp only at hn ⊢
    split at hn
    case h_1 hs =>
      simp only [hs]
      rw [recheck_eq (hr he)]
      exact ⟨trivial, rfl, rfl⟩
    case h_2 e stack hs =>
      have ⟨a, ha, _⟩ := recheck_fresh env (hr he) (hs ▸ mem_cons_self)
      cases ha.symm.trans hn

omit [Digest] in

theorem restart_rested (hr : g.Rested) : (restart env g).Rested :=
  fun hn => (restart_none hr hn).left

omit [Digest] in

theorem restart_max : (restart env g).mn.max = g.mn.max := by
  unfold restart recheck
  split
  case h_1 => rfl
  case h_2 =>
    simp only
    split <;> split <;> rfl

theorem loop_inv (hi : Set.InjOn Hashed.hash S) (hM : 0 < M) (hg : Inv S r h₀ M f₀ g)
    (hr : g.Rested) (h : loop env backed n g = some g') :
    Inv S r h₀ M f₀ g' ∧
      (g'.thrown = none → g'.mn.missingNodes = [] → g'.family.Complete S h₀) := by
  induction n generalizing g
  case zero => cases h
  case succ n hi' =>
    have ⟨g₁, h₁, h⟩ := bind_eq_some_iff.mp h
    have ⟨hg₁, hr₁⟩ := traverse_inv hi hg hr h₁
    split at h
    case isTrue ht => cases h; exact ⟨hg₁, fun hn => absurd hn (isSome_iff_ne_none.mp ht)⟩
    case isFalse ht =>
      have ht₁ := not_isSome_iff_eq_none.mp ht
      -- The search after the deferred reads.
      obtain ⟨g₂, he₂, hg₂, hd₂, hr₂⟩ : ∃ g₂,
          ((if g₁.mn.deferred.isEmpty then g₁ else gmn_ProcessDeferredReads env g₁) = g₂) ∧
          Inv S r h₀ M f₀ g₂ ∧ (g₂.mn.deferred = []) ∧ (0 < g₂.mn.max → g₂.Rested) := by
        by_cases hd : g₁.mn.deferred.isEmpty
        case pos => exact ⟨g₁, if_pos hd, hg₁, isEmpty_iff.mp hd, fun hm => hr₁ ht₁ hm⟩
        have ⟨hp, hs, hm⟩ := gmn_ProcessDeferredReads_same env g₁
        refine ⟨_, if_neg hd, gmn_ProcessDeferredReads_inv hi hg₁, rfl, fun hmax hn => ?_⟩
        rw [hs]
        exact hr₁ ht₁ (hmax.trans_le hm) (hp ▸ hn)
      simp only [he₂] at h
      split at h
      case isTrue hend =>
        cases h
        refine ⟨hg₂, fun ht hmiss => ?_⟩
        rw [ht] at hend
        have hm := hend.resolve_left (by decide)
        have hc := (hg₂.progress ht).count
        rw [hmiss, length_nil] at hc
        omega
      case isFalse hend =>
        have hmax := Int.not_le.mp fun h => hend (.inr h)
        have hg₃ : Inv S r h₀ M f₀ (restart env g₂) := restart_inv hi hg₂ (hr₂ hmax)
        split at h
        case isTrue hn =>
          cases h
          refine ⟨hg₃, fun ht hmiss => ?_⟩
          have hn' := isNone_iff_eq_none.mp hn
          have ⟨hs, hrs, hd⟩ := restart_none (hr₂ hmax) hn'
          have hmax' : 0 < (restart env g₂).mn.max := by rw [restart_max]; exact hmax
          exact (hg₃.progress ht).complete hi hmax' hn' hs (hd.trans hd₂) hrs hmiss
        case isFalse => exact hi' hg₃ (restart_rested (hr₂ hmax)) h

end Search
end Sync
end SHAMap
