import Bixd.SHAMap.Sync.Theorems.Family

open SHAMap.Sync.StackEntry List List.Subset

namespace SHAMap
namespace Sync

open SHAMap.Tree (Hashed)

namespace StackEntry

variable {e : StackEntry}

-- The branch that is looked at next.
def next (e : StackEntry) : Fin 16 :=
  Fin.ofNat 16 (e.firstChild + e.currentChild)

def Seen (e : StackEntry) (b : Fin 16) : Prop :=
  ∃ k < e.currentChild, b = Fin.ofNat 16 (e.firstChild + k)

def advance (e : StackEntry) (full : Bool) : StackEntry :=
  { e with currentChild := e.currentChild + 1, fullBelow := full }

theorem seen_advance : (e.advance full).Seen b ↔ e.Seen b ∨ b = e.next := by
  constructor
  case mp =>
    rintro ⟨k, hk, rfl⟩
    obtain hk | rfl := Nat.lt_succ_iff_lt_or_eq.mp hk
    case inl => exact .inl ⟨k, hk, rfl⟩
    case inr => exact .inr rfl
  case mpr =>
    rintro (⟨k, hk, rfl⟩ | rfl)
    case inl => exact ⟨k, Nat.lt_succ_of_lt hk, rfl⟩
    case inr => exact ⟨e.currentChild, Nat.lt_succ_self _, rfl⟩

-- After 16 rounds all branches have been looked at, whichever was the first.
theorem seen_of_le (h : 16 ≤ e.currentChild) : e.Seen b := by
  refine ⟨(b.val + 16 - e.firstChild % 16) % 16, by omega, ?_⟩
  apply Fin.ext
  rw [Fin.val_ofNat]
  omega

theorem not_seen_of_zero (h : e.currentChild = 0) : ¬ e.Seen b := by
  rintro ⟨k, hk, _⟩
  omega

end StackEntry

theorem getChildNodeID_path {id : SHAMapNodeID} (h : id.getChildNodeID b = .ok childID) :
    childID.path = id.path ++ [b] := by
  unfold SHAMapNodeID.getChildNodeID at h
  split at h
  case isTrue => cases h; rfl
  case isFalse => cases h

variable [Digest] {f : Family}
variable {mn mn' : MissingNodes} {pos : StackEntry}

section Invariant

-- The branches that have been looked at are complete if the entry says so.
def FullSeen (S : Set Hashed) (f : Family) (a : Addr) (full : Bool) (seen : Fin 16 → Prop) : Prop :=
  full → ∀ b br, seen b → (f.get a).branches b = some br → f.Complete S br.hash

-- Each entry has been left for the node above it on the stack, whose hash is `h`, unless it has
-- not been looked at yet.
def Chain (S : Set Hashed) (f : Family) : UInt256 → List StackEntry → Prop
  | _, [] => True
  | h, e :: stack => ∃ (a : Addr) (full : Bool) (e' : StackEntry), (e.node = some a) ∧ (a < f.nodes.next) ∧
    (e.currentChild = 0 ∨ (e = e'.advance full ∧ FullSeen S f a full e'.Seen ∧
      ∃ br, ((f.get a).branches e'.next = some br) ∧ (br.hash = h))) ∧
    Chain S f (f.get a).getHash stack

-- The node `a` is at the position `id` below the root.
structure Placed (S : Set Hashed) (h₀ : UInt256) (f : Family) (a : Addr) (id : SHAMapNodeID) :
    Prop where
  lt       : a < f.nodes.next
  position : PositionOf S h₀ id.path (f.get a).getHash

-- The branch `b` of `a` will be looked at again.
inductive Left (mn : MissingNodes) (pos : StackEntry) (a : Addr) (b : Fin 16) : Prop
  | read {id} : ⟨a, id, b⟩ ∈ mn.deferred → Left mn pos a b
  | resume {id} : (a, id) ∈ mn.resumes → Left mn pos a b
  | frame {x} : x ∈ pos :: mn.stack → x.node = some a → ¬ x.Seen b → Left mn pos a b

-- Nothing is left to be done about a branch of the hash `h`.
inductive Settled (S : Set Hashed) (f : Family) (mn : MissingNodes) (V : Set Addr) (h : UInt256) :
    Prop
  | missing : h ∈ mn.missingHashes → Settled S f mn V h
  | complete : f.Complete S h → Settled S f mn V h
  | visited {x} : x ∈ V → (f.get x).getHash = h → Settled S f mn V h

-- The nodes at `V` have been visited.
structure Visited (S : Set Hashed) (r : Addr) (f : Family) (mn : MissingNodes) (pos : StackEntry)
    (V : Set Addr) : Prop where
  root : r ∈ V
  lt   : ∀ a ∈ V, a < f.nodes.next
  left : ∀ a ∈ V, ∀ b br, (f.get a).branches b = some br →
    Settled S f mn V br.hash ∨ Left mn pos a b

-- What the node that is being processed says about the ones on the stack.
def AtPos (S : Set Hashed) (h₀ : UInt256) (f : Family) (mn : MissingNodes) (pos : StackEntry) :
    Prop :=
  match pos.node with
  | some a => Placed S h₀ f a pos.nodeID ∧ FullSeen S f a pos.fullBelow pos.Seen ∧
    Chain S f (f.get a).getHash mn.stack
  | none   => ∃ h, (pos.fullBelow → f.Complete S h) ∧ Chain S f h mn.stack

-- The search has been started for at most `M` nodes at the root `r`, whose hash is `h₀`.
structure Progress (S : Set Hashed) (r : Addr) (h₀ : UInt256) (M : Int) (f : Family)
    (mn : MissingNodes) (pos : StackEntry) : Prop where
  sound    : f.Sound S
  root     : (f.get r).getHash = h₀
  atPos    : AtPos S h₀ f mn pos
  stack    : ∀ e ∈ mn.stack, ∀ a, e.node = some a → Placed S h₀ f a e.nodeID
  deferred : ∀ d ∈ mn.deferred, Placed S h₀ f d.parent d.parentID
  resumes  : ∀ x ∈ mn.resumes, Placed S h₀ f x.1 x.2
  hashes   : mn.missingHashes = mn.missingNodes.map Prod.snd
  nodup    : mn.missingHashes.Nodup
  missing  : ∀ x ∈ mn.missingNodes, PositionOf S h₀ x.1.path x.2 ∧ (f.available x.2 = none)
  count    : mn.max + mn.missingNodes.length = M
  visited  : 0 < mn.max → ∃ V, Visited S r f mn pos V

end Invariant

section Grow

open Family (Grows)

theorem FullSeen.grows (hs : FullSeen S f a full seen)
    (hg : Grows f f') (ha : a < f.nodes.next) : FullSeen S f' a full seen := by
  intro hf b br hb hbr
  have hbh := hg.branch (b := b) ha
  rw [hbr] at hbh
  have ⟨br₀, hb₀, hh⟩ := Option.map_eq_some_iff.mp hbh.symm
  exact hh ▸ (hs hf b br₀ hb hb₀).grows hg

theorem Chain.grows (hc : Chain S f h stack) (hg : Grows f f') : Chain S f' h stack := by
  induction stack generalizing h
  case nil => trivial
  case cons e stack hi =>
    have ⟨a, full, e', hn, ha, hl, hc⟩ := hc
    refine ⟨a, full, e', hn, ha.trans_le hg.next_le, hl.imp_right ?_, ?_⟩
    · rintro ⟨he, hs, br, hb, hh⟩
      have hbh := hg.branch (b := e'.next) ha
      rw [hb] at hbh
      have ⟨br', hb', hh'⟩ := Option.map_eq_some_iff.mp hbh
      exact ⟨he, hs.grows hg ha, br', hb', hh'.trans hh⟩
    · rw [hg.getHash a ha]
      exact hi hc

theorem Placed.grows {id : SHAMapNodeID} (hp : Placed S h₀ f a id) (hg : Grows f f') :
    Placed S h₀ f' a id where
  lt := hp.lt.trans_le hg.next_le
  position := by rw [hg.getHash a hp.lt]; exact hp.position

theorem Settled.grows (hs : Settled S f mn V h) (hv : ∀ a ∈ V, a < f.nodes.next) (hg : Grows f f') :
    Settled S f' mn V h := by
  cases hs
  case missing hm => exact .missing hm
  case complete hc => exact .complete (hc.grows hg)
  case visited c hc hh => exact .visited hc ((hg.getHash c (hv c hc)).trans hh)

theorem Visited.grows (hv : Visited S r f mn pos V) (hg : Grows f f') : Visited S r f' mn pos V where
  root := hv.root
  lt a ha := (hv.lt a ha).trans_le hg.next_le
  left a ha b br hb := by
    have hbh := hg.branch (b := b) (hv.lt a ha)
    rw [hb] at hbh
    have ⟨br₀, hb₀, hh⟩ := Option.map_eq_some_iff.mp hbh.symm
    rw [← hh]
    exact (hv.left a ha b br₀ hb₀).imp_left (·.grows hv.lt hg)

theorem AtPos.grows (hp : AtPos S h₀ f mn pos) (hg : Grows f f') : AtPos S h₀ f' mn pos := by
  unfold AtPos at hp ⊢
  split at hp
  case h_1 a _ =>
    refine ⟨hp.left.grows hg, hp.right.left.grows hg hp.left.lt, ?_⟩
    rw [hg.getHash a hp.left.lt]
    exact hp.right.right.grows hg
  case h_2 =>
    have ⟨h, hc, hs⟩ := hp
    exact ⟨h, fun hf => (hc hf).grows hg, hs.grows hg⟩

theorem Progress.grows (hp : Progress S r h₀ M f mn pos) (hr : r < f.nodes.next) (hg : Grows f f')
    (hf : f'.Sound S) (ha : f'.available = f.available) : Progress S r h₀ M f' mn pos where
  sound := hf
  root := (hg.getHash r hr).trans hp.root
  atPos := hp.atPos.grows hg
  stack e he a h := (hp.stack e he a h).grows hg
  deferred d hd := (hp.deferred d hd).grows hg
  resumes x hx := (hp.resumes x hx).grows hg
  hashes := hp.hashes
  nodup := hp.nodup
  missing x hx := ha ▸ hp.missing x hx
  count := hp.count
  visited hm := (hp.visited hm).imp fun _ hv => hv.grows hg

end Grow

theorem AtPos.of_some (hn : pos.node = some a) (hp : AtPos S h₀ f mn pos) :
    Placed S h₀ f a pos.nodeID ∧ FullSeen S f a pos.fullBelow pos.Seen ∧
      Chain S f (f.get a).getHash mn.stack := by
  unfold AtPos at hp
  rwa [hn] at hp

theorem AtPos.intro (hn : pos.node = some a) (hp : Placed S h₀ f a pos.nodeID)
    (hs : FullSeen S f a pos.fullBelow pos.Seen) (hc : Chain S f (f.get a).getHash mn.stack) :
    AtPos S h₀ f mn pos := by
  unfold AtPos
  rw [hn]
  exact ⟨hp, hs, hc⟩

theorem Settled.mono (hs : Settled S f mn V h) (hv : V ⊆ V')
    (hm : mn.missingHashes ⊆ mn'.missingHashes) : Settled S f mn' V' h := by
  cases hs
  case missing hh => exact .missing (hm hh)
  case complete hc => exact .complete hc
  case visited hc hh => exact .visited (hv hc) hh

omit [Digest] in
theorem Left.mono (hl : Left mn pos a b) (hd : mn.deferred ⊆ mn'.deferred)
    (hr : mn.resumes ⊆ mn'.resumes) (hs : pos :: mn.stack ⊆ pos' :: mn'.stack) :
    Left mn' pos' a b := by
  cases hl
  case read h => exact .read (hd h)
  case resume h => exact .resume (hr h)
  case frame hx hxn hxs => exact .frame (hs hx) hxn hxs

-- It is enough to say what becomes of the branches that were left.
theorem Visited.mono (hv : Visited S r f mn pos V) (hm : mn.missingHashes ⊆ mn'.missingHashes)
    (hl : ∀ {a b br}, a ∈ V → (f.get a).branches b = some br → Left mn pos a b →
      Settled S f mn' V br.hash ∨ Left mn' pos' a b) : Visited S r f mn' pos' V where
  root := hv.root
  lt := hv.lt
  left a ha b br hb := (hv.left a ha b br hb).elim (fun h => .inl (h.mono subset_rfl hm)) (hl ha hb)

namespace Progress

section

variable (hp : Progress S r h₀ M f mn pos)

include hp

theorem advance (hn : pos.node = some a) {full : Bool}
    (hf : full → pos.fullBelow ∧ ∀ br, (f.get a).branches pos.next = some br → f.Complete S br.hash)
    (hl : ∀ V br, (f.get a).branches pos.next = some br →
      Settled S f mn V br.hash ∨ ∃ id, ⟨a, id, pos.next⟩ ∈ mn.deferred) :
    Progress S r h₀ M f mn (pos.advance full) := by
  have ⟨hpl, hs, hc⟩ := hp.atPos.of_some hn
  refine { hp with atPos := .intro hn hpl ?_ hc, visited := ?_ }
  · intro hfull b br hb hbr
    obtain hb | rfl := seen_advance.mp hb
    case inl => exact hs (hf hfull).left b br hb hbr
    case inr => exact (hf hfull).right br hbr
  · intro hm
    have ⟨V, hv⟩ := hp.visited hm
    refine ⟨V, hv.mono (refl _) fun {_ b br} _ hbr hleft => ?_⟩
    cases hleft
    case read hd => exact .inr (.read hd)
    case resume hr => exact .inr (.resume hr)
    case frame x hx hxn hxs =>
      obtain rfl | hx := mem_cons.mp hx
      case inr => exact .inr (.frame (mem_cons_of_mem _ hx) hxn hxs)
      cases hn.symm.trans hxn
      by_cases hb : b = x.next
      case neg =>
        refine .inr (.frame mem_cons_self hn ?_)
        exact fun hc => (seen_advance.mp hc).elim hxs hb
      case pos =>
        subst hb
        exact (hl V br hbr).imp_right fun ⟨id, hd⟩ => .read hd

theorem defer {d : Read} (hd : Placed S h₀ f d.parent d.parentID) :
    Progress S r h₀ M f { mn with deferred := mn.deferred ++ [d] } pos := by
  refine { hp with deferred := ?_, visited := ?_ }
  · intro d' hd'
    obtain hd' | hd' := mem_append.mp hd'
    case inl => exact hp.deferred d' hd'
    case inr => exact mem_singleton.mp hd' ▸ hd
  · intro hm
    have ⟨V, hv⟩ := hp.visited hm
    exact ⟨V, hv.mono (refl _) fun _ _ hl => .inr (hl.mono (subset_append_left _ _) (refl _) (refl _))⟩

theorem report {id : SHAMapNodeID} (hh : h ∉ mn.missingHashes) (hpos : PositionOf S h₀ id.path h)
    (ha : f.available h = none) : Progress S r h₀ M f (mn.report id h) pos := by
  refine { hp with hashes := ?_, nodup := ?_, missing := ?_, count := ?_, visited := ?_ }
  · simp [MissingNodes.report, hp.hashes]
  · exact hp.nodup.append (nodup_singleton h) (disjoint_singleton.mpr hh)
  · intro x hx
    obtain hx | hx := mem_append.mp hx
    case inl => exact hp.missing x hx
    case inr => exact mem_singleton.mp hx ▸ ⟨hpos, ha⟩
  · have hc := hp.count
    simp only [MissingNodes.report, length_append, length_singleton]
    omega
  · intro hm
    have hm' : mn.max - 1 > 0 := hm
    have ⟨V, hv⟩ := hp.visited (by omega)
    exact ⟨V, hv.mono (subset_append_left _ _) fun _ _ hl => .inr (hl.mono (refl _) (refl _) (refl _))⟩

theorem enter (hn : pos.node = some a) (hb : (f.get a).branches pos.next = some br)
    (hc : c < f.nodes.next) (hh : (f.get c).getHash = br.hash) {id : SHAMapNodeID}
    (hid : PositionOf S h₀ id.path br.hash) :
    Progress S r h₀ M f { mn with stack := pos.advance pos.fullBelow :: mn.stack }
      ⟨some c, id, k, 0, true⟩ := by
  have ⟨hpl, hs, hch⟩ := hp.atPos.of_some hn
  refine { hp with atPos := ?_, stack := ?_, visited := ?_ }
  · refine .intro rfl ⟨hc, by rw [hh]; exact hid⟩ ?_ ?_
    · exact fun _ b br hb => absurd hb (not_seen_of_zero rfl)
    · exact ⟨a, pos.fullBelow, pos, hn, hpl.lt, .inr ⟨rfl, hs, br, hb, hh.symm⟩, hch⟩
  · intro x hx a' ha'
    obtain rfl | hx := mem_cons.mp hx
    case inl => cases hn.symm.trans ha'; exact hpl
    case inr => exact hp.stack x hx a' ha'
  · intro hm
    have ⟨V, hv⟩ := hp.visited hm
    refine ⟨insert c V, .inr hv.root, ?_, ?_⟩
    · rintro a' (rfl | ha')
      case inl => exact hc
      case inr => exact hv.lt a' ha'
    · rintro a' (rfl | ha') b br' hbr'
      case inl => exact .inr (.frame mem_cons_self rfl (not_seen_of_zero rfl))
      obtain hset | hleft := hv.left a' ha' b br' hbr'
      case inl => exact .inl (hset.mono (Set.subset_insert _ _) (refl _))
      cases hleft
      case read hd => exact .inr (.read hd)
      case resume hr => exact .inr (.resume hr)
      case frame x hx hxn hxs =>
        obtain rfl | hx := mem_cons.mp hx
        case inr => exact .inr (.frame (mem_cons_of_mem _ (mem_cons_of_mem _ hx)) hxn hxs)
        cases hn.symm.trans hxn
        by_cases hbx : b = x.next
        case neg =>
          refine .inr (.frame (mem_cons_of_mem _ mem_cons_self) hn ?_)
          exact fun hc => (seen_advance.mp hc).elim hxs hbx
        subst hbx
        cases hb.symm.trans hbr'
        exact .inl (.visited (Set.mem_insert _ _) hh)

-- All branches of a node that is full below are complete, and so is the node.
theorem complete_pos (hi : Set.InjOn Hashed.hash S) (hn : pos.node = some a)
    (hl : 16 ≤ pos.currentChild) (hf : pos.fullBelow) : f.Complete S (f.get a).getHash := by
  have ⟨hpl, hs, _⟩ := hp.atPos.of_some hn
  exact hp.sound.complete_inner hi hpl.lt fun b br hb => hs hf b br (seen_of_le hl) hb

theorem leave (hn : pos.node = some a) (hl : 16 ≤ pos.currentChild)
    (hc : pos.fullBelow → f.Complete S (f.get a).getHash) :
    Progress S r h₀ M f mn { pos with node := none } := by
  have ⟨_, _, hch⟩ := hp.atPos.of_some hn
  refine { hp with atPos := ⟨(f.get a).getHash, hc, hch⟩, visited := ?_ }
  intro hm
  have ⟨V, hv⟩ := hp.visited hm
  refine ⟨V, hv.mono (refl _) fun _ _ hleft => .inr ?_⟩
  cases hleft
  case read hd => exact .read hd
  case resume hr => exact .resume hr
  case frame x hx hxn hxs =>
    obtain rfl | hx := mem_cons.mp hx
    case inl => exact absurd (seen_of_le hl) hxs
    case inr => exact .frame (mem_cons_of_mem _ hx) hxn hxs

theorem back {stack : List StackEntry} (hn : pos.node = none) (hs : mn.stack = e :: stack) :
    Progress S r h₀ M f { mn with stack := stack }
      { e with fullBelow := e.currentChild = 0 || e.fullBelow && pos.fullBelow } := by
  have hat := hp.atPos
  unfold AtPos at hat
  rw [hn] at hat
  have ⟨h, hcomp, hch⟩ := hat
  rw [hs] at hch
  have ⟨a, full, e', hen, ha, hl, hch⟩ := hch
  have hpl := hp.stack e (hs ▸ mem_cons_self) a hen
  refine { hp with atPos := .intro hen hpl ?_ hch, stack := ?_, visited := ?_ }
  · intro hfull b br hb hbr
    obtain hz | ⟨rfl, hseen, br', hb', hh⟩ := hl
    case inl => exact absurd hb (not_seen_of_zero hz)
    have hfull' : full ∧ pos.fullBelow := by
      simpa [StackEntry.advance] using hfull
    obtain hb | rfl := seen_advance.mp hb
    case inl => exact hseen hfull'.left b br hb hbr
    case inr =>
      cases hb'.symm.trans hbr
      exact hh ▸ hcomp hfull'.right
  · exact fun x hx => hp.stack x (hs ▸ mem_cons_of_mem _ hx)
  · intro hm
    have ⟨V, hv⟩ := hp.visited hm
    refine ⟨V, hv.mono (refl _) fun _ _ hleft => .inr ?_⟩
    cases hleft
    case read hd => exact .read hd
    case resume hr => exact .resume hr
    case frame x hx hxn hxs =>
      rw [hs, mem_cons, mem_cons] at hx
      obtain rfl | rfl | hx := hx
      case inl => cases hn.symm.trans hxn
      case inr.inl => exact .frame mem_cons_self hxn hxs
      case inr.inr => exact .frame (mem_cons_of_mem _ hx) hxn hxs

end

theorem read (hp : Progress S r h₀ M f { mn with deferred := d :: todo } pos)
    (hd : 0 < mn.max → ∀ V br, (f.get d.parent).branches d.branch = some br →
      Settled S f mn V br.hash ∨ ∃ id, (d.parent, id) ∈ mn.resumes) :
    Progress S r h₀ M f { mn with deferred := todo } pos := by
  refine { hp with deferred := fun x hx => hp.deferred x (mem_cons_of_mem _ hx), visited := ?_ }
  intro hm
  have ⟨V, hv⟩ := hp.visited hm
  refine ⟨V, hv.mono (refl _) fun {_ _ br} _ hb hleft => ?_⟩
  cases hleft
  case resume hr => exact .inr (.resume hr)
  case frame hx hxn hxs => exact .inr (.frame hx hxn hxs)
  case read hd' =>
    obtain rfl | hd' := mem_cons.mp hd'
    case inr => exact .inr (.read hd')
    case inl => exact (hd hm V br hb).imp (·.mono subset_rfl (refl _)) fun ⟨_, h⟩ => .resume h

theorem resume (hp : Progress S r h₀ M f mn pos) {id : SHAMapNodeID} (ha : Placed S h₀ f a id) :
    Progress S r h₀ M f (mn.resume a id) pos := by
  refine { hp with resumes := ?_, visited := ?_ }
  · intro x hx
    obtain rfl | hx := mem_cons.mp hx
    case inl => exact ha
    case inr => exact hp.resumes x (mem_of_mem_filter hx)
  · intro hm
    have ⟨V, hv⟩ := hp.visited hm
    refine ⟨V, hv.mono (refl _) fun {a' _ _} _ _ hleft => .inr ?_⟩
    cases hleft
    case read hd => exact .read hd
    case frame hx hxn hxs => exact .frame hx hxn hxs
    case resume id' hr =>
      by_cases he : a' = a
      case pos => exact he ▸ .resume mem_cons_self
      case neg => exact .resume (mem_cons_of_mem _ (mem_filter.mpr ⟨hr, by simpa using he⟩))

theorem perm {reads : List Read} (hp : Progress S r h₀ M f mn pos) (hd : reads.Perm mn.deferred) :
    Progress S r h₀ M f { mn with deferred := reads } pos := by
  refine { hp with deferred := fun d h => hp.deferred d (hd.mem_iff.mp h), visited := ?_ }
  intro hm
  have ⟨V, hv⟩ := hp.visited hm
  exact ⟨V, hv.mono (refl _) fun _ _ hl => .inr (hl.mono hd.symm.subset (refl _) (refl _))⟩

-- An entry for a node that is looked at for the first time.
def fresh (k : Addr → Nat) (x : Addr × SHAMapNodeID) : StackEntry :=
  ⟨some x.1, x.2, k x.1, 0, true⟩

theorem chain_fresh {stack : List StackEntry} (hf : ∀ e ∈ stack, e.currentChild = 0)
    (hs : ∀ e ∈ stack, ∃ a, (e.node = some a) ∧ (a < f.nodes.next)) : Chain S f h stack := by
  induction stack generalizing h
  case nil => trivial
  case cons e stack hi =>
    have ⟨a, hn, ha⟩ := hs e mem_cons_self
    refine ⟨a, true, e, hn, ha, .inl (hf e mem_cons_self), ?_⟩
    exact hi (fun x hx => hf x (mem_cons_of_mem _ hx)) (fun x hx => hs x (mem_cons_of_mem _ hx))

theorem recheck {entries : List (Addr × SHAMapNodeID)} (hp : Progress S r h₀ M f mn pos)
    (hi : Set.InjOn Hashed.hash S) (hn : pos.node = none) (hs : mn.stack = [])
    (he : ∀ x ∈ entries, x ∈ mn.resumes)
    (hfull : ∀ x ∈ mn.resumes, x ∈ entries ∨ (f.get x.1).isFullBelow f.generation) :
    Progress S r h₀ M f { mn with resumes := [], stack := (entries.map (fresh k)).reverse } pos := by
  have hmem {e : StackEntry} (hx : e ∈ (entries.map (fresh k)).reverse) :
      ∃ x ∈ entries, fresh k x = e := mem_map.mp (mem_reverse.mp hx)
  refine { hp with atPos := ?_, stack := ?_, resumes := fun x hx => absurd hx not_mem_nil,
                   visited := ?_ }
  · unfold AtPos
    rw [hn]
    have hat := hp.atPos
    unfold AtPos at hat
    rw [hn] at hat
    have ⟨h, hc, _⟩ := hat
    refine ⟨h, hc, chain_fresh ?_ ?_⟩
    · intro e hx
      have ⟨x, _, hxe⟩ := hmem hx
      rw [← hxe]
      rfl
    · intro e hx
      have ⟨x, hx, hxe⟩ := hmem hx
      exact ⟨x.1, by rw [← hxe]; rfl, (hp.resumes x (he x hx)).lt⟩
  · intro e hx a ha
    have ⟨x, hm, hxe⟩ := hmem hx
    subst hxe
    cases ha
    exact hp.resumes x (he x hm)
  · intro hm
    have ⟨V, hv⟩ := hp.visited hm
    refine ⟨V, hv.mono (refl _) fun {a' _ br} ha' hb hleft => ?_⟩
    cases hleft
    case read hd => exact .inr (.read hd)
    case frame hx hxn hxs =>
      rw [hs, mem_singleton] at hx
      rw [hx, hn] at hxn
      cases hxn
    case resume id hr =>
      obtain hx | hx := hfull _ hr
      case inl =>
        refine .inr (.frame (x := fresh k (a', id)) (mem_cons_of_mem _ ?_) rfl
          (not_seen_of_zero rfl))
        exact mem_reverse.mpr (mem_map.mpr ⟨_, hx, rfl⟩)
      case inr =>
        have hc := hp.sound.marked a' (hv.lt a' ha') hx
        exact .inl (.complete
          (hc.refers ((hp.sound.refers_iff hi (hv.lt a' ha')).mpr ⟨br, hb, rfl⟩)))

theorem complete (hp : Progress S r h₀ M f mn pos) (hi : Set.InjOn Hashed.hash S) (hm : 0 < mn.max)
    (hn : pos.node = none) (hs : mn.stack = []) (hd : mn.deferred = []) (hr : mn.resumes = [])
    (hmiss : mn.missingNodes = []) : f.Complete S h₀ := by
  have ⟨V, hv⟩ := hp.visited hm
  have hset : ∀ a ∈ V, ∀ b br, (f.get a).branches b = some br →
      f.Complete S br.hash ∨ ∃ c ∈ V, (f.get c).getHash = br.hash := by
    intro a ha b br hb
    obtain hset | hleft := hv.left a ha b br hb
    case inl =>
      cases hset
      case missing hh => rw [hp.hashes, hmiss] at hh; cases hh
      case complete hc => exact .inl hc
      case visited hc hh => exact .inr ⟨_, hc, hh⟩
    case inr =>
      cases hleft
      case read h => rw [hd] at h; cases h
      case resume h => rw [hr] at h; cases h
      case frame hx hxn _ =>
        rw [hs, mem_singleton] at hx
        rw [hx, hn] at hxn
        cases hxn
  -- Every position is that of a visited node or is below a complete one.
  have hall : ∀ p h, PositionOf S h₀ p h →
      f.Complete S h ∨ ∃ a ∈ V, (f.get a).getHash = h := by
    intro p h hpos
    induction hpos
    case root => exact .inr ⟨r, hv.root, hp.root⟩
    case child p b h₁ h₂ _ href hi' =>
      obtain hc | ⟨a, ha, rfl⟩ := hi'
      case inl => exact .inl (hc.refers href)
      case inr =>
        have ⟨br, hb, hh⟩ := (hp.sound.refers_iff hi (hv.lt a ha)).mp href
        exact hh ▸ hset a ha b br hb
  intro p h hpos
  obtain hc | ⟨a, ha, rfl⟩ := hall p h hpos
  case inl => exact hc [] h .root
  case inr => exact Family.available_of_lt (hv.lt a ha)

end Progress

end Sync
end SHAMap
