import Bixd.SHAMap.Sync.Theorems.Loop
import Bixd.SHAMap.Theorems.ProofPath

open SHAMap.Sync.Family List

namespace SHAMap
namespace Sync

open SHAMap.Tree (Hashed)
open Tree.Hashed (Content Canonical)

variable [Digest] {S : Set Hashed} {f : Family} {m : Map} {a : Addr} {h : UInt256} {n : Hashed}
variable {env : Env}

-- A call leaves the family `f'` behind, with more nodes in memory or available.
structure Family.Extends (S : Set Hashed) (f f' : Family) : Prop where
  grows : f.Grows f'
  sound : f'.Sound S

theorem Family.Gives.extends (hg : f.Gives S h a f') : f.Extends S f' :=
  ⟨hg.grows, hg.sound⟩

theorem Family.Extends.trans (he : f.Extends S f') (he' : f'.Extends S f'') : f.Extends S f'' :=
  ⟨he.grows.trans he'.grows, he'.sound⟩

theorem Family.store_extends (hf : f.Sound S) (hn : n ∈ S) (hh : n.hash = h) :
    f.Extends S { f with
      available := Function.update f.available h (some ((f.available h).getD n)) } := by
  have hg : f.Grows { f with
      available := Function.update f.available h (some ((f.available h).getD n)) } := by
    refine ⟨le_rfl, fun _ _ => rfl, fun _ _ => rfl, fun _ _ _ _ hc => hc, fun h' n' hn' => ?_, rfl⟩
    by_cases hh' : h' = h
    case pos => subst hh'; simp [hn']
    case neg => simpa [hh'] using hn'
  refine ⟨hg, { hf with available := ?_, fullBelow := ?_, marked := ?_ }⟩
  · intro h' n' hn'
    by_cases hh' : h' = h
    case neg => exact hf.available h' n' (by simpa [hh'] using hn')
    subst hh'
    cases ha : f.available h'
    case none => simp [ha] at hn'; exact hn' ▸ ⟨hn, hh⟩
    case some n₀ => simp [ha] at hn'; exact hn' ▸ hf.available h' n₀ ha
  · exact fun h' hm => (hf.fullBelow h' hm).grows hg
  · exact fun a ha hm => (hf.marked a ha hm).grows hg

theorem Map.adopt_spec (m : Map) (route : Route) (hf : f.Sound S) (hn : n ∈ S) (hh : n.hash = h) :
    f.Extends S (m.adopt f h n route).2 ∧
      ((m.adopt f h n route).1 < (m.adopt f h n route).2.nodes.next) ∧
      (((m.adopt f h n route).2.get (m.adopt f h n route).1).getHash = h) := by
  unfold adopt
  split
  case isTrue =>
    have hs := store_extends hf hn hh
    have hg := canonicalize_gives route hs.sound hn hh
    exact ⟨hs.trans hg.extends, hg.lt, hg.getHash⟩
  case isFalse =>
    have hg := add_gives hf hn
    exact ⟨hg.extends, hg.lt, hh ▸ hg.getHash⟩

theorem Map.addKnownNode.loop_spec (clock : Nat) (hf : f.Sound S) (ha : a < f.nodes.next)
    (hn : ∀ n, newNode = some n → n ∈ S) :
    f.Extends S (addKnownNode.loop env m node newNode path clock f a).2.2 ∧
      ((addKnownNode.loop env m node newNode path clock f a).2.1.root = m.root) ∧
      ((addKnownNode.loop env m node newNode path clock f a).2.1.state = .modifying →
        m.state = .modifying) := by
  have hrefl (f : Family) (hf : f.Sound S) : f.Extends S f := ⟨.refl, hf⟩
  induction path generalizing clock f a
  case nil => exact ⟨hrefl f hf, rfl, id⟩
  case cons b path hi =>
    unfold addKnownNode.loop
    split
    case isTrue => exact ⟨hrefl f hf, rfl, id⟩
    split
    case h_1 => exact ⟨hrefl f hf, rfl, id⟩
    case h_2 br hb =>
      split
      case isTrue => exact ⟨hrefl f hf, rfl, id⟩
      split
      case h_1 c f' hd =>
        have ⟨hg, _⟩ := descend_gives hf ha hb hd
        have ⟨he, hr, hs⟩ := hi (clock + 1) hg.sound hg.lt
        exact ⟨hg.extends.trans he, hr, hs⟩
      case h_2 =>
        unfold addKnownNode.loop.attach
        split
        case h_1 => exact ⟨hrefl f hf, rfl, id⟩
        case h_2 n =>
          split
          case isTrue => exact ⟨hrefl f hf, rfl, id⟩
          case isFalse hh =>
            split
            case isTrue => exact ⟨hrefl f hf, rfl, nofun⟩
            split
            case isTrue => exact ⟨hrefl f hf, rfl, id⟩
            have ⟨he, hl, hash⟩ := Map.adopt_spec m (env.route (clock + 1)) hf
              (hn n rfl) (not_not.mp hh)
            have hbh : (((m.adopt f br.hash n (env.route (clock + 1))).2.get a).branches b).map
                Branch.hash = some br.hash := by
              rw [he.grows.branch ha, hb]; rfl
            have ⟨br', hb', hh'⟩ := Option.map_eq_some_iff.mp hbh
            have ⟨hg, _⟩ := hookChild_gives he.sound (ha.trans_le he.grows.next_le) hb' hl
              (hash.trans hh'.symm)
            exact ⟨he.trans hg.extends, rfl, id⟩

-- What a call of `getMissingNodes` on a map with the root hash `h` has returned.
structure Map.Searched (S : Set Hashed) (f : Family) (h : UInt256)
    (r : Except SHAMapError (List (SHAMapNodeID × UInt256))) (m m' : Map) (f' : Family) : Prop where
  ext      : f.Extends S f'
  root     : m'.root = m.root
  state    : m'.state = m.state ∨ (m'.state = .modifying ∧ f'.Complete S h)
  complete : r = .ok [] → f'.Complete S h
  missing  : ∀ l, r = .ok l → (l.map Prod.snd).Nodup ∧
    ∀ x ∈ l, PositionOf S h x.1.path x.2 ∧ (f'.available x.2 = none)

theorem Map.getMissingNodes.search_inv {max : Int} (hf : f.Sound S) (hr : m.root < f.nodes.next)
    (hh : (f.get m.root).getHash = h) :
    Search.Inv S m.root h max f
      ⟨f, { max := max }, ⟨some m.root, .root, env.rand 0 m.root, 0, true⟩, 1, none⟩ := by
  refine ⟨⟨hf, .refl, hr, rfl⟩, fun _ => ?_⟩
  constructor
  case sound => exact hf
  case root => exact hh
  case atPos =>
    refine .intro rfl ⟨hr, by rw [hh]; exact .root⟩ ?_ trivial
    exact fun _ b br hb => absurd hb (StackEntry.not_seen_of_zero rfl)
  case stack => exact nofun
  case deferred => exact nofun
  case resumes => exact nofun
  case hashes => rfl
  case nodup => exact nodup_nil
  case missing => exact nofun
  case count => simp
  intro _
  refine ⟨{m.root}, rfl, fun a ha => ha ▸ hr, fun a ha b br _ => ?_⟩
  exact .inr (.frame mem_cons_self (congrArg some ha.symm) (StackEntry.not_seen_of_zero rfl))

theorem Map.getMissingNodes_spec (hi : Set.InjOn Hashed.hash S) {max : Int} (hf : f.Sound S)
    (hr : m.root < f.nodes.next) (hh : (f.get m.root).getHash = h) (hm : 0 < max)
    (hg : m.getMissingNodes env f max k = some (r, m', f')) : Searched S f h r m m' f' := by
  unfold getMissingNodes at hg
  split at hg
  case isTrue hfull =>
    cases hg
    have hc : f.Complete S h := by
      rw [← hh]
      cases hin : (f.get m.root).isInner
      case false => exact hf.complete_leaf hi hr hin
      case true =>
        rw [hin, Bool.not_true, Bool.false_or] at hfull
        exact hf.marked m.root hr hfull
    refine ⟨⟨.refl, hf⟩, rfl, .inr ⟨rfl, hc⟩, fun _ => hc, ?_⟩
    rintro l ⟨⟩
    exact ⟨nodup_nil, nofun⟩
  case isFalse =>
    have ⟨g, hs, hg⟩ := Option.bind_eq_some_iff.mp hg
    have ⟨hinv, hcomp⟩ := Search.loop_inv hi hm (Map.getMissingNodes.search_inv hf hr hh) nofun hs
    have hext : f.Extends S g.family := ⟨hinv.held.grows, hinv.held.sound⟩
    split at hg
    case h_1 => cases hg; exact ⟨hext, rfl, .inl rfl, nofun, nofun⟩
    case h_2 ht =>
      cases hg
      have hp := hinv.progress ht
      refine ⟨hext, ?_, ?_, ?_, ?_⟩
      · split <;> rfl
      · split
        case isTrue he => exact .inr ⟨rfl, hcomp ht (isEmpty_iff.mp he)⟩
        case isFalse => exact .inl rfl
      · exact fun he => hcomp ht (Except.ok.inj he)
      · rintro l ⟨⟩
        exact ⟨hp.hashes ▸ hp.nodup, hp.missing⟩

namespace World

variable {w : World} {c : Call}

-- A map has no root node yet, or it has the one that it is acquired from.
structure MapSound (S : Set Hashed) (f : Family) (m : Acquired) : Prop where
  lt       : m.map.root < f.nodes.next
  root     : ((f.get m.map.root).getHash = m.hash) ∨ ((f.get m.map.root).getHash = 0)
  complete : m.map.state = .modifying → f.Complete S m.hash

theorem MapSound.grows {m : Acquired} (hm : MapSound S f m) (hg : f.Grows f') : MapSound S f' m where
  lt := hm.lt.trans_le hg.next_le
  root := by rw [hg.getHash _ hm.lt]; exact hm.root
  complete hs := (hm.complete hs).grows hg

structure Sound (S : Set Hashed) (w : World) : Prop where
  family : w.family.Sound S
  maps   : ∀ m ∈ w.maps, MapSound S w.family m

theorem Sound.update (hw : w.Sound S) {m : Acquired} {map : Map} (he : w.family.Extends S f)
    (hm : MapSound S f { m with map := map }) : (w.update i m map f).Sound S where
  family := he.sound
  maps m' hm' := by
    obtain hm' | rfl := mem_or_eq_of_mem_set hm'
    case inl => exact (hw.maps m' hm').grows he.grows
    case inr => exact hm

theorem fetchRoot_sound {m : Acquired} {map : Map} (hw : w.Sound S) (hm : MapSound S w.family m)
    (h : m.map.fetchRoot env w.family m.hash = (r, map, f)) :
    w.family.Extends S f ∧ MapSound S f { m with map := map } := by
  unfold Map.fetchRoot at h
  split at h
  case isTrue => cases h; exact ⟨⟨.refl, hw.family⟩, hm⟩
  split at h
  case h_1 root f' hf =>
    cases h
    have hg := fetchNodeNT_gives hw.family hf
    exact ⟨hg.extends, hg.lt, .inl hg.getHash, fun hs => (hm.complete hs).grows hg.grows⟩
  case h_2 => cases h; exact ⟨⟨.refl, hw.family⟩, hm⟩

theorem addRootNode_sound (hi : Set.InjOn Hashed.hash S) {m : Acquired} {map : Map}
    (hw : w.Sound S) (hm : MapSound S w.family m)
    (hn : ∀ n, Hashed.makeFromWire raw = .ok (some n) → n ∈ S)
    (h : m.map.addRootNode env w.family m.hash raw = .ok (r, map, f)) :
    w.family.Extends S f ∧ MapSound S f { m with map := map } := by
  unfold Map.addRootNode at h
  split at h
  case isTrue => cases h; exact ⟨⟨.refl, hw.family⟩, hm⟩
  have ⟨n, hn', h⟩ := Except.bind_eq_ok.mp h
  cases n
  case none => cases h; exact ⟨⟨.refl, hw.family⟩, hm⟩
  case some n =>
    simp only at h
    split at h
    case isTrue => cases h; exact ⟨⟨.refl, hw.family⟩, hm⟩
    case isFalse hh =>
      have ⟨he, hl, hash⟩ := Map.adopt_spec m.map (env.route 0) hw.family
        (hn n hn') (not_not.mp hh)
      cases h
      refine ⟨he, ?_⟩
      cases hin : n.isInner
      case true => exact ⟨hl, .inl hash, fun hs => (hm.complete hs).grows he.grows⟩
      -- A leaf is all there is of its tree.
      have hd := he.sound.data _ hl
      have hdn := hi hd.left (hn n hn') (hd.right.symm.trans (hash.trans (not_not.mp hh).symm))
      have hc := he.sound.complete_leaf hi hl (by rw [← Node.isInner_data, hdn, hin])
      rw [hash] at hc
      exact ⟨hl, .inl hash, fun _ => hc⟩

theorem addKnownNode_sound {m : Acquired} {map : Map} (hw : w.Sound S) (hm : MapSound S w.family m)
    (hn : ∀ n, Hashed.makeFromWire raw = .ok (some n) → n ∈ S)
    (h : m.map.addKnownNode env w.family node raw = .ok (r, map, f)) :
    w.family.Extends S f ∧ MapSound S f { m with map := map } := by
  unfold Map.addKnownNode at h
  split at h
  case isTrue => cases h; exact ⟨⟨.refl, hw.family⟩, hm⟩
  have ⟨n, hn', h⟩ := Except.bind_eq_ok.mp h
  have hl := @Map.addKnownNode.loop_spec _ S w.family m.map m.map.root env n node node.path 0
    hw.family hm.lt (fun n' h' => hn n' (h' ▸ hn'))
  rw [Except.ok.inj h] at hl
  have ⟨he, hr, hs⟩ := hl
  refine ⟨he, ?_, ?_, fun hmod => (hm.complete (hs hmod)).grows he.grows⟩
  · exact hr ▸ hm.lt.trans_le he.grows.next_le
  · rw [show map.root = m.map.root from hr, he.grows.getHash _ hm.lt]; exact hm.root

theorem step_sound (hi : Set.InjOn Hashed.hash S) (hem : .empty ∈ S) (hw : w.Sound S)
    (hn : c.nodes ⊆ S) (h : Step env c w w') : w'.Sound S := by
  cases h
  case create hash backed =>
    have hg := add_gives hw.family hem
    refine ⟨hg.sound, fun m hm => ?_⟩
    obtain hm | hm := mem_append.mp hm
    case inl => exact (hw.maps m hm).grows hg.grows
    case inr =>
      rw [mem_singleton.mp hm]
      exact ⟨hg.lt, .inr (hg.getHash.trans Hashed.hash_empty), nofun⟩
  case fetchRoot hm h =>
    have ⟨he, hms⟩ := fetchRoot_sound hw (hw.maps _ (mem_of_getElem? hm)) h
    exact hw.update he hms
  case addRootNode hm h =>
    have ⟨he, hms⟩ := addRootNode_sound hi hw (hw.maps _ (mem_of_getElem? hm))
      (fun _ h => hn h) h
    exact hw.update he hms
  case addKnownNode hm h =>
    have ⟨he, hms⟩ := addKnownNode_sound hw (hw.maps _ (mem_of_getElem? hm)) (fun _ h => hn h) h
    exact hw.update he hms
  case getMissingNodes m _ _ _ map _ hmax hm hz h =>
    have hms := hw.maps m (mem_of_getElem? hm)
    have hs := Map.getMissingNodes_spec hi hw.family hms.lt (hms.root.resolve_right hz) hmax h
    refine hw.update hs.ext ⟨?_, ?_, ?_⟩
    · exact hs.root ▸ hms.lt.trans_le hs.ext.grows.next_le
    · rw [show map.root = m.map.root from hs.root, hs.ext.grows.getHash _ hms.lt]; exact hms.root
    · intro hmod
      obtain hst | ⟨_, hc⟩ := hs.state
      case inl => exact (hms.complete (hst ▸ hmod)).grows hs.ext.grows
      case inr => exact hc
  case store hash raw n hr hh ha =>
    have he := store_extends hw.family (hn hr) hh
    rw [ha] at he
    exact ⟨he.sound, fun m hm => (hw.maps m hm).grows he.grows⟩
  case sweep kept hk =>
    exact ⟨{ hw.family with fullBelow := fun h hm => hw.family.fullBelow h (hk hm) },
      fun m hm => { hw.maps m hm with }⟩

theorem Reachable.sound (hi : Set.InjOn Hashed.hash S) (hem : .empty ∈ S) (hw : w.Reachable S) :
    w.Sound S := by
  induction hw
  case init =>
    refine ⟨?_, nofun⟩
    constructor
    case data => exact fun a ha => absurd ha (Nat.not_lt_zero a)
    case hooked => exact fun a ha => absurd ha (Nat.not_lt_zero a)
    case available => exact nofun
    case fullBelow => exact nofun
    case marked => exact fun a ha => absurd ha (Nat.not_lt_zero a)
    case generation => exact (by decide : (1 : UInt32) ≠ 0)
  case step hn h hs => exact step_sound hi hem hs hn h

-- The hash of a node tells everything about it, as long as no empty branch passes for another one.
theorem injOn_hash (hS : ∀ hashes, .inner hashes ∈ S → Canonical hashes)
    (hinj : Set.InjOn Content.hash (Hashed.content '' S)) : Set.InjOn Hashed.hash S := by
  intro n hn n' hn' he
  have hc : n.content = n'.content := by
    apply hinj ⟨n, hn, rfl⟩ ⟨n', hn', rfl⟩
    rw [Hashed.hash_content, Hashed.hash_content, he]
  exact Hashed.eq_of_content hc (fun hs h => hS hs (h ▸ hn)) (fun hs h => hS hs (h ▸ hn'))

-- Everything about the maps that are being acquired, at every point of a run.
theorem Reachable.synchronization (hS : ∀ hashes, .inner hashes ∈ S → Canonical hashes)
    (hinj : Set.InjOn Content.hash (Hashed.content '' S)) (hem : .empty ∈ S) (hw : w.Reachable S) :
    (∀ m ∈ w.maps, m.map.state = .modifying → w.family.Complete S m.hash) ∧
    (∀ h ∈ w.family.fullBelow, w.family.Complete S h) ∧
    (∀ a < w.family.nodes.next, (w.family.get a).isFullBelow w.family.generation →
      w.family.Complete S (w.family.get a).getHash) ∧
    (∀ a < w.family.nodes.next, ∀ b br c, (w.family.get a).branches b = some br →
      br.child = some c → (w.family.get c).getHash = br.hash) ∧
    (∀ env (i : Nat) (m : Acquired) max n r map f, w.maps[i]? = some m → 0 < max →
      (w.family.get m.map.root).getHash ≠ 0 →
      m.map.getMissingNodes env w.family max n = some (.ok r, map, f) →
      (r = [] → f.Complete S m.hash) ∧ (r.map Prod.snd).Nodup ∧
      ∀ x ∈ r, PositionOf S m.hash x.1.path x.2 ∧ (f.available x.2 = none)) := by
  have hi := injOn_hash hS hinj
  have hs := hw.sound hi hem
  refine ⟨fun m hm => (hs.maps m hm).complete, hs.family.fullBelow, hs.family.marked, ?_, ?_⟩
  · exact fun a ha b br c hb hc => (hs.family.hooked a ha b br c hb hc).right
  · intro env i m max n r map f hm hmax hz h
    have hms := hs.maps m (mem_of_getElem? hm)
    have hg := Map.getMissingNodes_spec hi hs.family hms.lt (hms.root.resolve_right hz) hmax h
    exact ⟨fun he => hg.complete (he ▸ rfl), hg.missing r rfl⟩

end World
end Sync

namespace Sync.World

open SHAMap.Tree (Hashed)
open Tree.Hashed (Content Canonical)

attribute [local instance] lengthDigest

-- Nothing is deferred, and every search of a node starts at its branch 3.
def plainEnv : Env where
  rand := fun _ _ => 3
  route := fun _ => .fetched
  touched := fun _ => false
  finished := fun _ l => l
  pointers := fun _ l => l
  finished_eq := fun _ l => List.Perm.refl l
  pointers_eq := fun _ l => List.Perm.refl l

-- The root of the map of one item, with a hash for its branch 3 that is then set to zero.
def zeroedRoot : Blob :=
  Serializer.addBitString (36 : UInt256) ++ [0] ++ Serializer.addBitString (1 : UInt256) ++ [3] ++
  Serializer.addBitString (0 : UInt256) ++ [3] ++ [SHAMapTreeNode.wireTypeCompressedInner]

def zeroedHashes (b : Fin 16) : Option UInt256 :=
  if b = 0 then some 36 else if b = 3 then some 0 else none

theorem makeFromWire_zeroedRoot :
    Hashed.makeFromWire zeroedRoot = .ok (some (.inner zeroedHashes)) := by
  have h : ∃ hashes, (Hashed.makeFromWire zeroedRoot = .ok (some (.inner hashes))) ∧
      (hashes = zeroedHashes) := by
    refine ⟨_, rfl, funext fun b => ?_⟩
    fin_cases b <;> rfl
  obtain ⟨_, h, rfl⟩ := h
  exact h

-- A map that has been created and has its root from a peer.
def created : World where
  family := (init.family.add .empty).2
  maps   := [⟨516, ⟨0, .synching, false⟩⟩]

def rooted (n : Hashed) : World :=
  created.update 0 ⟨516, ⟨0, .synching, false⟩⟩ ⟨1, .synching, false⟩ (created.family.add n).2

theorem reachable_rooted (hr : Hashed.makeFromWire raw = .ok (some (.inner hashes)))
    (hn : .inner hashes ∈ S) (hh : (Hashed.inner hashes).hash = 516) :
    (rooted (.inner hashes)).Reachable S := by
  have hs : (Call.create 516 false).nodes ⊆ S := Set.empty_subset S
  have hc : created.Reachable S := .step .init hs (Step.create : Step plainEnv _ _ created)
  have h : Map.addRootNode plainEnv ⟨0, .synching, false⟩ created.family 516 raw =
      .ok (.useful, ⟨1, .synching, false⟩, (created.family.add (.inner hashes)).2) := by
    have hz : (created.family.get 0).getHash = 0 := Hashed.hash_empty
    simp only [Map.addRootNode, hr, Except.ok_bind, hz, hh, ne_eq, not_true, if_false]
    rfl
  refine hc.step ?_ (Step.addRootNode rfl h)
  intro n hn'
  cases hr.symm.trans hn'
  exact hn

theorem content_zeroedHashes :
    (Hashed.inner zeroedHashes).content = (Hashed.inner (Tree.childHashes oneItem)).content := by
  refine congrArg Content.inner (funext fun b => ?_)
  fin_cases b <;> decide +kernel

-- The branch 3 of the root is empty, but a node of hash zero is asked for there.
theorem getMissingNodes_empty_branch :
    ∃ S w m map f, (Set.InjOn Content.hash (Hashed.content '' S)) ∧ (.empty ∈ S) ∧
      (Reachable S w) ∧ (w.maps[0]? = some m) ∧
      (m.map.getMissingNodes plainEnv w.family 1 4 = some (.ok [(⟨[3], by decide⟩, 0)], map, f)) ∧
      ∃ hashes, (.inner hashes ∈ S) ∧ (Canonical hashes) ∧ ((Hashed.inner hashes).hash = m.hash) ∧
        (hashes 3 = none) := by
  have hm : .inner (Tree.childHashes oneItem) ∈ {Hashed.empty} ∪ (Tree.inner oneItem).hashed := by
    rw [hashed_oneItem]; simp
  refine ⟨insert (.inner zeroedHashes) ({Hashed.empty} ∪ (Tree.inner oneItem).hashed),
    rooted (.inner zeroedHashes), ⟨516, ⟨1, .synching, false⟩⟩, _, _, ?_, by simp, ?_, rfl, rfl,
    Tree.childHashes oneItem, .inr hm, ?_, ?_, rfl⟩
  · rw [Set.image_insert_eq, content_zeroedHashes, Set.insert_eq_of_mem (Set.mem_image_of_mem _ hm)]
    exact oneItem_injOn
  · exact reachable_rooted makeFromWire_zeroedRoot (.inl rfl) (by decide +kernel)
  · intro b
    fin_cases b <;> decide +kernel
  · decide +kernel

theorem makeFromWire_oneItem :
    Hashed.makeFromWire (Hashed.serializeForWire (.inner (Tree.childHashes oneItem))) =
      .ok (some (.inner (Tree.childHashes oneItem))) := by
  have h : ∃ hashes, (Hashed.makeFromWire (Serializer.addBitString (36 : UInt256) ++ [0, 3]) =
      .ok (some (.inner hashes))) ∧ (hashes = Tree.childHashes oneItem) := by
    refine ⟨_, rfl, funext fun b => ?_⟩
    fin_cases b <;> decide +kernel
  obtain ⟨_, h, rfl⟩ := h
  exact h

-- The only item is asked for.
theorem getMissingNodes_oneItem :
    ∃ w m map f, (Reachable ({Hashed.empty} ∪ (Tree.inner oneItem).hashed) w) ∧
      (w.maps[0]? = some m) ∧
      (m.map.getMissingNodes plainEnv w.family 1 4 = some (.ok [(⟨[0], by decide⟩, 36)], map, f)) ∧
      (PositionOf ({Hashed.empty} ∪ (Tree.inner oneItem).hashed) m.hash [0] 36) ∧
      (f.available 36 = none) := by
  have hm : .inner (Tree.childHashes oneItem) ∈ {Hashed.empty} ∪ (Tree.inner oneItem).hashed := by
    rw [hashed_oneItem]; simp
  have hr := reachable_rooted makeFromWire_oneItem hm (by decide +kernel)
  have hS : ∀ hashes, .inner hashes ∈ {Hashed.empty} ∪ (Tree.inner oneItem).hashed →
      Canonical hashes := by
    intro hashes hh b
    rw [hashed_oneItem] at hh
    obtain hh | hh | hh := hh <;> cases hh
    · simp
    · fin_cases b <;> decide +kernel
  have ⟨_, _, _, _, h⟩ := Reachable.synchronization hS oneItem_injOn (.inl rfl) hr
  have ⟨_, _, hx⟩ := h plainEnv 0 ⟨516, ⟨1, .synching, false⟩⟩ 1 4 [(⟨[0], by decide⟩, 36)] _ _ rfl
    (by decide) (by decide +kernel) rfl
  exact ⟨_, _, _, _, hr, rfl, rfl, hx _ (mem_singleton.mpr rfl)⟩

end Sync.World
end SHAMap
