import Bixd.Overlay.Slot.Theorems.Slot

open List HashMap Prod

namespace ReduceRelay

open Slots

variable {K : Type} [DecidableEq K] {s : System K} {v w : K} {now : Nat}

-- The messages about one validator.
def about (v : K) (ms : List (K × Message)) : List Message :=
  ms.filterMap fun m => if m.1 = v then some m.2 else none

theorem about_append (ms ms' : List (K × Message)) :
    about v (ms ++ ms') = about v ms ++ about v ms' :=
  filterMap_append

theorem about_map_self (ms : List Message) : about v (ms.map ((v, ·))) = ms := by
  rw [about, filterMap_map]
  simp

theorem about_map_of_ne (h : w ≠ v) (ms : List Message) : about v (ms.map ((w, ·))) = [] := by
  rw [about, filterMap_map]
  simp [h]

theorem about_flatMap_of_notMem {l : List (K × Slot)} (f : Slot → List Message)
    (h : v ∉ l.map fst) : about v (l.flatMap fun p => (f p.2).map ((p.1, ·))) = [] := by
  induction l
  case nil => rfl
  case cons p l ih =>
    rw [map_cons, mem_cons, not_or] at h
    rw [flatMap_cons, about_append, about_map_of_ne (Ne.symm h.1), ih h.2, append_nil]

theorem about_flatMap {l : List (K × Slot)} (f : Slot → List Message) (hl : (l.map fst).Nodup)
    (h : (v, slot) ∈ l) : about v (l.flatMap fun p => (f p.2).map ((p.1, ·))) = f slot := by
  induction l
  case nil => cases h
  case cons p l ih =>
    rw [map_cons, nodup_cons] at hl
    rw [flatMap_cons, about_append]
    obtain rfl | h := mem_cons.mp h
    case inl => rw [about_map_self, about_flatMap_of_notMem f hl.1, append_nil]
    case inr =>
      have hne : p.1 ≠ v := fun he => hl.1 (he ▸ mem_map_of_mem h)
      rw [about_map_of_ne hne, ih hl.2 h, nil_append]

theorem foldl_send (ms : List (K × Message)) (squelched : K → Nat → Option Nat) :
    ms.foldl (System.send now) squelched v =
      (about v ms).foldl (System.receive now) (squelched v) := by
  induction ms generalizing squelched
  case nil => rfl
  case cons m ms ih =>
    rw [foldl_cons, ih, about, about, filterMap_cons]
    by_cases h : m.1 = v
    · subst h
      simp [System.send]
    · simp [System.send, h, Ne.symm h]

-- The slot of a validator, or one without peers.
def Slots.slotOf (slots : HashMap K Slot) (v : K) : Slot :=
  (slots.find? v).getD { lastSelected := 0 }

-- The slot of each validator agrees with the squelches of the peers for it.
def Agrees (now : Nat) (squelched : K → Nat → Option Nat) (slots : HashMap K Slot) : Prop :=
  ∀ v, Slot.Inv now (squelched v) (slotOf slots v)

theorem slotOf_insert {slots : HashMap K Slot} :
    slotOf (slots.insert w slot) v = if v = w then slot else slotOf slots v := by
  rw [slotOf, find?_insert]
  split_ifs <;> rfl

namespace Agrees

variable {squelched : K → Nat → Option Nat} {slots : Slots K}

theorem updateSlotAndSquelch {id : Nat} (h : Agrees now squelched slots.slots) :
    Agrees now ((slots.updateSlotAndSquelch now key w id random).1.foldl (System.send now) squelched)
      (slots.updateSlotAndSquelch now key w id random).2.slots := by
  have ha : (slots.addPeerMessage now key id).2.slots = slots.slots := by
    simp only [addPeerMessage, expireMessages]
    split_ifs
    · rfl
    · split
      · rfl
      · split_ifs <;> rfl
  simp only [Slots.updateSlotAndSquelch, ha]
  split_ifs
  case neg => exact ha ▸ h
  intro v
  rw [foldl_send, slotOf_insert]
  split_ifs with hv
  case pos =>
    subst hv
    rw [about_map_self]
    apply Slot.Inv.update
    have h := h v
    rw [slotOf] at h
    cases hs : slots.slots.find? v
    case none =>
      rw [hs] at h
      exact h.congr (fun _ => rfl) (by simp)
    case some slot =>
      rw [hs] at h
      exact h
  case neg =>
    rw [about_map_of_ne (Ne.symm hv)]
    exact h v

theorem deletePeer {id : Nat} {erase : Bool} (h : Agrees now squelched slots.slots) :
    Agrees now (System.disconnect ((slots.deletePeer now id erase).1.foldl (System.send now) squelched)
      (.deletePeer id erase)) (slots.deletePeer now id erase).2.slots := by
  intro v
  have hg : System.disconnect ((slots.deletePeer now id erase).1.foldl (System.send now) squelched)
      (.deletePeer id erase) v = if erase then Function.update
        ((about v (slots.deletePeer now id erase).1).foldl (System.receive now) (squelched v)) id none
      else (about v (slots.deletePeer now id erase).1).foldl (System.receive now) (squelched v) := by
    cases erase <;> simp [System.disconnect, foldl_send]
  have hn : (slots.slots.toList.map fst).Nodup := by
    rw [keys_toList]
    exact keys_nodup _
  have h := h v
  rw [hg, slotOf]
  rw [slotOf] at h
  simp only [Slots.deletePeer, find?_mapVal]
  cases hs : slots.slots.find? v
  case none =>
    have hm : v ∉ slots.slots.toList.map fst := by
      rw [keys_toList, mem_keys_iff, hs]
      simp
    rw [about_flatMap_of_notMem (fun slot => (slot.deletePeer now id erase).1) hm]
    rw [hs] at h
    exact h.deletePeer id erase
  case some slot =>
    rw [about_flatMap (fun slot => (slot.deletePeer now id erase).1) hn (mem_toList.mpr hs)]
    rw [hs] at h
    exact h.deletePeer id erase

theorem round {r : List (K × Message) × Slots K}
    (h : Agrees now (r.1.foldl (System.send now) squelched) r.2.slots)
    (hok : ∀ slot, r.2.slots.find? w = some slot → aged now (slot.deleteIdlePeer now).2 →
      ∀ id peer, (slot.deleteIdlePeer now).2.peers.find? id = some peer →
      peer.state = .Squelched → peer.expire < now) :
    Agrees now ((deleteIdlePeers.round now r w).1.foldl (System.send now) squelched)
      (deleteIdlePeers.round now r w).2.slots := by
  rw [deleteIdlePeers.round]
  cases hs : r.2.slots.find? w
  case none => exact h
  case some slot =>
    intro v
    have hv := h v
    simp only [foldl_send, about_append, foldl_append] at hv ⊢
    by_cases hw : v = w
    case neg =>
      rw [about_map_of_ne (Ne.symm hw)]
      split_ifs
      · rw [slotOf, find?_erase, if_neg hw]
        exact hv
      · rw [slotOf_insert, if_neg hw]
        exact hv
    case pos =>
      subst hw
      rw [about_map_self]
      rw [slotOf, hs] at hv
      have hd := hv.deleteIdlePeer
      split_ifs with ha
      · refine ⟨fun {id time} hg ht => ?_, fun {id time} hm => ?_⟩
        · have hr := hd.recorded hg ht
          simp only [Slot.view, Option.map_eq_some_iff, Prod.mk.injEq] at hr
          obtain ⟨peer, hf, hp, he⟩ := hr
          have := hok slot hs ha id peer hf hp
          omega
        · rw [slotOf, find?_erase, if_pos rfl] at hm
          cases hm
      · rw [slotOf_insert, if_pos rfl]
        exact hd

theorem find?_round (h : v ≠ w) :
    (deleteIdlePeers.round now r w).2.slots.find? v = r.2.slots.find? v := by
  rw [deleteIdlePeers.round]
  split
  · rfl
  · dsimp only
    split_ifs
    · rw [find?_erase, if_neg h]
    · rw [find?_insert, if_neg h]

theorem deleteIdlePeers (h : Agrees now squelched slots.slots)
    (hok : ∀ v slot, slots.slots.find? v = some slot → aged now (slot.deleteIdlePeer now).2 →
      ∀ id peer, (slot.deleteIdlePeer now).2.peers.find? id = some peer →
      peer.state = .Squelched → peer.expire < now) :
    Agrees now ((slots.deleteIdlePeers now).1.foldl (System.send now) squelched)
      (slots.deleteIdlePeers now).2.slots := by
  rw [Slots.deleteIdlePeers]
  have hn := keys_nodup slots.slots
  generalize slots.slots.keys = vs at hn
  suffices ∀ r : List (K × Message) × Slots K,
      Agrees now (r.1.foldl (System.send now) squelched) r.2.slots →
      (∀ v ∈ vs, r.2.slots.find? v = slots.slots.find? v) →
      Agrees now ((vs.foldl (deleteIdlePeers.round now) r).1.foldl (System.send now) squelched)
        (vs.foldl (deleteIdlePeers.round now) r).2.slots from
    this ([], slots) h fun _ _ => rfl
  intro r hr hf
  induction vs generalizing r
  case nil => exact hr
  case cons w vs ih =>
    have ⟨hw, hf⟩ := forall_mem_cons.mp hf
    have ⟨hn, hvs⟩ := nodup_cons.mp hn
    refine ih hvs _ (hr.round fun slot hs => hok w slot (hw ▸ hs)) fun v hv => ?_
    rw [find?_round fun he : v = w => hn (he ▸ hv), hf v hv]

theorem exec (h : Agrees s.now s.squelched s.slots.slots) (hok : s.AgedWithoutSquelch c) :
    Agrees (s.exec c).now (s.exec c).squelched (s.exec c).slots.slots := by
  cases c
  case updateSlotAndSquelch key w id random => exact h.updateSlotAndSquelch
  case deletePeer id erase => exact h.deletePeer
  case deleteIdlePeers => exact h.deleteIdlePeers hok

end Agrees

theorem mem_deletePeer {slots : Slots K} {id : Nat} {erase : Bool}
    (hs : slots.slots.find? v = some slot) (hm : m ∈ (slot.deletePeer now id erase).1) :
    (v, m) ∈ (slots.deletePeer now id erase).1 :=
  mem_flatMap.mpr ⟨(v, slot), mem_toList.mpr hs, mem_map_of_mem hm⟩

theorem mem_round {r : List (K × Message) × Slots K} (h : m ∈ r.1) (w : K) :
    m ∈ (deleteIdlePeers.round now r w).1 := by
  rw [deleteIdlePeers.round]
  split
  · exact h
  · exact mem_append_left _ h

theorem mem_foldl_round {r : List (K × Message) × Slots K} (h : m ∈ r.1)
    (vs : List K) : m ∈ (vs.foldl (deleteIdlePeers.round now) r).1 := by
  induction vs generalizing r
  case nil => exact h
  case cons w vs ih => exact ih (mem_round h w)

theorem mem_deleteIdlePeers {slots : Slots K} (hs : slots.slots.find? v = some slot)
    (hm : m ∈ (slot.deleteIdlePeer now).1) : (v, m) ∈ (slots.deleteIdlePeers now).1 := by
  have hv := mem_keys_iff.mpr ⟨slot, hs⟩
  rw [deleteIdlePeers]
  generalize slots.slots.keys = vs at hv
  suffices ∀ r : List (K × Message) × Slots K, r.2.slots.find? v = some slot →
      (v, m) ∈ (vs.foldl (deleteIdlePeers.round now) r).1 from this ([], slots) hs
  intro r hr
  induction vs generalizing r
  case nil => cases hv
  case cons w vs ih =>
    by_cases hw : v = w
    case pos =>
      subst hw
      refine mem_foldl_round ?_ vs
      rw [deleteIdlePeers.round, hr]
      exact mem_append_right _ (mem_map_of_mem hm)
    case neg => exact ih ((mem_cons.mp hv).resolve_left hw) _ ((Agrees.find?_round hw).trans hr)

namespace System

theorem Reachable.agrees (h : Reachable AgedWithoutSquelch s) :
    Agrees s.now s.squelched s.slots.slots := by
  induction h
  case init now => exact fun v => ⟨nofun, nofun⟩
  case step s now c _ hn hok ih =>
    exact Agrees.exec (s := { s with now }) (fun v => (ih v).mono hn) hok

-- If no slot is deleted because of its age while a squelch of one of its peers has not expired, then
-- no peer is forgotten while it is squelched.
theorem Reachable.squelches_remembered (h : Reachable AgedWithoutSquelch s) : s.Remembers := by
  constructor
  case recorded =>
    intro v id time hg ht
    have hr := (h.agrees v).recorded hg ht
    rw [slotOf] at hr
    cases hs : s.slots.slots.find? v
    case none =>
      rw [hs] at hr
      cases hr
    case some slot =>
      rw [hs] at hr
      simp only [Slot.view, Option.getD_some, Option.map_eq_some_iff, Prod.mk.injEq] at hr
      obtain ⟨peer, hf, hp, _⟩ := hr
      exact ⟨slot, peer, rfl, hf, hp⟩
  case unsquelched =>
    intro v slot source peer now hn hs hf hp id time hg ht
    have hr := (h.agrees v).recorded hg (hn.trans ht)
    rw [slotOf, hs, Option.getD_some] at hr
    refine ⟨fun erase => ?_, fun hi => ?_⟩
    · exact mem_deletePeer hs (Slot.unsquelch_mem_deletePeer hf hp hr)
    · exact mem_deleteIdlePeers hs (Slot.unsquelch_mem_deleteIdlePeer hf hp hi hr)

-- Calls at given times, one after another.
def run (s : System K) (calls : List (Nat × Call K)) : System K :=
  calls.foldl (fun s c => { s with now := c.1 }.exec c.2) s

theorem Reachable.run (hok : ∀ s, ∀ c ∈ calls, ok s c.2) (h : Reachable ok s)
    (ht : (s.now :: calls.map fst).Pairwise (· ≤ ·)) : Reachable ok (s.run calls) := by
  induction calls generalizing s
  case nil => exact h
  case cons c calls ih =>
    have ⟨hc, hok⟩ := forall_and.mp fun s => forall_mem_cons.mp (hok s)
    have ⟨hn, ht⟩ := pairwise_cons.mp ht
    exact ih hok (.step c.1 c.2 h (hn c.1 (by simp)) (hc _)) ht

-- The first messages of a number of peers, and then eleven messages of each of five peers, at time
-- zero and with the given random number for all durations.
def messages (npeers random : Nat) : List (Nat × Call Unit) :=
  ((List.range npeers).map fun id => (0, .updateSlotAndSquelch 1 () id ⟨fun _ => 0, fun _ => random⟩))
    ++ (List.range 11).flatMap fun round => (List.range 5).map fun id =>
      (0, .updateSlotAndSquelch (.ofNat 256 (round + 2)) () id ⟨fun _ => 0, fun _ => random⟩)

theorem messages_ok (s : System Unit) : ∀ c ∈ messages npeers random, s.AgedWithoutSquelch c.2 := by
  intro c hc
  obtain hc | hc := mem_append.mp hc
  · obtain ⟨_, _, rfl⟩ := mem_map.mp hc
    trivial
  · have ⟨_, _, hc⟩ := mem_flatMap.mp hc
    obtain ⟨_, _, rfl⟩ := mem_map.mp hc
    trivial

-- A sixth peer is squelched.
theorem squelches_remembered_six : ((run {} (messages 6 0)).squelched () 5 = some (seconds 300)) ∧
    (run {} (messages 6 0)).Remembers :=
  ⟨by decide +kernel, Reachable.squelches_remembered (.run messages_ok (.init 0) (by decide))⟩

-- With more peers the squelches are longer than a slot is kept after its last selection. The sources
-- go on relaying when the slot is deleted.
def outlived : List (Nat × Call Unit) :=
  messages 66 310 ++ (List.range 5).map (fun id =>
    (seconds 600, .updateSlotAndSquelch 1 () id ⟨fun _ => 0, fun _ => 0⟩)) ++
    [(seconds 601, .deleteIdlePeers)]

theorem squelch_forgotten : ∃ s : System Unit, Reachable (fun _ _ => True) s ∧
    (s.squelched () 10 = some (seconds 610)) ∧ (s.now = seconds 601) ∧
    ((s.slots.slots.find? ()).isNone) := by
  refine ⟨run {} outlived, .run (fun _ _ _ => trivial) (.init 0) (by decide +kernel), ?_⟩
  decide +kernel

end System

end ReduceRelay
