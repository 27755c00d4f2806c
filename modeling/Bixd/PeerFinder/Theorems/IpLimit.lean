import Bixd.PeerFinder.Theorems.Edits

open Multiset

open IP (Address Endpoint)
open Relation (ReflTransGen)

namespace PeerFinder

namespace Config

theorem one_le_ipLimit (c : Config) : 1 ≤ c.applyTuning.ipLimit :=
  le_max_left ..

-- A single address is not given all incoming slots unless there is only one.
theorem ipLimit_le_half {c : Config} (h : 2 ≤ c.inPeers) :
    2 * c.applyTuning.ipLimit ≤ c.inPeers := by
  simp only [applyTuning]
  omega

end Config

namespace Logic

variable {K : Type} {l : Logic K} {slot : SlotImp K} {c : Config}

-- The connected addresses cover the slots, and no public address has more inbound slots than the
-- limit.
structure Limited (c : Config) (l : Logic K) : Prop where
  config    : l.config = c
  addresses : l.slots.values.map (·.remote_endpoint.address) ≤ l.connectedAddresses
  inbound   : ∀ {address}, address.is_public → (l.inboundCount address : Int) ≤ c.ipLimit

namespace Limited

theorem inboundCount_le (h : Limited c l) (address : Address) :
    l.inboundCount address ≤ l.connectedAddresses.count address := by
  calc l.inboundCount address
    _ ≤ (l.slots.values.map (·.remote_endpoint.address)).count address := by
      rw [count_map, inboundCount, countP_eq_card_filter]
      exact card_le_card (monotone_filter_right _ fun _ hs => hs.2.symm)
    _ ≤ l.connectedAddresses.count address := count_le_of_le _ h.addresses

theorem init (fixed : HashMap Endpoint Fixed) (hc : 1 ≤ c.ipLimit) :
    Limited c (init c fixed : Logic K) where
  config := rfl
  addresses := le_rfl
  inbound _ := Int.le_trans (by decide : (0 : Int) ≤ 1) hc

theorem addSlot (h : Limited c l)
    (hi : slot.inbound → slot.remote_endpoint.is_public →
      (l.inboundCount slot.remote_endpoint.address : Int) < c.ipLimit) :
    Limited c (l.addSlot slot) := by
  by_cases hs : ∃ s, l.slots.find? slot.remote_endpoint = some s
  case pos =>
    have ⟨s, hs⟩ := hs
    have hl : (l.addSlot slot).slots = l.slots := by rw [Logic.addSlot, emplace, hs]
    refine ⟨h.config, ?_, fun ha => ?_⟩
    · rw [hl]
      exact h.addresses.trans (le_cons_self ..)
    · rw [inboundCount, hl]
      exact h.inbound ha
  case neg =>
    have hs := Option.eq_none_iff_forall_ne_some.mpr (not_exists.mp hs)
    refine ⟨h.config, ?_, fun {address} ha => ?_⟩
    · rw [values_addSlot hs, map_cons]
      exact cons_le_cons _ h.addresses
    · rw [inboundCount, values_addSlot hs, countP_cons]
      have hb := h.inbound ha
      split_ifs with hp
      · have := hi hp.1 (by rwa [← hp.2] at ha)
        rw [hp.2] at this
        exact this
      · exact hb

variable [DecidableEq K]

theorem edit (h : Limited c l) (he : Edit l l') : Limited c l' := by
  obtain ⟨hc, ⟨hl, ha⟩ | ⟨slot, slot', hs, hr, hi, hl, ha⟩ | ⟨slot, hs, hl, hm, ha⟩⟩ :=
    he.slots_cases
  case inl =>
    refine ⟨hc.trans h.config, ?_, fun hp => ?_⟩
    · rw [hl, ha]
      exact h.addresses
    · rw [inboundCount, hl]
      exact h.inbound hp
  case inr.inl =>
    have hv := HashMap.values_of_find? hs
    refine ⟨hc.trans h.config, ?_, fun hp => ?_⟩
    · have := h.addresses
      rw [hv, map_cons] at this
      rwa [hl, ha, HashMap.values_insert, map_cons, hr]
    · have := h.inbound hp
      rw [inboundCount, hv, countP_cons] at this
      rwa [inboundCount, hl, HashMap.values_insert, countP_cons, hr, hi]
  case inr.inr =>
    have hv := HashMap.values_of_find? hs
    refine ⟨hc.trans h.config, ?_, fun {address} hp => ?_⟩
    · have := h.addresses
      rw [hv, map_cons] at this
      rw [hl, ha, ← erase_cons_head slot.remote_endpoint.address (map ..)]
      exact erase_le_erase _ this
    · have := h.inbound hp
      rw [inboundCount, hv, countP_cons] at this
      rw [inboundCount, hl]
      omega

theorem edits (h : Limited c l) (he : ReflTransGen Edit l l') : Limited c l' := by
  induction he
  case refl => exact h
  case tail he ih => exact ih.edit he

theorem exec (h : Limited c l) (hk : l.Keyed) (hn : NotAtIpLimit l call)
    (he : exec l call = some l') : Limited c l' := by
  obtain ⟨slot, ha, rfl⟩ | he := exec_cases hk he
  case inl =>
    cases ha
    case inbound loc remote fixed ha =>
      refine h.addSlot fun _ hp => ?_
      have hn := hn hp
      have hle := h.inboundCount_le remote.address
      have hp : remote.is_public := hp
      simp only [aboveIpLimit, hp, Bool.true_and, decide_eq_false_iff_not] at ha
      rw [h.config] at hn ha
      change (l.inboundCount remote.address : Int) < c.ipLimit
      omega
    case outbound hs => exact h.addSlot nofun
  case inr => exact h.edits he

end Limited

variable [DecidableEq K]

theorem Reachable.limited (hc : 1 ≤ c.ipLimit) (h : Reachable NotAtIpLimit c l) :
    Limited c l := by
  induction h
  case init fixed => exact .init fixed hc
  case step hr hn he ih => exact ih.exec hr.keyed hn he

-- If no inbound connection is attempted when the connections with its address are exactly as many
-- inbound ones as the limit, then the limit holds, and no address has more than half of the slots.
theorem Reachable.ip_limited (h : Reachable NotAtIpLimit c.applyTuning l)
    (hp : address.is_public) : ((l.inboundCount address : Int) ≤ c.applyTuning.ipLimit) ∧
      (2 ≤ c.inPeers → 2 * l.inboundCount address ≤ c.inPeers) := by
  have hl := (h.limited c.one_le_ipLimit).inbound hp
  refine ⟨hl, fun hi => ?_⟩
  have := Config.ipLimit_le_half hi
  omega

-- A configuration with two incoming slots, and a public address.
def twoSlots : Config :=
  { Config.default with inPeers := 2 }

def publicAddress : Address :=
  .v4 0x08080808

theorem ip_limited_one : ∃ l : Logic Nat, (l.inboundCount publicAddress = 1) ∧
    ((l.inboundCount publicAddress : Int) ≤ twoSlots.applyTuning.ipLimit) ∧
    (2 ≤ twoSlots.inPeers → 2 * l.inboundCount publicAddress ≤ twoSlots.inPeers) := by
  refine ⟨_, ?_, Reachable.ip_limited (.step (.new_inbound_slot ⟨.v4 1, 1⟩ ⟨publicAddress, 1⟩)
    (.init ∅) ?_ rfl) rfl⟩
  · rfl
  · exact fun _ h => absurd h.1 (by decide)

-- Two connections from one public address are accepted and activated although the limit is one:
-- they take all the incoming slots.
theorem ip_limit_exceeded : ∃ l : Logic Nat,
    Reachable (fun _ _ => True) twoSlots.applyTuning l ∧ (publicAddress.is_public) ∧
    (twoSlots.applyTuning.ipLimit = 1) ∧ (l.inboundCount publicAddress = 2) ∧
    (l.counts.in_active = 2) ∧ (l.counts.in_max = 2) := by
  refine ⟨_, .step (.activate ⟨publicAddress, 2⟩ 2 false 0) (.step
    (.activate ⟨publicAddress, 1⟩ 1 false 0) (.step
    (.new_inbound_slot ⟨.v4 1, 1⟩ ⟨publicAddress, 2⟩) (.step
    (.new_inbound_slot ⟨.v4 1, 1⟩ ⟨publicAddress, 1⟩) (.init ∅) trivial rfl) trivial rfl)
    trivial rfl) trivial rfl, ?_, ?_, ?_, ?_, ?_⟩
  · rfl
  · rfl
  · rfl
  · rfl
  · rfl

end Logic

end PeerFinder
