import Bixd.PeerFinder.Logic

open HashMap

open IP (Endpoint)
open Relation (ReflTransGen)

namespace PeerFinder.Logic

variable {K : Type} {l : Logic K} {slot : SlotImp K}

-- Each slot is in the table under its remote endpoint.
def Keyed (l : Logic K) : Prop :=
  ∀ {ep slot}, l.slots.find? ep = some slot → slot.remote_endpoint = ep

theorem Keyed.addSlot (hk : l.Keyed) (slot : SlotImp K) : (l.addSlot slot).Keyed := by
  intro ep s hs
  simp only [Logic.addSlot, emplace] at hs
  split at hs
  case h_1 => exact hk hs
  rw [find?_insert] at hs
  split_ifs at hs with hep
  · cases hs
    exact hep.symm
  · exact hk hs

theorem values_addSlot (h : l.slots.find? slot.remote_endpoint = none) :
    (l.addSlot slot).slots.values = slot ::ₘ l.slots.values := by
  rw [addSlot, emplace, h]
  exact (values_insert ..).trans
    (congrArg (slot ::ₘ ·) (values_erase_of_find?_none h))

variable [DecidableEq K]

-- The changes that the calls are made of, apart from new slots.
inductive Edit : Logic K → Logic K → Prop
  | relocate {l : Logic K} {slot : SlotImp K} (ep : Endpoint) :
    (l.slots.find? slot.remote_endpoint = some slot) →
    Edit l (l.setSlot { slot with local_endpoint := some ep })
  | change {l : Logic K} {slot slot' : SlotImp K} :
    (l.slots.find? slot.remote_endpoint = some slot) →
    (slot'.remote_endpoint = slot.remote_endpoint) →
    (slot'.inbound = slot.inbound) →
    (slot'.public_key = slot.public_key) →
    (slot.state ≠ .active) →
    (slot'.state ≠ .active) →
    Edit l (l.mutate slot slot')
  | activate {l : Logic K} {slot : SlotImp K} {key : K} :
    (l.slots.find? slot.remote_endpoint = some slot) →
    (slot.state ≠ .active) →
    (key ∉ l.keys) →
    (l.counts.can_activate slot) →
    Edit l ({ l with keys := insert key l.keys }.mutate slot
      { slot with public_key := some key, state := .active })
  | remove {l l' : Logic K} {slot : SlotImp K} :
    (l.slots.find? slot.remote_endpoint = some slot) →
    (l.remove slot = some l') →
    Edit l l'
  | fixed {l : Logic K} (fixed : HashMap Endpoint Fixed) :
    Edit l { l with fixed }

-- The slot that a call adds.
inductive Adds (l : Logic K) : Call K → SlotImp K → Prop
  | inbound {loc remote : Endpoint} {fixed : Bool} :
    (l.aboveIpLimit remote = false) →
    Adds l (.new_inbound_slot loc remote) (.newInbound loc remote fixed)
  | outbound {remote : Endpoint} {fixed : Bool} :
    (l.slots.find? remote = none) →
    Adds l (.new_outbound_slot remote) (.newOutbound remote fixed)

theorem markFixed_edit (h : l.markFixed ep f = some l') : Edit l l' := by
  simp only [markFixed, Option.bind_eq_bind, Option.bind_eq_some_iff] at h
  obtain ⟨_, _, h⟩ := h
  cases h
  exact .fixed _

theorem onConnected_edits (hk : l.Keyed)
    (h : l.onConnected ep loc = some (b, l')) : ReflTransGen Edit l l' := by
  simp only [onConnected, Option.bind_eq_bind, Option.bind_eq_some_iff] at h
  obtain ⟨slot, hs, h⟩ := h
  obtain rfl := hk hs
  have he := ReflTransGen.single (Edit.relocate loc hs)
  split at h
  case h_1 =>
    obtain ⟨_, _, h⟩ := Option.bind_eq_some_iff.mp h
    cases h
    exact he
  case h_2 =>
    obtain ⟨slot', hs', h⟩ := Option.bind_eq_some_iff.mp h
    cases h
    simp only [SlotImp.setState] at hs'
    split_ifs at hs' with ha
    cases hs'
    have ha : slot.state = .connect := by
      simp [SlotImp.allowsState] at ha
      exact ha.2.2
    refine he.tail (.change ?_ rfl rfl rfl ?_ ?_)
    · simp [setSlot, find?_insert]
    · simp [ha]
    · simp

theorem activate_edits (hk : l.Keyed)
    (h : l.activate ep key reserved now = some (r, l')) : ReflTransGen Edit l l' := by
  simp only [activate, Option.bind_eq_bind, Option.bind_eq_some_iff] at h
  obtain ⟨slot, hs, ⟨⟩, hg, h⟩ := h
  obtain rfl := hk hs
  have hg : slot.state = .accept ∨ slot.state = .connected := by
    by_contra hn
    simp [guard, hn] at hg
  have ha : slot.state ≠ .active := by
    intro ha
    simp [ha] at hg
  split_ifs at h with hd hc
  case pos =>
    cases h
    exact .refl
  case pos =>
    cases h
    exact .single (.change hs rfl rfl rfl ha ha)
  obtain ⟨active, hact, l₁, hm, h⟩ : ∃ active, _ ∧ ∃ l₁, _ ∧ _ := by
    simpa only [Option.bind_eq_some_iff] using h
  cases h
  simp only [SlotImp.activate, if_pos hg] at hact
  cases hact
  have he : ReflTransGen Edit l (l.mutate slot { slot with reserved }) :=
    .single (.change hs rfl rfl rfl ha ha)
  have hf : (l.mutate slot { slot with reserved }).slots.find? slot.remote_endpoint =
      some { slot with reserved } := by
    simp [mutate, setSlot, find?_insert]
  replace he := he.tail (@Edit.activate K _ _ { slot with reserved } key hf ha hd (by simpa using hc))
  simp only [activate.markSuccess] at hm
  split_ifs at hm
  · exact he.tail (markFixed_edit hm)
  · cases hm
    exact he

theorem on_closed_edits (hk : l.Keyed) (h : l.on_closed ep now = some l') :
    ReflTransGen Edit l l' := by
  simp only [on_closed, Option.bind_eq_bind, Option.bind_eq_some_iff] at h
  obtain ⟨slot, hs, l₁, hr, h⟩ := h
  obtain rfl := hk hs
  have he : ReflTransGen Edit l l₁ := .single (.remove hs hr)
  simp only [on_closed.markFailure] at h
  split_ifs at h
  · exact he.tail (markFixed_edit h)
  · cases h
    exact he

theorem exec_cases (hk : l.Keyed) (h : exec l call = some l') :
    (∃ slot, (Adds l call slot) ∧ (l' = l.addSlot slot)) ∨ ReflTransGen Edit l l' := by
  cases call
  case new_inbound_slot loc remote =>
    simp only [exec, new_inbound_slot] at h
    split_ifs at h with ha
    · cases h
      exact .inr .refl
    · cases h
      exact .inl ⟨_, .inbound (by simpa using ha), rfl⟩
  case new_outbound_slot remote =>
    simp only [exec, new_outbound_slot] at h
    split at h
    case h_1 =>
      cases h
      exact .inr .refl
    case h_2 hn =>
      cases h
      exact .inl ⟨_, .outbound hn, rfl⟩
  case onConnected slot loc =>
    obtain ⟨⟨_, _⟩, hc, rfl⟩ := Option.map_eq_some_iff.mp h
    exact .inr (onConnected_edits hk hc)
  case activate slot key reserved now =>
    obtain ⟨⟨_, _⟩, ha, rfl⟩ := Option.map_eq_some_iff.mp h
    exact .inr (activate_edits hk ha)
  case on_closed slot now => exact .inr (on_closed_edits hk h)

theorem remove_eq_some (h : l.remove slot = some l') :
    (l'.config = l.config) ∧ (l'.slots = l.slots.erase slot.remote_endpoint) ∧
    (slot.remote_endpoint.address ∈ l.connectedAddresses) ∧
    (l'.connectedAddresses = l.connectedAddresses.erase slot.remote_endpoint.address) ∧
    (l'.counts = l.counts.remove slot) ∧
    ((slot.public_key = none ∧ l'.keys = l.keys) ∨
      ∃ key, slot.public_key = some key ∧ l'.keys = l.keys.erase key) := by
  simp only [remove, remove.eraseKey, Option.bind_eq_bind, Option.bind_eq_some_iff] at h
  obtain ⟨l₁, hk, ⟨⟩, hg, h⟩ := h
  cases h
  have hg : slot.remote_endpoint.address ∈ l₁.connectedAddresses := by
    by_contra hn
    simp [guard, hn] at hg
  split at hk
  case h_1 hn =>
    cases hk
    exact ⟨rfl, rfl, hg, rfl, rfl, .inl ⟨hn, rfl⟩⟩
  case h_2 key hn =>
    split_ifs at hk
    cases hk
    exact ⟨rfl, rfl, hg, rfl, rfl, .inr ⟨key, hn, rfl⟩⟩

-- What an edit does to the configuration, the slots and the connected addresses: it changes a slot
-- and neither its direction nor its endpoint, or it removes a slot and its address.
theorem Edit.slots_cases (h : Edit l l') : (l'.config = l.config) ∧
    (((l'.slots = l.slots) ∧ (l'.connectedAddresses = l.connectedAddresses)) ∨
    (∃ slot slot', (l.slots.find? slot.remote_endpoint = some slot) ∧
      (slot'.remote_endpoint = slot.remote_endpoint) ∧ (slot'.inbound = slot.inbound) ∧
      (l'.slots = l.slots.insert slot.remote_endpoint slot') ∧
      (l'.connectedAddresses = l.connectedAddresses)) ∨
    (∃ slot, (l.slots.find? slot.remote_endpoint = some slot) ∧
      (l'.slots = l.slots.erase slot.remote_endpoint) ∧
      (slot.remote_endpoint.address ∈ l.connectedAddresses) ∧
      (l'.connectedAddresses = l.connectedAddresses.erase slot.remote_endpoint.address))) := by
  cases h
  case relocate slot ep hs =>
    exact ⟨rfl, .inr (.inl ⟨slot, { slot with local_endpoint := some ep }, hs, rfl, rfl, rfl, rfl⟩)⟩
  case change slot slot' hs he hi _ _ _ =>
    exact ⟨rfl, .inr (.inl ⟨slot, slot', hs, he, hi, he ▸ rfl, rfl⟩)⟩
  case activate slot key hs _ _ _ =>
    exact ⟨rfl, .inr (.inl ⟨slot, { slot with public_key := some key, state := .active }, hs, rfl,
      rfl, rfl, rfl⟩)⟩
  case remove slot hs hr =>
    have ⟨hc, hl, hm, ha, _, _⟩ := remove_eq_some hr
    exact ⟨hc, .inr (.inr ⟨slot, hs, hl, hm, ha⟩)⟩
  case fixed => exact ⟨rfl, .inl ⟨rfl, rfl⟩⟩

theorem Keyed.edit (hk : l.Keyed) (h : Edit l l') : l'.Keyed := by
  intro ep s hs
  obtain ⟨_, ⟨hl, _⟩ | ⟨slot, slot', _, he, _, hl, _⟩ | ⟨slot, _, hl, _⟩⟩ := h.slots_cases
  · exact hk (hl ▸ hs)
  · rw [hl, find?_insert] at hs
    split_ifs at hs with hep
    · cases hs
      exact he.trans hep.symm
    · exact hk hs
  · rw [hl, find?_erase] at hs
    split_ifs at hs
    exact hk hs

theorem Keyed.edits (hk : l.Keyed) (h : ReflTransGen Edit l l') : l'.Keyed := by
  induction h
  case refl => exact hk
  case tail he ih => exact ih.edit he

theorem Keyed.exec (hk : l.Keyed) (h : exec l call = some l') : l'.Keyed := by
  obtain ⟨slot, _, rfl⟩ | h := exec_cases hk h
  · exact hk.addSlot slot
  · exact hk.edits h

theorem Reachable.keyed (h : Reachable ok c l) : l.Keyed := by
  induction h
  case init => exact nofun
  case step he ih => exact ih.exec he

end PeerFinder.Logic
