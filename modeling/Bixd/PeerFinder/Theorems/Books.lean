import Bixd.PeerFinder.Theorems.Counts
import Bixd.PeerFinder.Theorems.Edits

open Multiset PeerFinder.Counts

open IP (Address Endpoint)
open Relation (ReflTransGen)

namespace PeerFinder.Logic

variable {K : Type} {l l' : Logic K} {slot slot' : SlotImp K} {ep : Endpoint} {key : K} {c : Config}

theorem filterMap_key_cons (slot : SlotImp K) (slots : Multiset (SlotImp K)) :
    (slot ::ₘ slots).filterMap (·.public_key) = slot.public_key.elim
      (slots.filterMap (·.public_key)) (· ::ₘ slots.filterMap (·.public_key)) := by
  cases hk : slot.public_key
  case none => exact filterMap_cons_none _ _ hk
  case some k => exact filterMap_cons_some _ _ _ hk

theorem map_key_active {slots : Multiset (SlotImp K)}
    (h : ∀ s ∈ slots, s.public_key.isSome ↔ s.state = .active) :
    (slots.filter (·.state = .active)).map (·.public_key) =
      (slots.filterMap (·.public_key)).map some := by
  induction slots using Multiset.induction
  case empty => rfl
  case cons slot slots ih =>
    have ⟨hs, hm⟩ := forall_mem_cons.mp h
    rw [filterMap_key_cons]
    cases hk : slot.public_key
    case none => rw [filter_cons_of_neg _ (by simp [← hs, hk]), ih hm, Option.elim_none]
    case some k =>
      rw [filter_cons_of_pos _ (by simp [← hs, hk]), map_cons, ih hm, hk,
        Option.elim_some, map_cons]

-- The bookkeeping of a collection of slots.
structure Books (counts : Counts) (keys : Finset K) (addresses : Multiset Address)
    (slots : Multiset (SlotImp K)) : Prop where
  counts    : counts.Tallies slots
  keys      : slots.filterMap (·.public_key) = keys.val
  addresses : addresses = slots.map (·.remote_endpoint.address)
  active    : ∀ s ∈ slots, s.public_key.isSome ↔ s.state = .active

namespace Books

variable {counts : Counts} {keys : Finset K} {addresses : Multiset Address}
  {slots : Multiset (SlotImp K)}

theorem key_eq_none (h : Books counts keys addresses (slot ::ₘ slots))
    (ha : slot.state ≠ .active) : slot.public_key = none := by
  rw [← Option.not_isSome_iff_eq_none, h.active slot (mem_cons_self ..)]
  exact ha

theorem add (h : Books counts keys addresses slots) (hk : slot.public_key = none)
    (ha : slot.state ≠ .active) :
    Books (counts.add slot) keys (slot.remote_endpoint.address ::ₘ addresses)
      (slot ::ₘ slots) where
  counts := h.counts.add
  keys := by rw [filterMap_key_cons, hk, Option.elim_none, h.keys]
  addresses := by rw [map_cons, h.addresses]
  active := forall_mem_cons.mpr ⟨by simp [hk, ha], h.active⟩

theorem relocate (h : Books counts keys addresses (slot ::ₘ slots)) (ep : Option Endpoint) :
    Books counts keys addresses ({ slot with local_endpoint := ep } ::ₘ slots) where
  counts := by
    have h := h.counts
    constructor <;> simp only [cast_countP_cons]
    · exact h.attempts.trans (cast_countP_cons _)
    · exact h.active.trans (cast_countP_cons _)
    · exact h.in_active.trans (cast_countP_cons _)
    · exact h.out_active.trans (cast_countP_cons _)
    · exact h.fixed.trans (cast_countP_cons _)
    · exact h.fixed_active.trans (cast_countP_cons _)
    · exact h.reserved.trans (cast_countP_cons _)
    · exact h.acceptCount.trans (cast_countP_cons _)
    · exact h.closingCount.trans (cast_countP_cons _)
  keys := by rw [← h.keys, filterMap_key_cons, filterMap_key_cons]
  addresses := by rw [h.addresses, map_cons, map_cons]
  active := by
    have ⟨hs, hm⟩ := forall_mem_cons.mp h.active
    exact forall_mem_cons.mpr ⟨hs, hm⟩

theorem change (h : Books counts keys addresses (slot ::ₘ slots))
    (he : slot'.remote_endpoint = slot.remote_endpoint) (hk : slot'.public_key = slot.public_key)
    (ha : slot.state ≠ .active) (ha' : slot'.state ≠ .active) :
    Books ((counts.remove slot).add slot') keys addresses (slot' ::ₘ slots) where
  counts := h.counts.remove.add
  keys := by
    rw [← h.keys, filterMap_key_cons, filterMap_key_cons, hk]
  addresses := by rw [h.addresses, map_cons, map_cons, he]
  active := by
    have ⟨hs, hm⟩ := forall_mem_cons.mp h.active
    refine forall_mem_cons.mpr ⟨?_, hm⟩
    simpa [hk, ha, ha'] using hs

variable [DecidableEq K]

theorem activate (h : Books counts keys addresses (slot ::ₘ slots)) (ha : slot.state ≠ .active)
    (hk : key ∉ keys) :
    Books ((counts.remove slot).add { slot with public_key := some key, state := .active })
      (insert key keys) addresses
      ({ slot with public_key := some key, state := .active } ::ₘ slots) where
  counts := h.counts.remove.add
  keys := by
    rw [Finset.insert_val_of_notMem hk, ← h.keys, filterMap_key_cons, filterMap_key_cons,
      h.key_eq_none ha]
    rfl
  addresses := by rw [h.addresses, map_cons, map_cons]
  active := by
    have ⟨_, hm⟩ := forall_mem_cons.mp h.active
    exact forall_mem_cons.mpr ⟨by simp, hm⟩

theorem remove (h : Books counts keys addresses (slot ::ₘ slots))
    (hk : (slot.public_key = none ∧ keys' = keys) ∨
      ∃ key, slot.public_key = some key ∧ keys' = keys.erase key) :
    Books (counts.remove slot) keys' (addresses.erase slot.remote_endpoint.address) slots where
  counts := h.counts.remove
  keys := by
    have hs := h.keys
    obtain ⟨hn, rfl⟩ | ⟨key, hn, rfl⟩ := hk
    case inl => rwa [filterMap_key_cons, hn] at hs
    case inr =>
      rw [filterMap_key_cons, hn, Option.elim_some] at hs
      rw [Finset.erase_val, ← hs, erase_cons_head]
  addresses := by rw [h.addresses, map_cons, erase_cons_head]
  active := (forall_mem_cons.mp h.active).2

end Books

-- The bookkeeping of the logic, and what its counts say about the maximum numbers of slots.
structure Inv (c : Config) (l : Logic K) : Prop where
  books   : Books l.counts l.keys l.connectedAddresses l.slots.values
  in_max  : l.counts.in_max ≤ c.inPeers
  out_max : l.counts.out_max ≤ c.outPeers
  inbound : l.counts.in_active ≤ l.counts.in_max
  outbound : l.counts.out_active ≤ l.counts.out_max

namespace Inv

theorem init (fixed : HashMap Endpoint Fixed) : Inv c (init c fixed : Logic K) where
  books := by
    constructor
    case counts =>
      simp only [Logic.init, setConfig, Counts.onConfig]
      split_ifs <;> exact ⟨rfl, rfl, rfl, rfl, rfl, rfl, rfl, rfl, rfl⟩
    case keys => rfl
    case addresses => rfl
    case active => exact fun _ hs => (notMem_zero _ hs).elim
  in_max := by
    simp only [Logic.init, setConfig, Counts.onConfig, Config.default]
    split_ifs <;> simp
  out_max := by
    simp only [Logic.init, setConfig, Counts.onConfig]
    split_ifs <;> rfl
  inbound := by
    simp only [Logic.init, setConfig, Counts.onConfig, Config.default]
    split_ifs <;> simp
  outbound := by
    simp only [Logic.init, setConfig, Counts.onConfig]
    split_ifs <;> simp

theorem addSlot (h : Inv c l) (hs : l.slots.find? slot.remote_endpoint = none)
    (hk : slot.public_key = none) (ha : slot.state ≠ .active) : Inv c (l.addSlot slot) where
  books := by
    rw [values_addSlot hs]
    exact h.books.add hk ha
  in_max := by simpa [Logic.addSlot, Counts.add] using h.in_max
  out_max := by simpa [Logic.addSlot, Counts.add] using h.out_max
  inbound := by simpa [Logic.addSlot, Counts.add, ha] using h.inbound
  outbound := by simpa [Logic.addSlot, Counts.add, ha] using h.outbound

theorem books_of_find? (h : Inv c l) (hs : l.slots.find? ep = some slot) :
    Books l.counts l.keys l.connectedAddresses (slot ::ₘ (l.slots.erase ep).values) :=
  HashMap.values_of_find? hs ▸ h.books

variable [DecidableEq K]

theorem edit (h : Inv c l) (he : Edit l l') : Inv c l' := by
  cases he
  case relocate slot ep hs => exact { h with books := (h.books_of_find? hs).relocate (some ep) }
  case change slot slot' hs he hi hk ha ha' =>
    refine { books := ?_, in_max := ?_, out_max := ?_, inbound := ?_, outbound := ?_ }
    · have hb := (h.books_of_find? hs).change he hk ha ha'
      rwa [← he] at hb
    · simpa [mutate, setSlot, Counts.add, Counts.remove] using h.in_max
    · simpa [mutate, setSlot, Counts.add, Counts.remove] using h.out_max
    · simpa [mutate, setSlot, Counts.add, Counts.remove, ha, ha'] using h.inbound
    · simpa [mutate, setSlot, Counts.add, Counts.remove, ha, ha'] using h.outbound
  case activate slot key hs ha hk hc =>
    refine { books := ?_, in_max := ?_, out_max := ?_, inbound := ?_, outbound := ?_ }
    · exact (h.books_of_find? hs).activate ha hk
    · simpa [mutate, setSlot, Counts.add, Counts.remove] using h.in_max
    · simpa [mutate, setSlot, Counts.add, Counts.remove] using h.out_max
    · have hi := h.inbound
      simp only [can_activate] at hc
      simp [mutate, setSlot, Counts.add, Counts.remove, ha]
      grind
    · have hi := h.outbound
      simp only [can_activate] at hc
      simp [mutate, setSlot, Counts.add, Counts.remove, ha]
      grind
  case remove slot hs hr =>
    obtain ⟨_, hl, _, ha, hc, hk⟩ := remove_eq_some hr
    refine { books := ?_, in_max := ?_, out_max := ?_, inbound := ?_, outbound := ?_ }
    · rw [hc, ha, hl]
      exact (h.books_of_find? hs).remove hk
    · simpa [hc, Counts.remove] using h.in_max
    · simpa [hc, Counts.remove] using h.out_max
    · have hi := h.inbound
      simp only [hc, Counts.remove, adjust_in_active, adjust_in_max]
      split_ifs <;> omega
    · have hi := h.outbound
      simp only [hc, Counts.remove, adjust_out_active, adjust_out_max]
      split_ifs <;> omega
  case fixed => exact { h with }

theorem edits (h : Inv c l) (he : ReflTransGen Edit l l') : Inv c l' := by
  induction he
  case refl => exact h
  case tail he ih => exact ih.edit he

theorem exec (h : Inv c l) (hk : l.Keyed) (hf : FreshInbound l call)
    (he : exec l call = some l') : Inv c l' := by
  obtain ⟨slot, ha, rfl⟩ | he := exec_cases hk he
  case inl =>
    cases ha
    case inbound => exact h.addSlot hf rfl (by simp [SlotImp.newInbound])
    case outbound hs => exact h.addSlot hs rfl (by simp [SlotImp.newOutbound])
  case inr => exact h.edits he

end Inv

variable [DecidableEq K]

theorem Reachable.inv (h : Reachable FreshInbound c l) : Inv c l := by
  induction h
  case init fixed => exact .init fixed
  case step hr hf he ih => exact ih.exec hr.keyed hf he

theorem Reachable.slots_exact (h : Reachable FreshInbound c l) : l.Exact c where
  counts := h.inv.books.counts
  keys := by rw [map_key_active h.inv.books.active, h.inv.books.keys]
  addresses := h.inv.books.addresses
  inbound := by
    have := h.inv.inbound.trans h.inv.in_max
    rw [h.inv.books.counts.in_active] at this
    exact_mod_cast this
  outbound := by
    have := h.inv.outbound.trans h.inv.out_max
    rw [h.inv.books.counts.out_active] at this
    exact_mod_cast this

-- An inbound slot that was activated and an outbound connection attempt.
theorem slots_exact_two : ∃ l : Logic Nat, (l.counts.in_active = 1) ∧ (l.counts.reserved = 0) ∧
    (l.counts.attempts = 1) ∧ l.Exact { Config.default with inPeers := 1 } := by
  refine ⟨_, ?_, ?_, ?_, Reachable.slots_exact (.step (.activate ⟨.v4 1, 2⟩ 7 false 0) (.step
    (.new_outbound_slot ⟨.v4 1, 3⟩) (.step (.new_inbound_slot ⟨.v4 0, 1⟩ ⟨.v4 1, 2⟩) (.init ∅)
    rfl rfl) trivial rfl) trivial rfl)⟩
  · rfl
  · rfl
  · rfl

end PeerFinder.Logic
