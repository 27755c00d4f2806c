import Bixd.Resource.Theorems.Tracks

open Multiset Resource.Import

namespace Resource

namespace Import

variable {items items' : Multiset Item} {item : Item} {key : Key}

theorem refs_add : refs (items + items') = refs items + refs items' :=
  filterMap_add ..

theorem balance_add : balance (items + items') key = balance items key + balance items' key := by
  rw [balance, filter_add, map_add, sum_add]
  rfl

theorem refs_cons_some (h : item.consumer = some key) :
    refs (item ::ₘ items) = key ::ₘ refs items :=
  filterMap_cons_some _ _ _ h

theorem refs_cons_none (h : item.consumer = none) : refs (item ::ₘ items) = refs items :=
  filterMap_cons_none _ _ h

theorem balance_cons : balance (item ::ₘ items) key =
    (if item.consumer = some key then item.balance else 0) + balance items key := by
  simp only [balance, filter_cons]
  split_ifs <;> simp

theorem balance_of_notMem (h : key ∉ refs items) : balance items key = 0 := by
  rw [balance, filter_eq_nil.mpr]
  · rfl
  · exact fun item hi hc => h ((mem_filterMap _ _).mpr ⟨item, hi, hc⟩)

end Import

namespace Logic.Tracks

variable {l : Logic} {R : Multiset Key} {B : Key → Int} {now : Nat} {key : Key}

theorem congr (h : Tracks l R B now) (hR : R = R')
    (hB : ∀ key, B key = B' key) : Tracks l R' B' now := by
  obtain rfl := hR
  obtain rfl : B = B' := funext hB
  exact h

theorem destroyConsumer {consumer : Consumer}
    (h : Tracks l (consumer.elim R (· ::ₘ R)) B now) :
    Tracks (l.destroyConsumer now consumer) R B now := by
  cases consumer
  case none => exact h
  case some => exact h.release

theorem copyConsumer (h : Tracks l R B now) (hk : ∀ key, consumer = some key → key ∈ R) :
    Tracks (l.copyConsumer consumer) (consumer.elim R (· ::ₘ R)) B now := by
  cases consumer
  case none => exact h
  case some key => exact h.acquire (hk key rfl)

theorem importItems (gossip : List Gossip.Item) (h : Tracks l R B now) :
    Tracks (l.importItems gossip).2 (Import.refs (l.importItems gossip).1 + R)
      (fun key => Import.balance (l.importItems gossip).1 key + B key) now := by
  induction gossip generalizing l R B
  case nil => exact h.congr (zero_add R).symm fun key => (zero_add _).symm
  case cons item gossip ih =>
    have ⟨hc, hn⟩ := h.newEndpoint ⟨.kindInbound, item.address.at_port 0⟩
    have hb := ih (hn.addRemoteBalance (mem_cons_self ..) item.balance)
    simp only [Logic.importItems, newInboundEndpoint, hc, Option.elim_some]
    refine hb.congr ?_ fun key => ?_
    · rw [← cons_coe, refs_cons_some rfl, cons_add, add_cons]
    · rw [← cons_coe, balance_cons]
      simp only [Option.some.injEq, eq_comm]
      ring

theorem deductItems (items : List Import.Item) (h : Tracks l R B now)
    (hR : ∀ key ∈ Import.refs items, key ∈ R) :
    Tracks (l.deductItems items) R (fun key => B key - Import.balance items key) now := by
  induction items generalizing l B
  case nil => exact h.congr rfl fun key => (sub_zero _).symm
  case cons item items ih =>
    rw [← cons_coe] at hR
    rw [Logic.deductItems, List.foldl_cons]
    cases hc : item.consumer
    case none =>
      rw [refs_cons_none hc] at hR
      refine (ih h hR).congr rfl fun key => ?_
      rw [← cons_coe, balance_cons]
      simp [hc]
    case some k =>
      rw [refs_cons_some hc] at hR
      have hb := ih (h.addRemoteBalance (hR k (mem_cons_self ..)) (-item.balance))
        fun key hk => hR key (mem_cons_of_mem hk)
      refine hb.congr rfl fun key => ?_
      rw [← cons_coe, balance_cons]
      simp only [hc, Option.some.injEq, eq_comm]
      split_ifs <;> ring

theorem destroyItems (items : List Import.Item) (h : Tracks l (Import.refs items + R) B now) :
    Tracks (l.destroyItems now items) R B now := by
  induction items generalizing l
  case nil => exact h.congr (zero_add R) fun _ => rfl
  case cons item items ih =>
    rw [← cons_coe] at h
    refine ih (destroyConsumer (h.congr ?_ fun _ => rfl))
    cases hc : item.consumer
    case none => rw [refs_cons_none hc, Option.elim_none]
    case some k => rw [refs_cons_some hc, Option.elim_some, cons_add]

end Logic.Tracks

end Resource
