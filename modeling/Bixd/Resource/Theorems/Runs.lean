import Bixd.Resource.Theorems.Imports

open HashMap Multiset Resource.Import Option

namespace Resource

namespace Logic

variable {l : Logic} {key : Key} {now : Nat} {C : Multiset Key}

-- The same imports, and entries under the same keys.
structure Frame (l l' : Logic) : Prop where
  imports : l'.importTable = l.importTable
  keys    : ∀ key, (l'.table.find? key).isSome = (l.table.find? key).isSome

namespace Frame

theorem refl (l : Logic) : Frame l l :=
  ⟨rfl, fun _ => rfl⟩

theorem trans (h : Frame l l') (h' : Frame l' l'') : Frame l l'' :=
  ⟨h'.imports.trans h.imports, fun key => (h'.keys key).trans (h.keys key)⟩

theorem foldl {α : Type} {f : Logic → α → Logic} (h : ∀ l a, Frame l (f l a)) (l : Logic)
    (as : List α) : Frame l (as.foldl f l) := by
  induction as generalizing l
  case nil => exact refl l
  case cons a as ih => exact (h l a).trans (ih (f l a))

theorem insert (h : l.table.find? key = some entry) (k : Key) :
    ((l.table.insert key e).find? k).isSome = (l.table.find? k).isSome := by
  rw [find?_insert]
  split_ifs with hk
  · rw [hk, h]
    rfl
  · rfl

theorem modify (l : Logic) (key : Key) (f : Entry → Entry) : Frame l (l.modify key f) := by
  rw [Logic.modify]
  split
  case h_1 h => exact ⟨rfl, insert h⟩
  case h_2 => exact refl l

theorem release (l : Logic) (key : Key) (now : Nat) : Frame l (l.release key now) := by
  rw [Logic.release]
  split
  case h_1 => exact refl l
  case h_2 h =>
    dsimp only
    split_ifs
    · exact ⟨rfl, insert h⟩
    · exact ⟨rfl, insert h⟩

theorem destroyConsumer (l : Logic) (now : Nat) (consumer : Consumer) :
    Frame l (l.destroyConsumer now consumer) := by
  cases consumer
  case none => exact refl l
  case some key => exact release l key now

theorem copyConsumer (l : Logic) (consumer : Consumer) : Frame l (l.copyConsumer consumer) := by
  cases consumer
  case none => exact refl l
  case some key => exact modify l key _

theorem destroyItems (l : Logic) (now : Nat) (items : List Import.Item) :
    Frame l (l.destroyItems now items) := by
  refine foldl (fun l item => ?_) l items
  exact destroyConsumer l now item.consumer

theorem deductItems (l : Logic) (items : List Import.Item) : Frame l (l.deductItems items) := by
  refine foldl (fun l item => ?_) l items
  cases item.consumer
  case none => exact refl l
  case some key => exact modify l key _

end Frame

theorem importTable_newEndpoint (l : Logic) (key : Key) :
    (l.newEndpoint key).2.importTable = l.importTable := by
  simp only [newEndpoint, pushActive]
  split_ifs <;> rfl

theorem importTable_importItems (gossip : List Gossip.Item) (l : Logic) :
    (l.importItems gossip).2.importTable = l.importTable := by
  induction gossip generalizing l
  case nil => rfl
  case cons item gossip ih =>
    have hn := importTable_newEndpoint l ⟨.kindInbound, item.address.at_port 0⟩
    simp only [importItems, newInboundEndpoint]
    rw [ih]
    cases (l.newEndpoint ⟨.kindInbound, item.address.at_port 0⟩).1
    case none => exact hn
    case some key => exact (Frame.modify _ key _).imports.trans hn

end Logic

namespace Import

variable {imports : HashMap String Import}

theorem all_of_find? (h : imports.find? origin = some imp) :
    all imports = imp.items + all (imports.erase origin) := by
  rw [all, values_of_find? h, cons_bind]
  rfl

theorem all_insert : all (imports.insert origin imp) = imp.items + all (imports.erase origin) := by
  rfl

theorem all_erase_of_none (h : imports.find? origin = none) :
    all (imports.erase origin) = all imports := by
  rw [all, values_erase_of_find?_none h, all]

end Import

namespace Logic

variable {l : Logic} {key : Key} {now : Nat} {C : Multiset Key} {imports : HashMap String Import}

-- The logic agrees with references from outside of it and some items.
def Agrees (l : Logic) (C : Multiset Key) (items : Multiset Import.Item) (now : Nat) : Prop :=
  l.Tracks (C + Import.refs items) (Import.balance items) now

namespace Agrees

variable {items : Multiset Import.Item}

theorem newEndpoint (h : l.Agrees C items now) (key : Key) :
    ((l.newEndpoint key).1 = some key) ∧ (l.newEndpoint key).2.Agrees (key ::ₘ C) items now := by
  have ⟨hk, ht⟩ := Tracks.newEndpoint h key
  exact ⟨hk, ht.congr (cons_add ..).symm fun _ => rfl⟩

theorem copyConsumer (h : l.Agrees C items now)
    (hk : ∀ key, consumer = some key → key ∈ C + Import.refs items) :
    (l.copyConsumer consumer).Agrees (consumer.elim C (· ::ₘ C)) items now := by
  refine (Tracks.copyConsumer h hk).congr ?_ fun _ => rfl
  cases consumer
  case none => rfl
  case some key => exact (cons_add ..).symm

theorem destroyConsumer {consumer : Consumer}
    (h : l.Agrees (consumer.elim C (· ::ₘ C)) items now) :
    (l.destroyConsumer now consumer).Agrees C items now := by
  refine Tracks.destroyConsumer (Tracks.congr h ?_ fun _ => rfl)
  cases consumer
  case none => rfl
  case some key => exact cons_add ..

theorem importItems (h : l.Agrees C items now) (gossip : List Gossip.Item) :
    (l.importItems gossip).2.Agrees C ((l.importItems gossip).1 + items) now := by
  refine (Tracks.importItems gossip h).congr ?_ fun key => balance_add.symm
  rw [refs_add, add_left_comm]

theorem dropItems {old : List Import.Item} (h : l.Agrees C (old + items) now) :
    (destroyItems { l.deductItems old with importTable := imports } now old).Agrees C items now := by
  have hd := Tracks.deductItems old h fun key hk => by
    rw [refs_add]
    exact mem_add.mpr (.inr (mem_add.mpr (.inl hk)))
  have hd : (l.deductItems old).Tracks (Import.refs old + (C + Import.refs items))
      (Import.balance items) now := by
    refine hd.congr ?_ fun key => ?_
    · rw [refs_add, add_left_comm]
    · rw [balance_add, add_sub_cancel_left]
  exact Tracks.destroyItems old { hd with }

end Agrees

theorem importTable_importConsumers (l : Logic) (now : Nat) (origin : String)
    (gossip : List Gossip.Item) :
    (l.importConsumers now origin gossip).importTable = l.importTable.insert origin
      { whenExpires := now + gossipExpirationSeconds, items := (l.importItems gossip).1 } := by
  rw [importConsumers]
  split
  case h_1 => rw [importTable_importItems]
  case h_2 =>
    rw [(Frame.destroyItems ..).imports, (Frame.deductItems ..).imports, importTable_importItems]

-- The logic agrees with references from outside of it and its own imports.
abbrev Consistent (l : Logic) (C : Multiset Key) (now : Nat) : Prop :=
  l.Agrees C (Import.all l.importTable) now

namespace Consistent

theorem importConsumers (h : l.Consistent C now) (origin : String) (gossip : List Gossip.Item) :
    (l.importConsumers now origin gossip).Consistent C now := by
  have hi := h.importItems gossip
  rw [Consistent, importTable_importConsumers, all_insert, Logic.importConsumers]
  split
  case h_1 hn =>
    rw [all_erase_of_none hn]
    exact { hi with }
  case h_2 prev hs =>
    rw [all_of_find? hs, add_left_comm] at hi
    exact hi.dropItems

theorem expireImport (h : l.Consistent C now) (origin : String) :
    (l.expireImport now origin).Consistent C now := by
  rw [Logic.expireImport]
  split
  case h_1 => exact h
  case h_2 imp hs =>
    split_ifs
    case neg => exact h
    rw [Consistent, all_of_find? hs] at h
    rw [Consistent, (Frame.destroyItems ..).imports, (Frame.deductItems ..).imports]
    exact h.dropItems

theorem imported_eq_zero (key : Key)
    (hk : key ∉ C + Import.refs (Import.all l.importTable)) :
    Import.balance (Import.all l.importTable) key = 0 :=
  balance_of_notMem fun h => hk (mem_add.mpr (.inr h))

theorem expireEntries (h : l.Consistent C now) (t : Nat) :
    (l.expireEntries t l.inactive).Consistent C now := by
  have ⟨ht, hi, _⟩ := Tracks.expireEntries h imported_eq_zero t
  rw [Consistent, hi]
  exact ht

theorem periodicActivity (h : l.Consistent C now) : (l.periodicActivity now).Consistent C now := by
  rw [Logic.periodicActivity]
  generalize (l.expireEntries now l.inactive).importTable.keys = origins
  have h := h.expireEntries now
  generalize l.expireEntries now l.inactive = l₁ at h
  induction origins generalizing l₁
  case nil => exact h
  case cons origin origins ih => exact ih (l₁.expireImport now origin) (h.expireImport origin)

end Consistent

theorem find?_expireImport (now : Nat) (l : Logic) (origin : String) (key : Key) :
    ((l.expireImport now origin).table.find? key).isSome = (l.table.find? key).isSome := by
  rw [expireImport]
  split
  case h_1 => rfl
  split_ifs
  · exact ((Frame.destroyItems ..).keys key).trans ((Frame.deductItems ..).keys key)
  · rfl

theorem find?_periodicActivity (l : Logic) (now : Nat) (key : Key) :
    ((l.periodicActivity now).table.find? key).isSome =
      ((l.expireEntries now l.inactive).table.find? key).isSome := by
  rw [periodicActivity]
  generalize (l.expireEntries now l.inactive).importTable.keys = origins
  generalize l.expireEntries now l.inactive = l
  induction origins generalizing l
  case nil => rfl
  case cons origin origins ih => exact (ih _).trans (find?_expireImport now l origin key)

end Logic

-- The entries that some consumers refer to.
def heldBy (consumers : HashMap Nat Consumer) : Multiset Key :=
  consumers.values.filterMap id

section

variable {m : HashMap Nat Consumer} {id other : Nat} {consumer : Consumer} {key : Key}

theorem heldBy_cons (consumer : Consumer) (rest : Multiset Consumer) :
    (consumer ::ₘ rest).filterMap (fun c => c) =
      consumer.elim (rest.filterMap fun c => c) (· ::ₘ rest.filterMap fun c => c) := by
  cases consumer
  case none => exact filterMap_cons_none _ _ rfl
  case some key => exact filterMap_cons_some _ _ _ rfl

theorem heldBy_insert : heldBy (m.insert id consumer) =
    consumer.elim (heldBy (m.erase id)) (· ::ₘ heldBy (m.erase id)) :=
  (congrArg _ (values_insert ..)).trans (heldBy_cons ..)

theorem heldBy_of_find? (h : m.find? id = some consumer) : heldBy m =
    consumer.elim (heldBy (m.erase id)) (· ::ₘ heldBy (m.erase id)) :=
  (congrArg _ (values_of_find? h)).trans (heldBy_cons ..)

theorem heldBy_erase_of_none (h : m.find? id = none) : heldBy (m.erase id) = heldBy m := by
  rw [heldBy, values_erase_of_find?_none h, heldBy]

theorem mem_heldBy (h : m.find? id = some (some key)) : key ∈ heldBy m := by
  rw [heldBy_of_find? h, elim_some]
  exact mem_cons_self ..

end

namespace System

variable {s s' : System} {id : Nat} {key : Key}

def Inv (s : System) : Prop :=
  s.logic.Consistent (heldBy s.consumers) s.now

namespace Inv

theorem create (h : s.create id r = some s')
    (hl : r.2.Consistent (r.1.elim (heldBy s.consumers) (· ::ₘ heldBy s.consumers)) s.now) :
    s'.Inv := by
  rw [System.create] at h
  split at h
  case h_1 => cases h
  case h_2 hn =>
    cases h
    rw [Inv, heldBy_insert, heldBy_erase_of_none hn]
    exact hl

theorem newEndpoint (h : s.Inv) (hc : s.create id (s.logic.newEndpoint key) = some s') :
    s'.Inv := by
  have ⟨hk, hl⟩ := Logic.Agrees.newEndpoint h key
  refine create hc ?_
  rw [hk, Logic.Consistent, Logic.importTable_newEndpoint]
  exact hl

theorem copy (h : s.Inv) (he : s.exec (.copy id other) = some s') : s'.Inv := by
  simp only [exec, bind_eq_bind, bind_eq_some_iff] at he
  obtain ⟨consumer, hs, he⟩ := he
  refine create he ?_
  rw [Logic.Consistent, (Logic.Frame.copyConsumer ..).imports]
  refine Logic.Agrees.copyConsumer h fun key hk => ?_
  exact mem_add.mpr (.inl (mem_heldBy (hk ▸ hs)))

theorem destroy (h : s.Inv) (he : s.exec (.destroy id) = some s') : s'.Inv := by
  simp only [exec, bind_eq_bind, bind_eq_some_iff] at he
  obtain ⟨consumer, hs, he⟩ := he
  cases he
  rw [Inv, Logic.Consistent, heldBy_of_find? hs] at h
  rw [Inv, Logic.Consistent, (Logic.Frame.destroyConsumer ..).imports]
  exact h.destroyConsumer

theorem refcount_eq (h : s.Inv) (key : Key) : s.refcount key = s.refs.count key := by
  rw [refcount]
  cases hs : s.logic.table.find? key
  case none =>
    have hn : key ∉ s.refs := fun hk => by
      have := h.live key hk
      simp [hs] at this
    simp [count_eq_zero.mpr hn]
  case some entry => exact h.refcount hs

theorem assign (h : s.Inv) (hok : s.NoSelfAssign (.assign id other))
    (he : s.exec (.assign id other) = some s') : s'.Inv := by
  simp only [exec, bind_eq_bind, bind_eq_some_iff] at he
  obtain ⟨old, ho, consumer, hs, he⟩ := he
  cases he
  have hr := h.refcount_eq
  rw [Inv, Logic.Consistent, heldBy_of_find? ho] at h
  rw [Inv, Logic.Consistent, heldBy_insert, Logic.assignConsumer,
    (Logic.Frame.copyConsumer ..).imports, (Logic.Frame.destroyConsumer ..).imports]
  refine h.destroyConsumer.copyConsumer fun key hk => ?_
  by_cases hid : id = other
  case pos =>
    subst hid
    cases ho.symm.trans hs
    subst hk
    have hc := hr key
    rw [refs, show s.consumers.values.filterMap _ = heldBy s.consumers from rfl,
      heldBy_of_find? ho, elim_some, cons_add, count_cons_self] at hc
    refine count_pos.mp ?_
    have := hok rfl key ho
    omega
  case neg =>
    have : (s.consumers.erase id).find? other = some (some key) := by
      rw [find?_erase, if_neg (Ne.symm hid), hs, hk]
    exact mem_add.mpr (.inl (mem_heldBy this))

theorem exec (h : s.Inv) (hok : s.NoSelfAssign call) (he : s.exec call = some s') : s'.Inv := by
  cases call
  case newInboundEndpoint id address => exact h.newEndpoint he
  case newOutboundEndpoint id address => exact h.newEndpoint he
  case newUnlimitedEndpoint id address => exact h.newEndpoint he
  case copy id other => exact h.copy he
  case assign id other => exact h.assign hok he
  case destroy id => exact h.destroy he
  case importConsumers origin gossip =>
    cases he
    exact Logic.Consistent.importConsumers h origin gossip
  case periodicActivity =>
    cases he
    exact Logic.Consistent.periodicActivity h

theorem exact (h : s.Inv) : s.Exact := by
  have hp (key : Key) : 0 < s.refcount key ↔ key ∈ s.refs := by
    rw [h.refcount_eq, ← count_pos]
    exact Int.natCast_pos
  constructor
  case active =>
    intro kind key
    simp only [hp]
    exact Logic.Tracks.active h kind key
  case inactive =>
    intro key
    simp only [hp]
    exact Logic.Tracks.inactive h key
  case live => exact Logic.Tracks.live h
  case refcount => exact Logic.Tracks.refcount h
  case balance => exact Logic.Tracks.balance h
  case ordered =>
    refine List.pairwise_filterMap.mpr ((Logic.Tracks.ordered h).imp ?_)
    intro a b hab t ht t' ht'
    rwa [Logic.expiry, Logic.expiry, ht, ht'] at hab
  case expires =>
    intro now key
    obtain ⟨_, _, hf⟩ := Logic.Tracks.expireEntries h Logic.Consistent.imported_eq_zero now
    rw [Logic.find?_periodicActivity, hf]
    cases hs : s.logic.table.find? key
    case none => simp
    case some entry =>
      have hm : key ∈ s.logic.inactive ↔ entry.refcount = 0 := by
        rw [Logic.Tracks.mem_inactive h, hs, Logic.Tracks.refcount h hs, Int.natCast_eq_zero,
          count_eq_zero]
        simp
      have hx : s.logic.expiry key = entry.whenExpires := by simp [Logic.expiry, hs]
      simp only [hm, hx, some.injEq, exists_eq_left']
      split_ifs with hc <;> simp [hc]

end Inv

theorem Reachable.inv (h : Reachable NoSelfAssign s) : s.Inv := by
  induction h
  case init now => exact Logic.Tracks.init now
  case step s s' now call _ hn hok he ih =>
    exact @Inv.exec { s with now } s' call (Logic.Tracks.mono ih hn) hok he

-- The key of the entry of an inbound consumer.
def someKey : Key :=
  ⟨.kindInbound, ⟨.v4 1, 0⟩⟩

end System

end Resource
