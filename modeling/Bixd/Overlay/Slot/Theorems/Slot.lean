import Bixd.Overlay.Slot

open HashMap List

namespace ReduceRelay

namespace Slot

variable {s s' : Slot} {now id : Nat} {peer : PeerInfo} {g : Nat → Option Nat} {random : Random}

-- The state of a peer and the time of its squelch.
def view (s : Slot) (id : Nat) : Option (PeerState × Nat) :=
  (s.peers.find? id).map fun peer => (peer.state, peer.expire)

-- The squelches that have not expired are recorded, and no peer is both considered and squelched.
structure Inv (now : Nat) (g : Nat → Option Nat) (s : Slot) : Prop where
  recorded   : ∀ {id time}, g id = some time → now ≤ time → s.view id = some (.Squelched, time)
  considered : ∀ {id time}, id ∈ s.considered → s.view id ≠ some (.Squelched, time)

namespace Inv

theorem mono (h : Inv now g s) (hn : now ≤ now') : Inv now' g s :=
  { h with recorded := fun hg ht => h.recorded hg (hn.trans ht) }

theorem congr (h : Inv now g s) (hv : ∀ id, s'.view id = s.view id)
    (hc : ∀ id ∈ s'.considered, id ∈ s.considered) : Inv now g s' where
  recorded hg ht := (hv _).trans (h.recorded hg ht)
  considered hm := by
    rw [hv]
    exact h.considered (hc _ hm)

end Inv

theorem view_setPeer (s : Slot) (id : Nat) (peer : PeerInfo) (k : Nat) :
    (s.setPeer id peer).view k = if k = id then some (peer.state, peer.expire) else s.view k := by
  simp only [view, setPeer, find?_insert]
  split_ifs <;> rfl

@[simp]
theorem view_initCounting (s : Slot) (k : Nat) : s.initCounting.view k = s.view k := by
  simp only [view, initCounting, resetCounts, find?_mapVal, Option.map_map]
  rfl

theorem view_eq_none (h : s.peers.find? id = none) : s.view id = none := by
  rw [view, h]
  rfl

theorem view_eq_some (h : s.peers.find? id = some peer) :
    s.view id = some (peer.state, peer.expire) := by
  rw [view, h]
  rfl

theorem view_setPeer_self (h : s.peers.find? id = some peer) (peer' : PeerInfo)
    (hs : peer'.state = peer.state) (he : peer'.expire = peer.expire) (k : Nat) :
    (s.setPeer id peer').view k = s.view k := by
  rw [view_setPeer]
  split_ifs with hk
  · rw [hk, view_eq_some h, hs, he]
  · rfl

theorem foldl_squelch (now : Nat) (ids : List Nat) (d : Nat → Nat) (g : Nat → Option Nat)
    (k : Nat) :
    (ids.map fun id => Message.squelch id (d id)).foldl (System.receive now) g k =
      if k ∈ ids then some (now + seconds (d k)) else g k := by
  induction ids generalizing g
  case nil => rfl
  case cons id ids ih =>
    rw [map_cons, foldl_cons, ih]
    by_cases hk : k = id <;> simp [System.receive, hk]

theorem foldl_unsquelch (now : Nat) (ids : List Nat) (g : Nat → Option Nat) (k : Nat) :
    (ids.map Message.unsquelch).foldl (System.receive now) g k = if k ∈ ids then none else g k := by
  induction ids generalizing g
  case nil => rfl
  case cons id ids ih =>
    rw [map_cons, foldl_cons, ih]
    by_cases hk : k = id <;> simp [System.receive, hk]

theorem update.select_subset (peers : HashMap Nat PeerInfo) (now : Nat) (r : Nat → Nat)
    (rounds : Nat) {considered : List Nat} {P : Nat → Prop} (hc : ∀ id ∈ considered, P id)
    (hs : ∀ id ∈ selected, P id) : ∀ id ∈ select peers now r rounds considered selected, P id := by
  induction rounds generalizing considered selected
  case zero => exact hs
  case succ rounds ih =>
    rw [select]
    split_ifs
    · exact hs
    · split
      case h_1 => exact hs
      case h_2 id hid =>
        have hc' : ∀ k ∈ considered.erase id, P k := fun k hk => hc k (mem_of_mem_erase hk)
        split
        case h_1 => exact ih hc' hs
        split_ifs
        · exact ih hc' (forall_mem_cons.mpr ⟨hc id (mem_of_getElem? hid), hs⟩)
        · exact ih hc' hs

theorem update.foldl_messages (k : Nat) :
    (messages npeers r selected s.peers).foldl (System.receive now) g k =
      if ∃ peer, s.peers.find? k = some peer ∧ k ∉ selected ∧ peer.state ≠ .Squelched then
        some (now + seconds (getSquelchDuration npeers (r k)))
      else g k := by
  have h : messages npeers r selected s.peers =
      ((s.peers.toList.filter fun p => p.1 ∉ selected ∧ p.2.state ≠ .Squelched).map Prod.fst).map
        fun id => .squelch id (getSquelchDuration npeers (r id)) := by
    rw [map_map]
    rfl
  rw [h, foldl_squelch]
  refine if_congr ?_ rfl rfl
  simp only [mem_map, mem_filter, Prod.exists, mem_toList, decide_eq_true_eq]
  constructor
  case mp =>
    rintro ⟨_, peer, hp, rfl⟩
    exact ⟨peer, hp⟩
  case mpr =>
    rintro ⟨peer, hp⟩
    exact ⟨k, peer, hp, rfl⟩

theorem Inv.selection (h : Inv now g s) :
    Inv now ((update.selection s now random).1.foldl (System.receive now) g)
      (update.selection s now random).2 := by
  simp only [update.selection]
  have hs := update.select_subset s.peers now random.round s.considered.length
    (P := (· ∈ s.considered)) (fun _ => id) (forall_mem_nil _)
  generalize update.select s.peers now random.round s.considered.length s.considered [] = selected
    at hs
  split_ifs with hsel
  case pos => exact h.congr (view_initCounting s) (by simp [initCounting, resetCounts])
  refine ⟨fun {k time} hg ht => ?_, by simp⟩
  rw [update.foldl_messages] at hg
  simp only [view, find?_mapKey, Option.map_map]
  split_ifs at hg with hk
  case pos =>
    -- The peer is squelched now.
    obtain ⟨peer, hf, hn, hp⟩ := hk
    cases hg
    simp [hf, update.assign, hn, hp]
  case neg =>
    -- The peer was squelched before, so that it was not selected.
    have hv := h.recorded hg ht
    have hn : k ∉ selected := fun hm => h.considered (hs k hm) hv
    simp only [view, Option.map_eq_some_iff, Prod.mk.injEq] at hv
    obtain ⟨peer, hf, hp, he⟩ := hv
    simp [hf, update.assign, hn, hp, he]

section

variable (h : Inv now g s) (hf : s.peers.find? id = some peer) (hp : peer.state ≠ .Squelched)

include h hf hp

theorem Inv.consider : Inv now g (update.consider s now id peer) := by
  have hv (k : Nat) : (update.consider s now id peer).view k = s.view k :=
    view_setPeer_self hf { peer with lastMessage := now, count := peer.count + 1 } rfl rfl k
  refine ⟨fun hg ht => (hv _).trans (h.recorded hg ht), fun {k time} hm => ?_⟩
  rw [hv]
  have hm : k = id ∨ k ∈ s.considered := by
    simp only [update.consider] at hm
    split_ifs at hm
    · exact mem_insert_iff.mp hm
    · exact .inr hm
  obtain rfl | hm := hm
  · rw [view_eq_some hf]
    simp [hp]
  · exact h.considered hm

theorem Inv.count :
    Inv now ((update.count s now id peer random).1.foldl (System.receive now) g)
      (update.count s now id peer random).2 := by
  have hc := h.consider hf hp
  rw [update.count]
  split_ifs
  · exact hc.congr (view_initCounting _) nofun
  · exact hc.selection
  · exact hc

end

theorem Inv.update (h : Inv now g s) :
    Inv now ((s.update now id random).1.foldl (System.receive now) g) (s.update now id random).2 := by
  rw [Slot.update]
  split
  case h_1 hn =>
    have hv := view_eq_none hn
    refine ⟨fun {k time} hg ht => ?_, nofun⟩
    have hk := h.recorded hg ht
    rw [view_initCounting, view_setPeer, if_neg, hk]
    rintro rfl
    cases hv.symm.trans hk
  case h_2 peer hf =>
    have hv := view_eq_some hf
    split_ifs with he hs
    case pos =>
      refine ⟨fun {k time} hg ht => ?_, nofun⟩
      have hk := h.recorded hg ht
      rw [view_initCounting, view_setPeer, if_neg, hk]
      rintro rfl
      have := hv.symm.trans hk
      simp only [Option.some.injEq, Prod.mk.injEq] at this
      omega
    case pos => exact h.congr (view_setPeer_self hf _ rfl rfl) fun _ hm => hm
    case neg => exact h.count hf fun hp => hs (.inr hp)

theorem view_leave {erase : Bool} (k : Nat) : (deletePeer.leave s now id erase).view k =
    if k = id ∧ erase then none else s.view k := by
  rw [deletePeer.leave]
  split
  case h_1 hn =>
    split_ifs with hk
    · rw [hk.1, view_eq_none hn]
    · rfl
  case h_2 peer hf =>
    cases erase
    case false =>
      have := view_setPeer_self hf { peer with lastMessage := now, count := 0 } rfl rfl k
      simpa using this
    case true =>
      simp only [view, find?_erase, and_true, if_true]
      split_ifs <;> rfl

theorem considered_leave {erase : Bool} :
    (deletePeer.leave s now id erase).considered = s.considered := by
  rw [deletePeer.leave]
  split
  · rfl
  · split_ifs <;> rfl

theorem view_unconsider (k : Nat) : (deletePeer.unconsider s id peer).view k = s.view k := by
  rw [deletePeer.unconsider]
  split_ifs <;> rfl

theorem considered_unconsider : ∀ k ∈ (deletePeer.unconsider s id peer).considered,
    k ∈ s.considered := by
  intro k hk
  by_cases hm : id ∈ s.considered
  · rw [deletePeer.unconsider, if_pos hm] at hk
    exact mem_of_mem_erase hk
  · rwa [deletePeer.unconsider, if_neg hm] at hk

theorem deletePeer.foldl_reset (k : Nat) :
    (reset s now).1.foldl (System.receive now) g k =
      if (s.view k).map Prod.fst = some .Squelched then none else g k := by
  have h : (reset s now).1 =
      ((s.peers.toList.filter fun p => p.2.state = .Squelched).map Prod.fst).map .unsquelch := by
    rw [map_map]
    rfl
  rw [h, foldl_unsquelch]
  refine if_congr ?_ rfl rfl
  simp only [mem_map, mem_filter, Prod.exists, mem_toList, decide_eq_true_eq,
    view, Option.map_map, Option.map_eq_some_iff]
  constructor
  case mp =>
    rintro ⟨_, peer, ⟨hf, hp⟩, rfl⟩
    exact ⟨peer, hf, hp⟩
  case mpr =>
    rintro ⟨peer, hf, hp⟩
    exact ⟨k, peer, ⟨hf, hp⟩, rfl⟩

theorem Inv.reset (h : Inv now g s) :
    Inv now ((deletePeer.reset s now).1.foldl (System.receive now) g) (deletePeer.reset s now).2 := by
  refine ⟨fun {k time} hg ht => ?_, nofun⟩
  rw [deletePeer.foldl_reset] at hg
  split_ifs at hg with hs
  rw [h.recorded hg ht] at hs
  exact absurd rfl hs

theorem Inv.leave (h : Inv now g s) (id : Nat) (erase : Bool) : Inv now
    (if erase then Function.update g id none else g) (deletePeer.leave s now id erase) := by
  constructor
  case recorded =>
    intro k time hg ht
    rw [view_leave]
    cases erase
    case false => simpa using h.recorded hg ht
    by_cases hk : k = id
    · simp [hk] at hg
    · simp only [if_true, Function.update_of_ne hk] at hg
      simpa [hk] using h.recorded hg ht
  case considered =>
    intro k time hm
    rw [considered_leave] at hm
    rw [view_leave]
    split_ifs
    · simp
    · exact h.considered hm

theorem Inv.deletePeer (h : Inv now g s) (id : Nat) (erase : Bool) :
    Inv now
    (if erase then Function.update ((s.deletePeer now id erase).1.foldl (System.receive now) g) id none
      else (s.deletePeer now id erase).1.foldl (System.receive now) g)
    (s.deletePeer now id erase).2 := by
  rw [Slot.deletePeer]
  cases hf : s.peers.find? id
  case none =>
    refine ⟨fun {k time} hg ht => ?_, h.considered⟩
    cases erase
    case false => exact h.recorded hg ht
    simp only [if_true, foldl_nil, Function.update_apply] at hg
    split_ifs at hg
    exact h.recorded hg ht
  case some peer =>
    by_cases hp : peer.state = .Selected
    case pos =>
      simp only [if_pos hp]
      exact h.reset.leave id erase
    case neg =>
      simp only [if_neg hp]
      exact (h.congr view_unconsider considered_unconsider).leave id erase

theorem Inv.deleteIdlePeer (h : Inv now g s) :
    Inv now ((s.deleteIdlePeer now).1.foldl (System.receive now) g) (s.deleteIdlePeer now).2 := by
  rw [Slot.deleteIdlePeer]
  generalize s.peers.keys = ids
  suffices ∀ r : List Message × Slot, Inv now (r.1.foldl (System.receive now) g) r.2 →
      Inv now ((ids.foldl (deleteIdlePeer.round now) r).1.foldl (System.receive now) g)
        (ids.foldl (deleteIdlePeer.round now) r).2 from this ([], s) h
  intro r hr
  induction ids generalizing r
  case nil => exact hr
  case cons id ids ih =>
    refine ih (deleteIdlePeer.round now r id) ?_
    rw [deleteIdlePeer.round]
    split
    · exact hr
    · split_ifs
      · dsimp only
        rw [foldl_append]
        exact hr.deletePeer id false
      · exact hr

theorem unsquelch_mem_reset (h : s.view id = some (.Squelched, time)) :
    .unsquelch id ∈ (deletePeer.reset s now).1 := by
  simp only [view, Option.map_eq_some_iff, Prod.mk.injEq] at h
  obtain ⟨peer, hf, hp, _⟩ := h
  refine mem_map.mpr ⟨(id, peer), mem_filter.mpr ⟨mem_toList.mpr hf, ?_⟩, rfl⟩
  simp [hp]

theorem unsquelch_mem_deletePeer {erase : Bool} (hf : s.peers.find? source = some peer)
    (hp : peer.state = .Selected) (h : s.view id = some (.Squelched, time)) :
    .unsquelch id ∈ (s.deletePeer now source erase).1 := by
  simp only [deletePeer, hf, if_pos hp]
  exact unsquelch_mem_reset h

theorem mem_round {r : List Message × Slot} (h : m ∈ r.1) (k : Nat) :
    m ∈ (deleteIdlePeer.round now r k).1 := by
  rw [deleteIdlePeer.round]
  split
  · exact h
  · split_ifs
    · exact mem_append_left _ h
    · exact h

theorem mem_foldl_round {r : List Message × Slot} (h : m ∈ r.1) (ids : List Nat) :
    m ∈ (ids.foldl (deleteIdlePeer.round now) r).1 := by
  induction ids generalizing r
  case nil => exact h
  case cons k ids ih => exact ih (mem_round h k)

theorem round_frame {r : List Message × Slot}
    (hd : ¬∃ p, r.2.peers.find? k = some p ∧ p.state = .Selected ∧
      now - p.lastMessage > seconds IDLED) :
    (∀ j ≠ k, (deleteIdlePeer.round now r k).2.peers.find? j = r.2.peers.find? j) ∧
    ∀ j, (deleteIdlePeer.round now r k).2.view j = r.2.view j := by
  rw [deleteIdlePeer.round]
  cases hf : r.2.peers.find? k
  case none => exact ⟨fun _ _ => rfl, fun _ => rfl⟩
  case some p =>
    by_cases hi : now - p.lastMessage > seconds IDLED
    case neg => simp [if_neg hi]
    have hs : p.state ≠ .Selected := fun hs => hd ⟨p, hf, hs, hi⟩
    simp only [if_pos hi, deletePeer, hf, if_neg hs]
    refine ⟨fun j hj => ?_, fun j => ?_⟩
    · have hu (i : Nat) : (deletePeer.unconsider r.2 k p).peers.find? i = r.2.peers.find? i := by
        rw [deletePeer.unconsider]
        split_ifs <;> rfl
      simp only [deletePeer.leave, hu, hf, Bool.false_eq_true, if_false, setPeer]
      rw [find?_insert, if_neg hj, hu]
    · rw [view_leave, if_neg (by simp), view_unconsider]

theorem unsquelch_mem_deleteIdlePeer (hf : s.peers.find? source = some peer)
    (hp : peer.state = .Selected) (hi : now - peer.lastMessage > seconds IDLED)
    (h : s.view id = some (.Squelched, time)) : .unsquelch id ∈ (s.deleteIdlePeer now).1 := by
  have hm := mem_keys_iff.mpr ⟨peer, hf⟩
  rw [deleteIdlePeer]
  generalize s.peers.keys = ids at hm
  -- The source and the squelched peer are unchanged until one source is found to be idle.
  suffices ∀ r : List Message × Slot, r.2.peers.find? source = some peer →
      r.2.view id = some (.Squelched, time) →
      .unsquelch id ∈ (ids.foldl (deleteIdlePeer.round now) r).1 from this ([], s) hf h
  intro r hf h
  induction ids generalizing r
  case nil => cases hm
  case cons k ids ih =>
    by_cases hd : ∃ p, r.2.peers.find? k = some p ∧ p.state = .Selected ∧
      now - p.lastMessage > seconds IDLED
    case pos =>
      have ⟨p, hk, hs, hl⟩ := hd
      refine mem_foldl_round ?_ ids
      simp only [deleteIdlePeer.round, hk, if_pos hl]
      exact mem_append_right _ (unsquelch_mem_deletePeer hk hs h)
    case neg =>
      have hne : k ≠ source := fun he => hd ⟨peer, he ▸ hf, hp, hi⟩
      refine ih ((mem_cons.mp hm).resolve_left hne.symm) _ ?_ ?_
      · rw [(round_frame hd).1 source hne.symm, hf]
      · rw [(round_frame hd).2, h]

end Slot

end ReduceRelay
