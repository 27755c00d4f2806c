import Bixd.Resource.Logic

open Multiset Function

namespace Resource.Logic

-- The time at which an inactive entry expires.
def expiry (l : Logic) (key : Key) : Nat :=
  ((l.table.find? key).map (·.whenExpires)).getD 0

-- The table and the lists as a collection of references and the sums of balances determine them,
-- up to some time.
structure Tracks (l : Logic) (R : Multiset Key) (B : Key → Int) (now : Nat) : Prop where
  active   : ∀ kind key, (l.active kind).count key = if key.kind = kind ∧ key ∈ R then 1 else 0
  inactive : ∀ key, l.inactive.count key = if (l.table.find? key).isSome ∧ key ∉ R then 1 else 0
  live     : ∀ key ∈ R, (l.table.find? key).isSome
  refcount : ∀ {key entry}, l.table.find? key = some entry → entry.refcount = R.count key
  balance  : ∀ {key entry}, l.table.find? key = some entry → entry.remote_balance = B key
  absent   : ∀ {key}, l.table.find? key = none → B key = 0
  ordered  : l.inactive.Pairwise (l.expiry · ≤ l.expiry ·)
  recent   : ∀ key ∈ l.inactive, l.expiry key ≤ now + secondsUntilExpiration

namespace Tracks

variable {l : Logic}

theorem init (now : Nat) : Tracks {} 0 (fun _ => 0) now where
  active _ _ := by simp
  inactive _ := by simp
  live := nofun
  refcount := nofun
  balance := nofun
  absent _ := rfl
  ordered := .nil
  recent := nofun

theorem mono (h : Tracks l R B now) (hn : now ≤ now') : Tracks l R B now' :=
  { h with recent := fun key hk => (h.recent key hk).trans (Nat.add_le_add_right hn _) }

theorem mem_inactive (h : Tracks l R B now) :
    key ∈ l.inactive ↔ (l.table.find? key).isSome ∧ key ∉ R := by
  rw [← List.count_pos_iff, h.inactive]
  split_ifs with hk <;> simp [hk]

theorem ne_of_mem_erase (h : Tracks l R B now) (hk : k ∈ l.inactive.erase key) : k ≠ key := by
  have hn : l.inactive.Nodup := List.nodup_iff_count_le_one.mpr fun k => by
    rw [h.inactive]
    split_ifs <;> omega
  exact (hn.mem_erase_iff.mp hk).1

theorem ordered_congr {l' : Logic} {keys : List Key} (h : keys.Pairwise (l.expiry · ≤ l.expiry ·))
    (hk : ∀ k ∈ keys, l'.table.find? k = l.table.find? k) :
    keys.Pairwise (l'.expiry · ≤ l'.expiry ·) := by
  refine h.imp_of_mem fun {a b} ha hb hab => ?_
  rwa [expiry, expiry, hk a ha, hk b hb]

section

variable (h : Tracks l R B now)

include h

theorem insert {e : Entry} (hs : l.table.find? key = some entry) (hm : ∀ k, k ∈ R' ↔ k ∈ R)
    (he : e.whenExpires = entry.whenExpires) (hr : e.refcount = R'.count key)
    (hb : e.remote_balance = B' key) (hR : ∀ k ≠ key, R'.count k = R.count k)
    (hB : ∀ k ≠ key, B' k = B k) : Tracks { l with table := l.table.insert key e } R' B' now := by
  have hf (k : Key) : (l.table.insert key e).find? k = if k = key then some e else l.table.find? k :=
    HashMap.find?_insert ..
  have hi (k : Key) : ((l.table.insert key e).find? k).isSome ↔ (l.table.find? k).isSome := by
    rw [hf]
    split_ifs with hk
    · simp [hk, hs]
    · rfl
  have hx (k : Key) : expiry { l with table := l.table.insert key e } k = l.expiry k := by
    simp only [expiry, hf]
    split_ifs with hk
    · simp [hk, hs, he]
    · rfl
  constructor
  case active =>
    intro kind k
    simp only [hm]
    exact h.active kind k
  case inactive =>
    intro k
    simp only [hm, hi]
    exact h.inactive k
  case live => exact fun k hk => (hi k).mpr (h.live k ((hm k).mp hk))
  case refcount =>
    intro k e' hk
    rw [hf] at hk
    split_ifs at hk with hkey
    · cases hk
      exact hkey ▸ hr
    · rw [hR k hkey]
      exact h.refcount hk
  case balance =>
    intro k e' hk
    rw [hf] at hk
    split_ifs at hk with hkey
    · cases hk
      exact hkey ▸ hb
    · rw [hB k hkey]
      exact h.balance hk
  case absent =>
    intro k hk
    rw [hf] at hk
    split_ifs at hk with hkey
    rw [hB k hkey]
    exact h.absent hk
  case ordered => simpa only [hx] using h.ordered
  case recent => simpa only [hx] using h.recent

theorem exists_of_mem (hk : key ∈ R) : ∃ entry, l.table.find? key = some entry :=
  Option.isSome_iff_exists.mp (h.live key hk)

theorem acquire (hk : key ∈ R) : Tracks (l.acquire key) (key ::ₘ R) B now := by
  have ⟨entry, hs⟩ := h.exists_of_mem hk
  have hb := h.balance hs
  rw [Logic.acquire, modify, hs]
  refine h.insert hs ?_ rfl ?_ ?_ ?_ fun _ _ => rfl
  · simp [hk]
  · simp [h.refcount hs]
  · exact hb
  · exact fun k hk => count_cons_of_ne hk R

theorem addRemoteBalance (hk : key ∈ R) (b : Int) :
    Tracks (l.addRemoteBalance key b) R (fun k => B k + if k = key then b else 0) now := by
  have ⟨entry, hs⟩ := h.exists_of_mem hk
  have hr := h.refcount hs
  rw [Logic.addRemoteBalance, modify, hs]
  refine h.insert hs (fun _ => Iff.rfl) rfl ?_ ?_ (fun _ _ => rfl) ?_
  · exact hr
  · simp [h.balance hs]
  · exact fun k hk => by simp [hk]

theorem newEndpoint_eq (hk : key ∉ R) :
    ∃ e : Entry, (l.newEndpoint key = (some key, { l with
      table := l.table.insert key e
      inactive := l.inactive.erase key
      active := update l.active key.kind (l.active key.kind ++ [key]) })) ∧
      (e.refcount = 1) ∧ (e.remote_balance = B key) := by
  simp only [Logic.newEndpoint, pushActive]
  cases hs : l.table.find? key
  case none =>
    have hn : key ∉ l.inactive := by simp [h.mem_inactive, hs]
    exact ⟨{ refcount := 1 }, by simp [List.erase_of_not_mem hn], rfl, (h.absent hs).symm⟩
  case some entry =>
    have hr := h.refcount hs
    rw [count_eq_zero.mpr hk] at hr
    have hb := h.balance hs
    exact ⟨{ entry with refcount := 1 }, by simp [hr], rfl, hb⟩

theorem newEndpoint (key : Key) :
    ((l.newEndpoint key).1 = some key) ∧ Tracks (l.newEndpoint key).2 (key ::ₘ R) B now := by
  by_cases hk : key ∈ R
  case pos =>
    obtain ⟨entry, hs⟩ := h.exists_of_mem hk
    have hr : entry.refcount + 1 ≠ 1 := by
      have := count_pos.mpr hk
      rw [h.refcount hs]
      omega
    have ha := h.acquire hk
    rw [Logic.acquire, modify, hs] at ha
    simpa [Logic.newEndpoint, hs, hr] using ha
  case neg =>
    have hc := count_eq_zero.mpr hk
    obtain ⟨e, hl, hr, hb⟩ := h.newEndpoint_eq hk
    rw [hl]
    refine ⟨rfl, ?_⟩
    have hf (k : Key) : (l.table.insert key e).find? k =
        if k = key then some e else l.table.find? k := HashMap.find?_insert ..
    constructor
    case active =>
      intro kind k
      have ha := h.active kind k
      by_cases hkind : kind = key.kind
      case pos =>
        subst hkind
        simp only [update_self, List.count_append, ha, mem_cons,
          List.count_singleton, beq_iff_eq]
        by_cases hkey : k = key
        · simp [hkey, hk]
        · simp [hkey, Ne.symm hkey]
      case neg =>
        simp only [update_of_ne hkind, ha, mem_cons]
        refine if_congr (and_congr_right fun hkk => ?_) rfl rfl
        exact ⟨.inr, fun h' => h'.resolve_left fun he => hkind (he ▸ hkk.symm)⟩
    case inactive =>
      intro k
      simp only [hf, List.count_erase, h.inactive, mem_cons, beq_iff_eq]
      by_cases hkey : k = key
      · simp only [hkey]
        split_ifs <;> simp_all
      · simp [hkey, Ne.symm hkey]
    case live =>
      intro k hk
      rw [hf]
      split_ifs with hkey
      · rfl
      · exact h.live k ((mem_cons.mp hk).resolve_left hkey)
    case refcount =>
      intro k e' hk
      rw [hf] at hk
      split_ifs at hk with hkey
      · cases hk
        rw [hkey, count_cons_self, hc, hr]
        rfl
      · rw [count_cons_of_ne hkey, h.refcount hk]
    case balance =>
      intro k e' hk
      rw [hf] at hk
      split_ifs at hk with hkey
      · cases hk
        rw [hkey, hb]
      · exact h.balance hk
    case absent =>
      intro k hk
      rw [hf] at hk
      split_ifs at hk
      exact h.absent hk
    case ordered =>
      refine ordered_congr (h.ordered.sublist List.erase_sublist) fun k hk => ?_
      rw [hf, if_neg (h.ne_of_mem_erase hk)]
    case recent =>
      intro k hk
      rw [expiry, hf, if_neg (h.ne_of_mem_erase hk)]
      exact h.recent k (List.mem_of_mem_erase hk)

end

theorem release (h : Tracks l (key ::ₘ R) B now) : Tracks (l.release key now) R B now := by
  have ⟨entry, hs⟩ := h.exists_of_mem (mem_cons_self key R)
  have hb := h.balance hs
  have hr := h.refcount hs
  rw [count_cons_self] at hr
  rw [Logic.release, hs]
  by_cases hk : key ∈ R
  case pos =>
    have hc := count_pos.mpr hk
    have hn : ¬entry.refcount - 1 = 0 := by
      omega
    simp only [if_neg hn]
    refine h.insert hs ?_ rfl ?_ ?_ ?_ fun _ _ => rfl
    · simp [hk]
    · simp [hr]
    · exact hb
    · exact fun k hk => (count_cons_of_ne hk R).symm
  case neg =>
    have hz : entry.refcount - 1 = 0 := by
      rw [hr, count_eq_zero.mpr hk]
      rfl
    simp only [if_pos hz, eraseActive]
    have hn : key ∉ l.inactive := by simp [h.mem_inactive]
    have hne {k : Key} (hk : k ∈ l.inactive) : k ≠ key := fun he => hn (he ▸ hk)
    have hf (k : Key) : (l.table.insert key { entry with
        refcount := entry.refcount - 1
        whenExpires := now + secondsUntilExpiration }).find? k = if k = key then some { entry with
        refcount := entry.refcount - 1
        whenExpires := now + secondsUntilExpiration } else l.table.find? k :=
      HashMap.find?_insert ..
    constructor
    case active =>
      intro kind k
      have ha := h.active kind k
      by_cases hkind : kind = key.kind
      case pos =>
        subst hkind
        simp only [update_self, List.count_erase, ha, mem_cons, beq_iff_eq]
        by_cases hkey : k = key
        · simp [hkey, hk]
        · simp [hkey, Ne.symm hkey]
      case neg =>
        simp only [update_of_ne hkind, ha, mem_cons]
        refine if_congr (and_congr_right fun hkk => ?_) rfl rfl
        exact ⟨fun h' => h'.resolve_left fun he => hkind (he ▸ hkk.symm), .inr⟩
    case inactive =>
      intro k
      simp only [hf, List.count_append, h.inactive, mem_cons, List.count_singleton, beq_iff_eq]
      by_cases hkey : k = key
      · simp [hkey, hk]
      · simp [hkey, Ne.symm hkey]
    case live =>
      intro k hk
      rw [hf]
      split_ifs
      · rfl
      · exact h.live k (mem_cons_of_mem hk)
    case refcount =>
      intro k e' hk
      rw [hf] at hk
      split_ifs at hk with hkey
      · cases hk
        rw [hkey]
        simp [hr]
      · rw [h.refcount hk, count_cons_of_ne hkey]
    case balance =>
      intro k e' hk
      rw [hf] at hk
      split_ifs at hk with hkey
      · cases hk
        rw [hkey]
        exact hb
      · exact h.balance hk
    case absent =>
      intro k hk
      rw [hf] at hk
      split_ifs at hk
      exact h.absent hk
    case ordered =>
      refine List.pairwise_append.mpr ⟨ordered_congr h.ordered fun k hk => ?_,
        List.pairwise_singleton .., fun a ha b hb => ?_⟩
      · rw [hf, if_neg (hne hk)]
      · rw [List.mem_singleton] at hb
        simp only [expiry, hf, hb, if_neg (hne ha)]
        exact h.recent a ha
    case recent =>
      refine List.forall_mem_append.mpr ⟨fun k hk => ?_, fun k hk => ?_⟩
      · simp only [expiry, hf, if_neg (hne hk)]
        exact h.recent k hk
      · rw [List.mem_singleton] at hk
        simp [expiry, hf, hk]

theorem find?_erase (l : Logic) (key k : Key) :
    (l.erase key).table.find? k = if k = key then none else l.table.find? k :=
  HashMap.find?_erase ..

theorem erase (h : Tracks l R B now) (hk : key ∈ l.inactive) (hB : B key = 0) :
    Tracks (l.erase key) R B now := by
  have hR := (h.mem_inactive.mp hk).2
  constructor
  case active => exact h.active
  case inactive =>
    intro k
    simp only [find?_erase]
    simp only [Logic.erase, List.count_erase, h.inactive, beq_iff_eq]
    by_cases hkey : k = key
    · simp only [hkey]
      split_ifs <;> simp_all
    · simp [hkey, Ne.symm hkey]
  case live =>
    intro k hk
    rw [find?_erase, if_neg fun he : k = key => hR (he ▸ hk)]
    exact h.live k hk
  case refcount =>
    intro k e hk
    rw [find?_erase] at hk
    split_ifs at hk
    exact h.refcount hk
  case balance =>
    intro k e hk
    rw [find?_erase] at hk
    split_ifs at hk
    exact h.balance hk
  case absent =>
    intro k hk
    rw [find?_erase] at hk
    split_ifs at hk with hkey
    · rw [hkey, hB]
    · exact h.absent hk
  case ordered =>
    refine ordered_congr (h.ordered.sublist List.erase_sublist) fun k hk => ?_
    rw [find?_erase, if_neg (h.ne_of_mem_erase hk)]
  case recent =>
    intro k hk
    rw [expiry, find?_erase, if_neg (h.ne_of_mem_erase hk)]
    exact h.recent k (List.mem_of_mem_erase hk)

-- The sweep removes the entries at the front of the inactive ones whose time has passed. The others
-- have not expired because of the order.
theorem expireEntries (h : Tracks l R B now) (hB : ∀ key ∉ R, B key = 0) (t : Nat) :
    Tracks (l.expireEntries t l.inactive) R B now ∧
    ((l.expireEntries t l.inactive).importTable = l.importTable) ∧
    ∀ key, (l.expireEntries t l.inactive).table.find? key =
      if key ∈ l.inactive ∧ l.expiry key ≤ t then none else l.table.find? key := by
  generalize hks : l.inactive = keys
  induction keys generalizing l
  case nil => exact ⟨h, rfl, by simp [Logic.expireEntries]⟩
  case cons key keys ih =>
    have hk : key ∈ l.inactive := by simp [hks]
    have ⟨entry, hs⟩ := Option.isSome_iff_exists.mp (h.mem_inactive.mp hk).1
    have hx : l.expiry key = entry.whenExpires := by simp [expiry, hs]
    simp only [Logic.expireEntries, hs]
    split_ifs with ht
    case pos =>
      have hi : (l.erase key).inactive = keys := by simp [Logic.erase, hks]
      have ⟨ht', hi', hf⟩ := ih (h.erase hk (hB key (h.mem_inactive.mp hk).2)) hi
      refine ⟨ht', hi', fun k => ?_⟩
      rw [hf]
      by_cases hkey : k = key
      · simp [hkey, hx, ht, find?_erase]
      · have : (l.erase key).expiry k = l.expiry k := by
          rw [expiry, find?_erase, if_neg hkey, expiry]
        simp [hkey, this, find?_erase]
    case neg =>
      refine ⟨h, rfl, fun k => (if_neg fun hc => ?_).symm⟩
      have ho := h.ordered
      rw [hks, List.pairwise_cons] at ho
      obtain rfl | hc' := List.mem_cons.mp hc.1
      · exact ht (hx ▸ hc.2)
      · exact ht (hx ▸ (ho.1 k hc').trans hc.2)

end Tracks

end Resource.Logic
