import Bixd.Ledger.Theorems.Views

open ApplyStateTable Function SLEPtr

-- What calls of an `ApplyView` do to the entries that it has.

open Overlay

namespace ApplyView

variable {p : SLEPtr} {k : Keylet}
variable {s : SLE}

-- The view has the entries `M`, on top of a base that has the entries `B`.
structure Shows (B M : UInt256 → Option SLE) (v : ApplyView) : Prop where
  base  : v.base.Denotes B
  fits  : v.items.Fits B
  state : overlay v.items.changes B = M

-- The view `v` has become `v'`, which has the entries `M`. The entries that have been obtained from
-- `v` are known to `v'` if it still has them.
structure Edits (B : UInt256 → Option SLE) (v : ApplyView) (M : UInt256 → Option SLE)
    (v' : ApplyView) : Prop where
  base  : v'.base = v.base
  shows : v'.Shows B M
  drops : v'.items.dropsDestroyed = v.items.dropsDestroyed
  holds : ∀ q, v.items.Holds q → (M q.key).isSome → v'.items.Holds q

theorem Shows.init {r : ReadView} (h : r.Denotes M) : Shows M M ⟨r, {}⟩ where
  base := h
  fits := fits_empty
  state := rfl

theorem Shows.denotes (h : Shows B M v) : v.view.Denotes M := by
  have hd := ApplyView.denotes (c := ⟨B, 0, fun _ => none⟩) h.base h.fits
  exact h.state ▸ hd

theorem Shows.read (h : Shows B M v) (k : Keylet) : v.view.read k = (M k.key).filter k.check :=
  h.denotes.read k

theorem Shows.unique (h : Shows B M v) (h' : Shows B' M' v) : M = M' := by
  have hread {B M : UInt256 → Option SLE} (h : Shows B M v) (n : UInt256) :
      v.view.read (.unchecked n) = M n := by
    rw [h.read]
    change (M n).filter _ = M n
    cases M n
    case none => rfl
    case some s => exact (Option.filter_some ..).trans (if_pos Keylet.check_unchecked)
  exact funext fun n => (hread h n).symm.trans (hread h' n)

theorem Shows.refl (h : Shows B M v) : Edits B v M v :=
  ⟨rfl, h, rfl, fun _ hq _ => hq⟩

theorem Shows.trans (hv : Shows B M v) (h : Edits B v M' v') (h' : Edits B v' M'' v'')
    (hm : ∀ k, (M k).isSome → (M'' k).isSome → (M' k).isSome) : Edits B v M'' v'' where
  base := h'.base.trans h.base
  shows := h'.shows
  drops := h'.drops.trans h.drops
  holds q hq hs := by
    have hq₀ : (M q.key).isSome := hv.state ▸ hq.isSome
    exact h'.holds q (h.holds q hq (hm _ hq₀ hs)) hs

theorem holds_put {t : ApplyStateTable} (hq : t.Holds q)
    (hp : p.key = q.key → (p.addr = q.addr) ∧ (a ≠ .erase)) : (t.put p a).Holds q := by
  unfold ApplyStateTable.Holds put
  rw [OrderedMap.find?_insert]
  split
  case isTrue h => exact ⟨a, p, rfl, (hp h.symm).left, (hp h.symm).right⟩
  case isFalse => exact hq

theorem holds_drop {t : ApplyStateTable} (hq : t.Holds q) (hp : q.key ≠ p.key) :
    (t.drop p).Holds q := by
  unfold ApplyStateTable.Holds drop
  rw [OrderedMap.find?_erase, if_neg hp]
  exact hq

theorem holds_update {t : ApplyStateTable} (h : t.update p = .ok t') (hq : t.Holds q) :
    t'.Holds q := by
  obtain ⟨a, p', hf, haddr, ha⟩ := holds_of_update h
  have hp (a' : ApplyStateTable.Action) (he : a' ≠ .erase) (hk : p.key = q.key) :
      (p.addr = q.addr) ∧ (a' ≠ .erase) := by
    obtain ⟨_, _, hf', haddr', _⟩ := hq
    rw [← hk, hf] at hf'
    cases hf'
    exact ⟨haddr.symm.trans haddr', he⟩
  simp only [ApplyStateTable.update, hf, haddr, ne_eq, not_true, if_false] at h
  cases a
  case erase => exact absurd rfl ha
  case insert => cases h; exact holds_put hq (hp _ (by simp))
  case cache => cases h; exact holds_put hq (hp _ (by simp))
  case modify => cases h; exact holds_put hq (hp _ (by simp))

theorem holds_erase {t : ApplyStateTable} (h : t.erase p = .ok t') (hq : t.Holds q)
    (hk : q.key ≠ p.key) : t'.Holds q := by
  have ⟨a, p', hf, haddr, ha⟩ := holds_of_erase h
  simp only [ApplyStateTable.erase, hf, haddr, ne_eq, not_true, if_false] at h
  cases a
  case erase => exact absurd rfl ha
  case insert => cases h; exact holds_drop hq hk
  case cache => cases h; exact holds_put hq fun hk' => absurd hk'.symm hk
  case modify => cases h; exact holds_put hq fun hk' => absurd hk'.symm hk

theorem holds_insert {t : ApplyStateTable} (h : t.insert p = .ok t') (hq : t.Holds q) :
    t'.Holds q := by
  have ⟨a, _, hf, _, ha⟩ := hq
  unfold ApplyStateTable.insert at h
  split at h
  case h_1 hn =>
    cases h
    refine holds_put hq fun hk => ?_
    rw [hk, hf] at hn
    cases hn
  case h_5 he =>
    cases h
    refine holds_put hq fun hk => ?_
    rw [hk, hf] at he
    cases he
    exact absurd rfl ha
  all_goals cases h

theorem holds_inserted {t : ApplyStateTable} (h : t.insert p = .ok t') : t'.Holds p := by
  have hput (a : ApplyStateTable.Action) (ha : a ≠ .erase) : (t.put p a).Holds p :=
    ⟨a, p, (OrderedMap.find?_insert ..).trans (if_pos rfl), rfl, ha⟩
  unfold ApplyStateTable.insert at h
  split at h
  case h_1 => cases h; exact hput _ nofun
  case h_5 => cases h; exact hput _ nofun
  all_goals cases h

theorem holds_peek {t : ApplyStateTable} {base : ReadView} (hb : base.Denotes B)
    (hq : t.Holds q) : (t.peek base k).2.Holds q := by
  unfold ApplyStateTable.peek
  split
  case h_1 hf =>
    split
    case h_1 => exact hq
    case h_2 s hr =>
      have ⟨hm, _⟩ := Option.filter_eq_some_iff.mp ((hb.read k).symm.trans hr)
      have hput : (t.put ⟨t.next, s⟩ .cache).Holds q := by
        refine holds_put hq fun hk => ?_
        have ⟨_, _, hf', _, _⟩ := hq
        have hs : key ⟨t.next, s⟩ = k.key := hb.keyed _ _ hm
        rw [← hk, hs, hf] at hf'
        cases hf'
      exact hput
  case h_2 => exact hq

theorem holds_sle {t : ApplyStateTable} (h : t.Holds p) (hs : s.key = p.key) :
    t.Holds { p with sle := s } := by
  unfold ApplyStateTable.Holds key
  rw [hs]
  exact h

theorem holds_set {t : ApplyStateTable} (h : t.Holds p) : t.Holds (p.set f x) :=
  h

section

variable (h : Shows B M v)

include h

theorem Shows.edits (hb : v.items.Becomes B M' t)
    (hh : ∀ q, v.items.Holds q → (M' q.key).isSome → t.Holds q) :
    Edits B v M' { v with items := t } where
  base := rfl
  shows := ⟨h.base, hb.fits, hb.state⟩
  drops := hb.drops
  holds := hh

theorem Shows.peek (k : Keylet) :
    ∃ v', (v.peek k).2 = v' ∧ Edits B v M v' ∧
      ((v.peek k).1.map sle = (M k.key).filter k.check) ∧
      ∀ p, (v.peek k).1 = some p → v'.items.Holds p := by
  have ⟨hb, hs, hh⟩ := peek_becomes h.base h.fits k
  rw [h.state] at hb hs
  exact ⟨_, rfl, h.edits hb fun q hq _ => holds_peek h.base hq, hs, fun p hp => (hh p hp).left⟩

theorem Shows.peek_some (hs : M k.key = some s) (hk : k.check s) :
    ∃ p v', v.peek k = (some p, v') ∧ Edits B v M v' ∧ v'.items.Holds p ∧ (p.sle = s) := by
  have ⟨v', hv', he, hm, hh⟩ := h.peek k
  rw [hs, Option.filter_some, if_pos hk] at hm
  have ⟨p, hp, hps⟩ := Option.map_eq_some_iff.mp hm
  exact ⟨p, v', Prod.ext hp hv', he, hh p hp, hps⟩

theorem Shows.peek_none (hs : (M k.key).filter k.check = none) :
    ∃ v', v.peek k = (none, v') ∧ Edits B v M v' := by
  have ⟨v', hv', he, hm, _⟩ := h.peek k
  rw [hs, Option.map_eq_none_iff] at hm
  exact ⟨v', Prod.ext hm hv', he⟩

theorem Shows.alloc (s : SLE) : ∃ p v', v.alloc s = (p, v') ∧ Edits B v M v' ∧ (p.sle = s) :=
  ⟨_, _, rfl, h.edits (t := { v.items with next := v.items.next + 1 })
    ⟨⟨h.fits.keyed, h.fits.fits⟩, h.state, rfl⟩ fun _ hq _ => hq, rfl⟩

theorem Shows.insert (hk : p.key ≠ 0) (hn : M p.key = none) :
    ∃ v', v.insert p = .ok v' ∧ Edits B v (Function.update M p.key (some p.sle)) v' ∧
      v'.items.Holds p := by
  have ⟨t, ht, hb⟩ := insert_becomes h.fits hk (h.state.symm ▸ hn)
  rw [h.state] at hb
  exact ⟨_, bind_items ht, h.edits hb fun q hq _ => holds_insert ht hq, holds_inserted ht⟩

theorem Shows.update (hp : v.items.Holds p) :
    ∃ v', v.update p = .ok v' ∧ Edits B v (Function.update M p.key (some p.sle)) v' := by
  have ⟨t, ht, hb⟩ := update_becomes h.fits hp
  rw [h.state] at hb
  exact ⟨_, bind_items ht, h.edits hb fun q hq _ => holds_update ht hq⟩

theorem Shows.erase (hp : v.items.Holds p) :
    ∃ v', v.erase p = .ok v' ∧ Edits B v (Function.update M p.key none) v' := by
  have ⟨t, ht, hb⟩ := erase_becomes h.fits hp
  rw [h.state] at hb
  refine ⟨_, bind_items ht, h.edits hb fun q hq hs => holds_erase ht hq fun hk => ?_⟩
  rw [hk, update_self] at hs
  cases hs

end

-- The pointer is the view's to the entry under a key.
structure Obtained (v : ApplyView) (M : UInt256 → Option SLE) (n : UInt256) (p : SLEPtr) :
    Prop where
  holds : v.items.Holds p
  key   : p.key = n
  entry : M n = some p.sle

theorem Obtained.edits (hp : Obtained v M n p) (h : Edits B v M' v') (hm : M' n = M n) :
    Obtained v' M' n p where
  holds := by
    refine h.holds p hp.holds ?_
    rw [hp.key, hm, hp.entry]
    rfl
  key := hp.key
  entry := hm.trans hp.entry

section

variable (h : Shows B M v)

include h

theorem Shows.obtain (hs : M k.key = some s) (hk : k.check s) :
    ∃ p v', v.peek k = (some p, v') ∧ Edits B v M v' ∧ Obtained v' M k.key p ∧ (p.sle = s) := by
  have ⟨p, v', hp, he, hh, hps⟩ := h.peek_some hs hk
  exact ⟨p, v', hp, he, ⟨hh, (congrArg SLE.key hps).trans (h.denotes.keyed _ _ hs), hps ▸ hs⟩, hps⟩

theorem Shows.set (hp : Obtained v M n p) (hs : s.key = p.sle.key) :
    ∃ v', v.update { p with sle := s } = .ok v' ∧
      Edits B v (Function.update M n (some s)) v' ∧
      Obtained v' (Function.update M n (some s)) n { p with sle := s } := by
  have ⟨v', hv', he⟩ := h.update (holds_sle hp.holds hs)
  have hk : key { p with sle := s } = n := hs.trans hp.key
  rw [hk] at he
  refine ⟨v', hv', he, he.holds _ (holds_sle hp.holds hs) ?_, hk, update_self ..⟩
  rw [hk, update_self]
  rfl

theorem Shows.remove (hp : Obtained v M n p) :
    ∃ v', v.erase p = .ok v' ∧ Edits B v (Function.update M n none) v' := by
  have ⟨v', hv', he⟩ := h.erase hp.holds
  rw [hp.key] at he
  exact ⟨v', hv', he⟩

theorem Shows.peekOrInsert (hk : k.key ≠ 0) (hc : ∀ s, M k.key = some s → k.check s) :
    ∃ p v', v.peekOrInsert k = .ok (p, v') ∧
      Edits B v (Function.update M k.key (some p.sle)) v' ∧ v'.items.Holds p ∧ (p.key = k.key) ∧
      (p.sle = (M k.key).getD (.make k.type k.key)) := by
  unfold ApplyView.peekOrInsert
  cases hm : M k.key
  case some s =>
    have ⟨p, v', hp, he, hh, hs⟩ := h.peek_some hm (hc s hm)
    refine ⟨p, v', by rw [hp], ?_, hh, ?_, hs⟩
    · rwa [hs, ← hm, update_eq_self]
    · rw [key, hs]
      exact h.denotes.keyed _ _ hm
  case none =>
    have ⟨v₁, hp, he₁⟩ := h.peek_none (k := k) (by rw [hm]; rfl)
    have ⟨p, v₂, hp₂, he₂, hs⟩ := he₁.shows.alloc (.make k.type k.key)
    have hpk : p.key = k.key := by rw [key, hs]; rfl
    have ⟨v₃, hp₃, he₃, hh⟩ := he₂.shows.insert (p := p) (hpk ▸ hk) (hpk ▸ hm)
    rw [hpk] at he₃
    refine ⟨p, v₃, ?_, ?_, hh, hpk, hs⟩
    · rw [hp]
      simp only [hp₂, hp₃]
      rfl
    · refine h.trans he₁ (he₁.shows.trans he₂ he₃ ?_) ?_ <;> intro n hn _ <;> exact hn

theorem Shows.peekOrInsert_update (hk : k.key ≠ 0) (hc : ∀ s, M k.key = some s → k.check s) :
    ∃ p v', v.peekOrInsert k = .ok (p, v') ∧ (v'.base = v.base) ∧
      (p.sle = (M k.key).getD (.make k.type k.key)) ∧
      ∀ s, s.key = p.sle.key → ∃ v'', v'.update { p with sle := s } = .ok v'' ∧
        v''.Shows B (Function.update M k.key (some s)) := by
  have ⟨p, v', hp, he, hh, hpk, hs⟩ := h.peekOrInsert hk hc
  refine ⟨p, v', hp, he.base, hs, fun s hsk => ?_⟩
  have ⟨v'', hv'', he'⟩ := he.shows.update (holds_sle hh hsk)
  have hpk' : key { p with sle := s } = k.key := hsk.trans hpk
  rw [hpk', update_idem] at he'
  exact ⟨v'', hv'', he'.shows⟩

end

theorem Shows.apply {l : ReadView.Ledger} (h : Shows l.contents.state M v) :
    ∃ l', v.apply l = .ok l' ∧ l.Like l' ∧ (l'.contents.state = M) ∧
      (l'.contents.drops = l.contents.drops - v.items.dropsDestroyed) ∧
      (l'.contents.txs = l.contents.txs) := by
  have ⟨l', hl', hlike, hc⟩ :=
    apply_lawful (ReadView.Ledger.lawful l).raw ⟨.refl, rfl⟩ h.fits
  refine ⟨l', hl', hlike, ?_, ?_, ?_⟩
  · rw [hc]; exact h.state
  · rw [hc]
  · rw [hc]

end ApplyView
