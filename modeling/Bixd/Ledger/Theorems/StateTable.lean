import Bixd.Ledger.StateTable

open Overlay OrderedMap Function StateTable

namespace Contents

theorem put_eq_self {c : Contents} (h : c.state k = x) : c.put k x = c := by
  rw [put, ← h, update_eq_self]

end Contents

namespace ReadView

-- The view answers as the map does. The type of a keylet has to fit for `exists`.
structure Denotes (r : ReadView) (M : UInt256 → Option SLE) : Prop where
  keyed   : ∀ k s, M k = some s → s.key = k
  nonzero : M 0 = none
  read    : ∀ k, r.read k = (M k.key).filter k.check
  exists_ : ∀ k, (∀ s, M k.key = some s → k.check s) → r.exists_ k = (M k.key).isSome
  succ    : ∀ k last, IsSucc (fun n => (M n).isSome) k last (r.succ k last)

end ReadView

namespace StateTable

variable {A : Type} {items : OrderedMap UInt256 (A × SLEPtr)} {base : ReadView}
variable {a : A} {p : SLEPtr}

def new (erased : A → Bool) (item : A × SLEPtr) : Option SLE :=
  if erased item.1 then none else some item.2.sle

def changes (erased : A → Bool) (items : OrderedMap UInt256 (A × SLEPtr)) (k : UInt256) :
    Option (Option SLE) :=
  (items.find? k).map (new erased)

-- Entries are in the table under their own keys.
def Keyed (items : OrderedMap UInt256 (A × SLEPtr)) : Prop :=
  ∀ k a p, items.find? k = some (a, p) → p.key = k ∧ k ≠ 0

theorem changes_insert : changes erased (items.insert k (a, p)) =
    update (changes erased items) k (some (new erased (a, p))) := by
  funext n
  by_cases h : n = k
  case pos => subst h; simp [changes, find?_insert]
  case neg => simp [changes, find?_insert, h]

theorem changes_erase : changes erased (items.erase k) =
    update (changes erased items) k none := by
  funext n
  by_cases h : n = k
  case pos => subst h; simp [changes, find?_erase]
  case neg => simp [changes, find?_erase, h]

theorem forall_insert {P : UInt256 → A → SLEPtr → Prop}
    (h : ∀ k a p, items.find? k = some (a, p) → P k a p) (hp : P p.key a p) :
    ∀ k a' p', (items.insert p.key (a, p)).find? k = some (a', p') → P k a' p' := by
  intro n a' p' hn
  rw [find?_insert] at hn
  split at hn
  case isTrue hk => cases hn; exact hk ▸ hp
  case isFalse => exact h n a' p' hn

theorem forall_erase {P : UInt256 → A → SLEPtr → Prop}
    (h : ∀ k a p, items.find? k = some (a, p) → P k a p) :
    ∀ k a' p', (items.erase p.key).find? k = some (a', p') → P k a' p' := by
  intro n a' p' hn
  rw [find?_erase] at hn
  have ⟨_, hn⟩ := Option.ite_none_left_eq_some.mp hn
  exact h n a' p' hn

theorem Keyed.insert (h : Keyed items) (hp : p.key ≠ 0) : Keyed (items.insert p.key (a, p)) :=
  forall_insert h ⟨rfl, hp⟩

theorem Keyed.erase (h : Keyed items) : Keyed (items.erase p.key) :=
  forall_erase h

theorem overlay_of_find? (h : items.find? k = some (a, p)) :
    overlay (changes erased items) M k = if erased a then none else some p.sle :=
  overlay_of_some (by rw [changes, h]; rfl)

theorem overlay_of_find?_none (h : items.find? k = none) : overlay (changes erased items) M k = M k :=
  overlay_of_none (by rw [changes, h]; rfl)

section

variable (hb : base.Denotes M)

include hb

theorem read_eq (k : Keylet) :
    read erased items base k = (overlay (changes erased items) M k.key).filter k.check := by
  unfold read
  split
  case h_1 h => rw [overlay_of_find?_none h, hb.read]
  case h_2 a p h =>
    rw [overlay_of_find? h]
    split
    case isTrue => rfl
    case isFalse => simp [Option.filter]

theorem exists_eq (k : Keylet)
    (hk : ∀ s, overlay (changes erased items) M k.key = some s → k.check s) :
    exists_ erased items base k = (overlay (changes erased items) M k.key).isSome := by
  unfold exists_
  split
  case h_1 h =>
    rw [overlay_of_find?_none h] at hk ⊢
    exact hb.exists_ k hk
  case h_2 a p h =>
    rw [overlay_of_find? h] at hk ⊢
    split
    case isTrue => rfl
    case isFalse he => rw [if_neg he] at hk; exact hk p.sle rfl

theorem succ_isSucc (key : UInt256) (last : Option UInt256) :
    IsSucc (fun n => (overlay (changes erased items) M n).isSome) key last
      (succ erased items base key last) := by
  have hskip := skip_map_isSucc items (erased ·.1) (fun k => hb.succ k last) key
  refine (merge_isSucc hskip firstAbove_isSucc).congr fun n => ?_
  cases h : items.find? n
  case none => simp [overlay, changes, h]
  case some item => by_cases he : erased item.1 <;> simp [overlay, changes, new, h, he]

theorem denotes (hk : Keyed items) {r : ReadView} (hr : ∀ k, r.read k = read erased items base k)
    (he : ∀ k, r.exists_ k = exists_ erased items base k)
    (hs : ∀ k last, r.succ k last = succ erased items base k last) :
    r.Denotes (overlay (changes erased items) M) where
  keyed k s h := by
    cases hf : items.find? k
    case none =>
      rw [overlay_of_find?_none hf] at h
      exact hb.keyed k s h
    case some item =>
      rw [overlay_of_find? hf] at h
      have ⟨_, h⟩ := Option.ite_none_left_eq_some.mp h
      cases h
      exact (hk k item.1 item.2 hf).left
  nonzero := by
    cases hf : items.find? 0
    case none => rw [overlay_of_find?_none hf, hb.nonzero]
    case some item => exact absurd rfl (hk 0 item.1 item.2 hf).right
  read k := (hr k).trans (read_eq hb k)
  exists_ k h := (he k).trans (exists_eq hb k h)
  succ k last := (hs k last) ▸ succ_isSucc hb k last

end

end StateTable

-- How changes are made one by one, to a view `v` whose contents `den` tells.
structure RawView.Lawful {V : Type} [RawView V] (den : V → Contents → Prop) : Prop where
  rawInsert : ∀ {v c p}, den v c → p.key ≠ 0 → c.state p.key = none →
    ∃ v', (RawView.rawInsert v p = .ok v') ∧ den v' (c.put p.key (some p.sle))
  rawReplace : ∀ {v c p}, den v c → (c.state p.key).isSome →
    ∃ v', (RawView.rawReplace v p = .ok v') ∧ den v' (c.put p.key (some p.sle))
  rawErase : ∀ {v c p}, den v c → (c.state p.key).isSome →
    ∃ v', (RawView.rawErase v p = .ok v') ∧ den v' (c.put p.key none)
  rawDestroyBIXRP : ∀ {v c fee}, den v c →
    den (RawView.rawDestroyBIXRP v fee) { c with drops := c.drops - fee }

namespace StateTable

theorem apply_lawful {V A : Type} [RawView V] {den : V → Contents → Prop} {erased : A → Bool}
    {f : V → A × SLEPtr → Except String V} {F : UInt256 → A × SLEPtr → Option SLE → Prop}
    {items : OrderedMap UInt256 (A × SLEPtr)}
    (hf : ∀ {v c k i}, den v c → F k i (c.state k) →
      ∃ v', (f v i = .ok v') ∧ den v' (c.put k (new erased i)))
    {v : V} (hd : den v c) (hF : ∀ k i, items.find? k = some i → F k i (c.state k)) :
    ∃ v', (items.toList.foldlM (fun v e => f v e.2) v = .ok v') ∧
      den v' { c with state := overlay (changes erased items) c.state } :=
  foldlM_map (D := fun v g => den v { c with state := g }) (f := fun v _ i => f v i)
    (fun hd h => hf hd h) hd hF

end StateTable

namespace ApplyStateTable

variable {t : ApplyStateTable} {p : SLEPtr} {a : Action}

def changes (t : ApplyStateTable) : UInt256 → Option (Option SLE) :=
  StateTable.changes (· = .erase) t.items

-- What an action says about the entry in the base.
def Action.Fits : Action → SLE → Option SLE → Prop
  | .cache, s, x  => x = some s
  | .insert, _, x => x = none
  | _, _, x       => x.isSome

theorem Action.Fits.isSome (h : a.Fits s x) (ha : a ≠ .insert) : x.isSome := by
  cases a
  case cache => rw [show x = some s from h]; rfl
  case insert => exact absurd rfl ha
  case erase => exact h
  case modify => exact h

-- A table with changes of the entries `M`.
structure Fits (t : ApplyStateTable) (M : UInt256 → Option SLE) : Prop where
  keyed : StateTable.Keyed t.items
  fits  : ∀ k a p, t.items.find? k = some (a, p) → a.Fits p.sle (M k)

theorem fits_empty : ({} : ApplyStateTable).Fits M where
  keyed := nofun
  fits := nofun

theorem contents_of_find? (h : t.items.find? k = some (a, p)) :
    overlay t.changes M k = if a = .erase then none else some p.sle := by
  simp [changes, overlay_of_find? h]

theorem contents_of_find?_none (h : t.items.find? k = none) : overlay t.changes M k = M k :=
  overlay_of_find?_none h

-- The changed table has the entries `M'`.
structure Becomes (M : UInt256 → Option SLE) (t : ApplyStateTable) (M' : UInt256 → Option SLE)
    (t' : ApplyStateTable) : Prop where
  fits   : t'.Fits M
  state  : overlay t'.changes M = M'
  drops  : t'.dropsDestroyed = t.dropsDestroyed

theorem Becomes.withNext (h : t.Becomes M M' t') (n : Addr) :
    t.Becomes M M' { t' with next := n } :=
  ⟨⟨h.fits.keyed, h.fits.fits⟩, h.state, h.drops⟩

theorem Fits.becomes_put (ht : t.Fits M) (hk : p.key ≠ 0) (ha : a.Fits p.sle (M p.key)) :
    t.Becomes M (Function.update (overlay t.changes M) p.key
      (if a = .erase then none else some p.sle)) (t.put p a) where
  fits := ⟨ht.keyed.insert hk, forall_insert ht.fits ha⟩
  state := by
    rw [changes, put, changes_insert, overlay_update, new]
    simp [changes]
  drops := rfl

theorem Fits.becomes_drop (ht : t.Fits M) (hn : M p.key = none) :
    t.Becomes M (Function.update (overlay t.changes M) p.key none) (t.drop p) where
  fits := ⟨ht.keyed.erase, forall_erase ht.fits⟩
  state := by rw [changes, drop, changes_erase, overlay_forget hn, changes]
  drops := rfl

section

variable (ht : t.Fits M) (hk : p.key ≠ 0)

include ht hk

theorem insert_becomes (hn : overlay t.changes M p.key = none) :
    ∃ t', (t.insert p = .ok t') ∧
      t.Becomes M (Function.update (overlay t.changes M) p.key (some p.sle)) t' := by
  unfold insert
  split
  case h_1 h =>
    rw [contents_of_find?_none h] at hn
    exact ⟨_, rfl, ht.becomes_put (a := .insert) hk hn⟩
  case h_5 h => exact ⟨_, rfl, ht.becomes_put (a := .modify) hk ((ht.fits _ _ _ h).isSome nofun)⟩
  all_goals
    rename_i h
    rw [contents_of_find? h] at hn
    cases hn

theorem replace_becomes (hs : (overlay t.changes M p.key).isSome) :
    ∃ t', (t.replace p = .ok t') ∧
      t.Becomes M (Function.update (overlay t.changes M) p.key (some p.sle)) t' := by
  unfold replace
  split
  case h_1 h =>
    rw [contents_of_find?_none h] at hs
    exact ⟨_, rfl, ht.becomes_put (a := .modify) hk hs⟩
  case h_2 h => rw [contents_of_find? h] at hs; cases hs
  case h_3 h =>
    have hn := ht.fits _ _ _ h
    exact ⟨_, rfl, ht.becomes_put (a := .insert) hk hn⟩
  case h_4 h => exact ⟨_, rfl, ht.becomes_put (a := .modify) hk ((ht.fits _ _ _ h).isSome nofun)⟩
  case h_5 h => exact ⟨_, rfl, ht.becomes_put (a := .modify) hk ((ht.fits _ _ _ h).isSome nofun)⟩

theorem rawErase_becomes (hs : (overlay t.changes M p.key).isSome) :
    ∃ t', (t.rawErase p = .ok t') ∧
      t.Becomes M (Function.update (overlay t.changes M) p.key none) t' := by
  unfold rawErase
  split
  case h_1 h =>
    rw [contents_of_find?_none h] at hs
    exact ⟨_, rfl, ht.becomes_put (a := .erase) hk hs⟩
  case h_2 h => rw [contents_of_find? h] at hs; cases hs
  case h_3 h => exact ⟨_, rfl, ht.becomes_drop (ht.fits _ _ _ h)⟩
  case h_4 h => exact ⟨_, rfl, ht.becomes_put (a := .erase) hk ((ht.fits _ _ _ h).isSome nofun)⟩
  case h_5 h => exact ⟨_, rfl, ht.becomes_put (a := .erase) hk ((ht.fits _ _ _ h).isSome nofun)⟩

end

-- The entry has been peeked at or inserted, and has not been erased since.
def Holds (t : ApplyStateTable) (p : SLEPtr) : Prop :=
  ∃ a q, (t.items.find? p.key = some (a, q)) ∧ (q.addr = p.addr) ∧ (a ≠ .erase)

theorem Holds.isSome (h : t.Holds p) : (overlay t.changes M p.key).isSome := by
  have ⟨a, q, hf, _, ha⟩ := h
  rw [contents_of_find? hf, if_neg ha]
  rfl

theorem update_becomes (ht : t.Fits M) (hp : t.Holds p) :
    ∃ t', (t.update p = .ok t') ∧
      t.Becomes M (Function.update (overlay t.changes M) p.key (some p.sle)) t' := by
  have ⟨a, q, hf, haddr, ha⟩ := hp
  have hk : p.key ≠ 0 := (ht.keyed _ _ _ hf).right
  have hfits := ht.fits _ _ _ hf
  simp only [update, hf, haddr, ne_eq, not_true, if_false]
  cases a
  case erase => exact absurd rfl ha
  case insert => exact ⟨_, rfl, ht.becomes_put (a := .insert) hk hfits⟩
  case cache => exact ⟨_, rfl, ht.becomes_put (a := .modify) hk (hfits.isSome nofun)⟩
  case modify => exact ⟨_, rfl, ht.becomes_put (a := .modify) hk (hfits.isSome nofun)⟩

theorem erase_becomes (ht : t.Fits M) (hp : t.Holds p) :
    ∃ t', (t.erase p = .ok t') ∧
      t.Becomes M (Function.update (overlay t.changes M) p.key none) t' := by
  have ⟨a, q, hf, haddr, ha⟩ := hp
  have hk : p.key ≠ 0 := (ht.keyed _ _ _ hf).right
  have hfits := ht.fits _ _ _ hf
  simp only [erase, hf, haddr, ne_eq, not_true, if_false]
  cases a
  case erase => exact absurd rfl ha
  case insert => exact ⟨_, rfl, ht.becomes_drop hfits⟩
  case cache => exact ⟨_, rfl, ht.becomes_put (a := .erase) hk (hfits.isSome nofun)⟩
  case modify => exact ⟨_, rfl, ht.becomes_put (a := .erase) hk (hfits.isSome nofun)⟩

-- Otherwise there is a `LogicError`.
theorem holds_of_update (h : t.update p = .ok t') : t.Holds p := by
  unfold update at h
  split at h
  case h_1 => cases h
  case h_2 a q hf =>
    split at h
    case isTrue => cases h
    case isFalse ha =>
      refine ⟨a, q, hf, not_not.mp ha, fun he => ?_⟩
      subst he
      cases h

theorem holds_of_erase (h : t.erase p = .ok t') : t.Holds p := by
  unfold erase at h
  split at h
  case h_1 => cases h
  case h_2 a q hf =>
    split at h
    case isTrue => cases h
    case isFalse ha =>
      refine ⟨a, q, hf, not_not.mp ha, fun he => ?_⟩
      subst he
      cases h

theorem peek_becomes {base : ReadView} (hb : base.Denotes M) (ht : t.Fits M) (k : Keylet) :
    t.Becomes M (overlay t.changes M) (t.peek base k).2 ∧
      ((t.peek base k).1.map SLEPtr.sle = (overlay t.changes M k.key).filter k.check) ∧
      ∀ p, (t.peek base k).1 = some p → (t.peek base k).2.Holds p ∧ (p.key = k.key) := by
  have hrefl : t.Becomes M (overlay t.changes M) t := ⟨ht, rfl, rfl⟩
  unfold peek
  split
  case h_1 hf =>
    have hread := hb.read k
    rw [contents_of_find?_none hf]
    split
    case h_1 hr => exact ⟨hrefl, by rw [← hread, hr]; rfl, nofun⟩
    case h_2 s hr =>
      rw [hr] at hread
      have ⟨hm, _⟩ := Option.filter_eq_some_iff.mp hread.symm
      have hp : SLEPtr.key ⟨t.next, s⟩ = k.key := hb.keyed _ _ hm
      have hk : SLEPtr.key ⟨t.next, s⟩ ≠ 0 := by
        intro h
        rw [← hp, h, hb.nonzero] at hm
        cases hm
      have hput : t.Becomes M (overlay t.changes M) (t.put ⟨t.next, s⟩ .cache) := by
        have h := ht.becomes_put (a := .cache) hk (by rw [hp]; exact hm)
        rwa [if_neg nofun, hp, ← hm, ← contents_of_find?_none (M := M) hf, Function.update_eq_self] at h
      refine ⟨hput.withNext _, by rw [← hread]; rfl, ?_⟩
      rintro p ⟨⟩
      refine ⟨⟨.cache, ⟨t.next, s⟩, ?_, rfl, nofun⟩, hp⟩
      exact (find?_insert ..).trans (if_pos rfl)
  case h_2 a q hf =>
    refine ⟨hrefl, ?_, fun p hp => ?_⟩
    · rw [contents_of_find? hf]
      by_cases ha : a = .erase
      case pos => simp [ha]
      case neg => by_cases hc : k.check q.sle <;> simp [ha, hc, Option.filter]
    · dsimp only at hp
      have ⟨ha, hp⟩ := Option.ite_none_left_eq_some.mp hp
      split at hp
      case isFalse => cases hp
      cases hp
      have hkey := (ht.keyed _ _ _ hf).left
      exact ⟨⟨a, q, hkey ▸ hf, rfl, ha⟩, hkey⟩

theorem apply_lawful {V : Type} [RawView V] {den : V → Contents → Prop}
    (hl : RawView.Lawful den) {v : V} {c : Contents} (hd : den v c) (ht : t.Fits c.state) :
    ∃ v', (t.apply v = .ok v') ∧
      den v' { c with state := overlay t.changes c.state, drops := c.drops - t.dropsDestroyed } := by
  refine StateTable.apply_lawful
    (F := fun k i x => (i.2.key = k ∧ k ≠ 0) ∧ i.1.Fits i.2.sle x) ?_
    (hl.rawDestroyBIXRP hd) fun k i h => ⟨ht.keyed k i.1 i.2 h, ht.fits k i.1 i.2 h⟩
  rintro v c k ⟨a, p⟩ hd ⟨⟨rfl, hk⟩, hfits⟩
  cases a
  case cache =>
    have hc := Contents.put_eq_self hfits
    exact ⟨v, rfl, hc.symm ▸ hd⟩
  case erase => exact hl.rawErase hd hfits
  case insert => exact hl.rawInsert hd hk hfits
  case modify => exact hl.rawReplace hd hfits

end ApplyStateTable

namespace RawStateTable

variable {t : RawStateTable} {p : SLEPtr} {a : Action}

def changes (t : RawStateTable) : UInt256 → Option (Option SLE) :=
  StateTable.changes (· = .erase) t.items

def Action.Fits : Action → Option SLE → Prop
  | .insert, x => x = none
  | _, x       => x.isSome

structure Fits (t : RawStateTable) (M : UInt256 → Option SLE) : Prop where
  keyed : StateTable.Keyed t.items
  fits  : ∀ k a p, t.items.find? k = some (a, p) → a.Fits (M k)

theorem fits_empty : ({} : RawStateTable).Fits M where
  keyed := nofun
  fits := nofun

theorem contents_of_find? (h : t.items.find? k = some (a, p)) :
    overlay t.changes M k = if a = .erase then none else some p.sle := by
  simp [changes, overlay_of_find? h]

theorem contents_of_find?_none (h : t.items.find? k = none) : overlay t.changes M k = M k :=
  overlay_of_find?_none h

structure Becomes (M : UInt256 → Option SLE) (t : RawStateTable) (M' : UInt256 → Option SLE)
    (t' : RawStateTable) : Prop where
  fits   : t'.Fits M
  state  : overlay t'.changes M = M'
  drops  : t'.dropsDestroyed = t.dropsDestroyed

theorem Fits.becomes_put (ht : t.Fits M) (hk : p.key ≠ 0) (ha : a.Fits (M p.key)) :
    t.Becomes M (update (overlay t.changes M) p.key
      (if a = .erase then none else some p.sle)) (t.put p a) where
  fits := ⟨ht.keyed.insert hk, forall_insert ht.fits ha⟩
  state := by
    rw [changes, put, changes_insert, overlay_update, new]
    simp [changes]
  drops := rfl

theorem Fits.becomes_drop (ht : t.Fits M) (hn : M p.key = none) :
    t.Becomes M (update (overlay t.changes M) p.key none) (t.drop p) where
  fits := ⟨ht.keyed.erase, forall_erase ht.fits⟩
  state := by rw [changes, drop, changes_erase, overlay_forget hn, changes]
  drops := rfl

section

variable (ht : t.Fits M) (hk : p.key ≠ 0)

include ht hk

theorem insert_becomes (hn : overlay t.changes M p.key = none) :
    ∃ t', (t.insert p = .ok t') ∧
      t.Becomes M (update (overlay t.changes M) p.key (some p.sle)) t' := by
  unfold insert
  split
  case h_1 h =>
    rw [contents_of_find?_none h] at hn
    exact ⟨_, rfl, ht.becomes_put (a := .insert) hk hn⟩
  case h_2 h =>
    have hs := ht.fits _ _ _ h
    exact ⟨_, rfl, ht.becomes_put (a := .replace) hk hs⟩
  all_goals
    rename_i h
    rw [contents_of_find? h] at hn
    cases hn

theorem replace_becomes (hs : (overlay t.changes M p.key).isSome) :
    ∃ t', (t.replace p = .ok t') ∧
      t.Becomes M (update (overlay t.changes M) p.key (some p.sle)) t' := by
  unfold replace
  split
  case h_1 h =>
    rw [contents_of_find?_none h] at hs
    exact ⟨_, rfl, ht.becomes_put (a := .replace) hk hs⟩
  case h_2 h => rw [contents_of_find? h] at hs; cases hs
  case h_3 h => exact ⟨_, rfl, ht.becomes_put (a := .insert) hk (ht.fits _ _ _ h)⟩
  case h_4 h => exact ⟨_, rfl, ht.becomes_put (a := .replace) hk (ht.fits _ _ _ h)⟩

theorem erase_becomes (hs : (overlay t.changes M p.key).isSome) :
    ∃ t', (t.erase p = .ok t') ∧
      t.Becomes M (update (overlay t.changes M) p.key none) t' := by
  unfold erase
  split
  case h_1 h =>
    rw [contents_of_find?_none h] at hs
    exact ⟨_, rfl, ht.becomes_put (a := .erase) hk hs⟩
  case h_2 h => rw [contents_of_find? h] at hs; cases hs
  case h_3 h => exact ⟨_, rfl, ht.becomes_drop (ht.fits _ _ _ h)⟩
  case h_4 h =>
    have hs := ht.fits _ _ _ h
    exact ⟨_, rfl, ht.becomes_put (a := .erase) hk hs⟩

end

theorem apply_lawful {V : Type} [RawView V] {den : V → Contents → Prop}
    (hl : RawView.Lawful den) {v : V} {c : Contents} (hd : den v c) (ht : t.Fits c.state) :
    ∃ v', (t.apply v = .ok v') ∧
      den v' { c with state := overlay t.changes c.state, drops := c.drops - t.dropsDestroyed } := by
  refine StateTable.apply_lawful
    (F := fun k i x => (i.2.key = k ∧ k ≠ 0) ∧ i.1.Fits x) ?_
    (hl.rawDestroyBIXRP hd) fun k i h => ⟨ht.keyed k i.1 i.2 h, ht.fits k i.1 i.2 h⟩
  rintro v c k ⟨a, p⟩ hd ⟨⟨rfl, hk⟩, hfits⟩
  cases a
  case erase => exact hl.rawErase hd hfits
  case insert => exact hl.rawInsert hd hk hfits
  case replace => exact hl.rawReplace hd hfits

end RawStateTable
