import Bixd.Ledger.Theorems.Views

open OrderedMap Function ApplyStateTable

-- What calls of an `ApplyView` leave alone, whatever is in its table. For a purpose, only what
-- `look` sees of the entries matters.

namespace ApplyStateTable.Action

-- What an action can become when an entry is updated.
def Leads (a a' : Action) : Prop :=
  a' = a ∨ (a = .cache ∧ a' = .modify)

theorem Leads.refl (a : Action) : a.Leads a :=
  .inl rfl

theorem Leads.ne_erase {a : Action} (h : a.Leads a') (ha : a ≠ .erase) : a' ≠ .erase := by
  rcases h with rfl | ⟨_, rfl⟩
  · exact ha
  · nofun

theorem Leads.trans {a : Action} (h : a.Leads a') (h' : a'.Leads a'') : a.Leads a'' := by
  rcases h with rfl | ⟨rfl, rfl⟩
  · exact h'
  · rcases h' with rfl | ⟨h, _⟩
    · exact .inr ⟨rfl, rfl⟩
    · cases h

-- The action of an entry that is updated.
def updated (a : Action) : Action :=
  if a = .insert then .insert else .modify

theorem leads_updated {a : Action} (h : a ≠ .erase) : a.Leads a.updated := by
  cases a
  case cache => exact .inr ⟨rfl, rfl⟩
  case erase => exact absurd rfl h
  case insert => exact .inl rfl
  case modify => exact .inl rfl

theorem updated_cases (a : Action) : a.updated = .insert ∨ a.updated = .modify := by
  cases a <;> decide

end ApplyStateTable.Action

namespace ApplyView

variable {v v' : ApplyView} {p q : SLEPtr} {k : Keylet}
variable {B : UInt256 → Option SLE} {a : ApplyStateTable.Action}

-- What the table has under a key.
def item (v : ApplyView) (n : UInt256) : Option (ApplyStateTable.Action × SLEPtr) :=
  v.items.items.find? n

-- The view is on top of the entries `B`, and has entries under their own keys.
structure Over (B : UInt256 → Option SLE) (v : ApplyView) : Prop where
  base  : v.base.Denotes B
  keyed : ∀ n a p, v.item n = some (a, p) → p.key = n

theorem Over.init {r : ReadView} (h : r.Denotes B) : Over B ⟨r, {}⟩ where
  base := h
  keyed := nofun

theorem item_put (t : ApplyStateTable) :
    item { v with items := t.put p a } = Function.update t.items.find? p.key (some (a, p)) := by
  funext n
  rw [item, put, find?_insert, update_apply]

theorem item_drop (t : ApplyStateTable) :
    item { v with items := t.drop p } = Function.update t.items.find? p.key none := by
  funext n
  rw [item, drop, find?_erase, update_apply]

theorem Over.put (h : Over B v) (hb : v'.base = v.base)
    (hi : v'.item = Function.update v.item p.key (some (a, p))) : Over B v' where
  base := hb ▸ h.base
  keyed n a' p' hn := by
    rw [hi, update_apply] at hn
    split at hn
    case isTrue heq => cases hn; exact heq.symm
    case isFalse => exact h.keyed n a' p' hn

theorem Over.drop (h : Over B v) (hb : v'.base = v.base)
    (hi : v'.item = Function.update v.item n none) : Over B v' where
  base := hb ▸ h.base
  keyed m a' p' hm := by
    rw [hi, update_apply] at hm
    have ⟨_, hm⟩ := Option.ite_none_left_eq_some.mp hm
    exact h.keyed m a' p' hm

theorem peek_eq_some (hv : Over B v) (h : v.peek k = (some p, v')) :
    k.check p.sle ∧ (p.key = k.key) ∧ (v'.base = v.base) ∧
      ((∃ a, a ≠ .erase ∧ v.item k.key = some (a, p) ∧ v' = v) ∨
        (v.item k.key = none ∧ B k.key = some p.sle ∧
          v'.item = Function.update v.item k.key (some (.cache, p)))) := by
  unfold peek ApplyStateTable.peek at h
  split at h
  rename_i o t ho
  cases h
  split at ho
  case h_1 hf =>
    split at ho
    case h_1 => cases ho
    case h_2 s hr =>
      cases ho
      have ⟨hs, hc⟩ := Option.filter_eq_some_iff.mp ((hv.base.read k).symm.trans hr)
      have hk := hv.base.keyed _ _ hs
      refine ⟨hc, hk, rfl, .inr ⟨hf, hs, ?_⟩⟩
      exact hk ▸ item_put (v := v) (p := ⟨v.items.next, s⟩) v.items
  case h_2 a q hf =>
    split at ho
    case isTrue => cases ho
    case isFalse ha =>
      split at ho
      case isTrue hc =>
        cases ho
        exact ⟨hc, hv.keyed _ _ _ hf, rfl, .inl ⟨a, ha, hf, rfl⟩⟩
      case isFalse => cases ho

theorem peek_eq_none (hv : Over B v) (h : v.peek k = (none, v')) :
    v' = v ∧ (∀ a p, v.item k.key = some (a, p) → a ≠ .erase → ¬k.check p.sle) ∧
      (v.item k.key = none → ∀ s, B k.key = some s → ¬k.check s) := by
  unfold peek ApplyStateTable.peek at h
  split at h
  rename_i o t ho
  cases h
  split at ho
  case h_1 hf =>
    split at ho
    case h_2 => cases ho
    case h_1 hr =>
      cases ho
      refine ⟨rfl, fun a p hp => ?_, fun _ s hs hc => ?_⟩
      · rw [item, hf] at hp
        cases hp
      · rw [hv.base.read k, hs, Option.filter_some, if_pos hc] at hr
        cases hr
  case h_2 a q hf =>
    have heq : t = v.items := (congrArg Prod.snd ho).symm
    subst heq
    refine ⟨rfl, fun a' p' hp ha hc => ?_, fun hn => ?_⟩
    · rw [item, hf] at hp
      cases hp
      rw [if_neg ha, if_pos hc] at ho
      cases ho
    · rw [item, hf] at hn
      cases hn

theorem update_eq_ok (h : v.update p = .ok v') :
    ∃ a q, v.item p.key = some (a, q) ∧ a ≠ .erase ∧ (q.addr = p.addr) ∧ (v'.base = v.base) ∧
      v'.item = Function.update v.item p.key (some (a.updated, p)) := by
  have ⟨t, ht, he⟩ := Except.bind_eq_ok.mp h
  cases he
  have ⟨a, q, hf, haddr, ha⟩ := holds_of_update ht
  refine ⟨a, q, hf, ha, haddr, rfl, ?_⟩
  simp only [ApplyStateTable.update, hf, haddr, ne_eq, not_true, if_false] at ht
  cases a
  case erase => exact absurd rfl ha
  case cache => cases ht; exact item_put v.items
  case insert => cases ht; exact item_put v.items
  case modify => cases ht; exact item_put v.items

theorem erase_eq_ok (h : v.erase p = .ok v') :
    ∃ a q, v.item p.key = some (a, q) ∧ a ≠ .erase ∧ (q.addr = p.addr) ∧ (v'.base = v.base) ∧
      v'.item = Function.update v.item p.key (if a = .insert then none else some (.erase, p)) := by
  have ⟨t, ht, he⟩ := Except.bind_eq_ok.mp h
  cases he
  have ⟨a, q, hf, haddr, ha⟩ := holds_of_erase ht
  refine ⟨a, q, hf, ha, haddr, rfl, ?_⟩
  simp only [ApplyStateTable.erase, hf, haddr, ne_eq, not_true, if_false] at ht
  cases a
  case erase => exact absurd rfl ha
  case cache => cases ht; exact item_put v.items
  case insert => cases ht; exact item_drop v.items
  case modify => cases ht; exact item_put v.items

theorem insert_eq_ok (h : v.insert p = .ok v') :
    (v'.base = v.base) ∧
      ((v.item p.key = none ∧ v'.item = Function.update v.item p.key (some (.insert, p))) ∨
        (∃ q, v.item p.key = some (.erase, q) ∧
          v'.item = Function.update v.item p.key (some (.modify, p)))) := by
  have ⟨t, ht, he⟩ := Except.bind_eq_ok.mp h
  cases he
  refine ⟨rfl, ?_⟩
  unfold ApplyStateTable.insert at ht
  split at ht
  case h_1 hf => cases ht; exact .inl ⟨hf, item_put v.items⟩
  case h_5 q hf => cases ht; exact .inr ⟨q, hf, item_put v.items⟩
  all_goals cases ht

theorem item_alloc (h : v.alloc s = (p, v')) :
    (p.sle = s) ∧ (v'.base = v.base) ∧ (v'.item = v.item) := by
  cases h
  exact ⟨rfl, rfl, rfl⟩

section Look

variable {α : Type} {look : SLE → Option α}

-- Applying the table will not change what is seen under the key. An entry that is inserted over
-- one in the base cannot be applied.
def Quiet (look : SLE → Option α) (B : UInt256 → Option SLE) (v : ApplyView) (n : UInt256) : Prop :=
  match v.item n with
  | none => True
  | some (.cache, p) => look p.sle = (B n).bind look
  | some (.erase, _) => (B n).bind look = none
  | some (.insert, p) => look p.sle = none
  | some (.modify, p) => look p.sle = (B n).bind look

-- Nothing is seen of what the table has under the key.
def Dull (look : SLE → Option α) (v : ApplyView) (n : UInt256) : Prop :=
  ∀ a p, v.item n = some (a, p) → look p.sle = none

-- The view knows the entry, as far as is seen.
def Knows (look : SLE → Option α) (v : ApplyView) (p : SLEPtr) : Prop :=
  ∃ a q, v.item p.key = some (a, q) ∧ a ≠ .erase ∧ look q.sle = look p.sle

-- The view `v` has become `v'`. What is seen of the entries in the table is still seen, and what
-- was quiet is quiet.
structure Spares (look : SLE → Option α) (B : UInt256 → Option SLE) (v v' : ApplyView) : Prop where
  base  : v'.base = v.base
  atop  : v'.Over B
  keep  : ∀ n a p, v.item n = some (a, p) → a ≠ .erase → (look p.sle).isSome →
    ∃ a' p', v'.item n = some (a', p') ∧ a.Leads a' ∧ (p'.addr = p.addr) ∧ look p'.sle = look p.sle
  quiet : ∀ n, v.Quiet look B n → v'.Quiet look B n

-- Only entries of which nothing is seen have been touched.
structure Dulls (look : SLE → Option α) (B : UInt256 → Option SLE) (v v' : ApplyView) : Prop
    extends Spares look B v v' where
  dull : ∀ n, v.Dull look n → v'.Dull look n

theorem Quiet.init (n : UInt256) : Quiet look B ⟨r, {}⟩ n :=
  trivial

theorem Spares.refl (h : v.Over B) : Spares look B v v where
  base := rfl
  atop := h
  keep := fun _ a p hp _ _ => ⟨a, p, hp, .refl a, rfl, rfl⟩
  quiet := fun _ h => h

theorem Spares.trans (h : Spares look B v v') (h' : Spares look B v' v'') :
    Spares look B v v'' where
  base := h'.base.trans h.base
  atop := h'.atop
  keep := by
    intro n a p hp ha hs
    have ⟨a', p', hp', hl, haddr, hlook⟩ := h.keep n a p hp ha hs
    have ⟨a'', p'', hp'', hl', haddr', hlook'⟩ :=
      h'.keep n a' p' hp' (hl.ne_erase ha) (hlook.symm ▸ hs)
    exact ⟨a'', p'', hp'', hl.trans hl', haddr'.trans haddr, hlook'.trans hlook⟩
  quiet := fun n hq => h'.quiet n (h.quiet n hq)

theorem Dulls.refl (h : v.Over B) : Dulls look B v v :=
  ⟨.refl h, fun _ h => h⟩

theorem Dulls.trans (h : Dulls look B v v') (h' : Dulls look B v' v'') : Dulls look B v v'' :=
  ⟨h.toSpares.trans h'.toSpares, fun n hd => h'.dull n (h.dull n hd)⟩

theorem Spares.knows (h : Spares look B v v') (hk : v.Knows look p) (hs : (look p.sle).isSome) :
    v'.Knows look p := by
  have ⟨a, q, hq, ha, hlook⟩ := hk
  have ⟨a', q', hq', hl, _, hlook'⟩ := h.keep _ a q hq ha (hlook.symm ▸ hs)
  exact ⟨a', q', hq', hl.ne_erase ha, hlook'.trans hlook⟩

theorem Knows.look_eq (h : v.Knows look p) (hq : v.item p.key = some (a, q)) :
    look q.sle = look p.sle := by
  have ⟨_, _, hq', _, hlook⟩ := h
  rw [hq] at hq'
  cases hq'
  exact hlook

theorem Dull.look_eq (h : v.Dull look p.key) (hp : look p.sle = none)
    (hq : v.item p.key = some (a, q)) : look q.sle = look p.sle :=
  (h a q hq).trans hp.symm

theorem dull_update (h : v.Dull look n) (hp : look p.sle = none)
    (hi : v'.item = Function.update v.item p.key (some (a, p))) : v'.Dull look n := by
  intro a' p' hp'
  rw [hi, update_apply] at hp'
  split at hp'
  case isTrue => cases hp'; exact hp
  case isFalse => exact h a' p' hp'

theorem quiet_of_item_eq (hi : v'.item n = v.item n) (h : v.Quiet look B n) :
    v'.Quiet look B n := by
  unfold Quiet at h ⊢
  rwa [hi]

theorem Spares.of_item (hv : v'.Over B) (hb : v'.base = v.base)
    (hi : v'.item = Function.update v.item m x)
    (hk : ∀ a p, v.item m = some (a, p) → a ≠ .erase → (look p.sle).isSome →
      ∃ a' p', x = some (a', p') ∧ a.Leads a' ∧ (p'.addr = p.addr) ∧ look p'.sle = look p.sle)
    (hq : v.Quiet look B m → v'.Quiet look B m) : Spares look B v v' where
  base := hb
  atop := hv
  keep n a p hp ha hs := by
    by_cases hn : n = m
    case pos =>
      subst hn
      rw [hi, update_self]
      exact hk a p hp ha hs
    case neg => exact ⟨a, p, by rw [hi, update_of_ne hn, hp], .refl a, rfl, rfl⟩
  quiet n hn := by
    by_cases he : n = m
    case pos => exact he ▸ hq (he ▸ hn)
    case neg => exact quiet_of_item_eq (by rw [hi, update_of_ne he]) hn

-- The calls.

theorem peek_knows (look : SLE → Option α) (hv : v.Over B) (h : v.peek k = (some p, v')) :
    v'.Knows look p := by
  have ⟨_, hk, _, hc⟩ := peek_eq_some hv h
  rcases hc with ⟨a, ha, hi, rfl⟩ | ⟨_, _, hi⟩
  · exact ⟨a, p, hk ▸ hi, ha, rfl⟩
  · refine ⟨.cache, p, ?_, nofun, rfl⟩
    rw [hi, hk, update_self]

theorem peek_spares (look : SLE → Option α) (hv : v.Over B) (h : v.peek k = (o, v')) :
    Spares look B v v' := by
  cases o
  case none =>
    have ⟨hv', _⟩ := peek_eq_none hv h
    subst hv'
    exact .refl hv
  case some p =>
    have ⟨_, hk, hb, hc⟩ := peek_eq_some hv h
    rcases hc with ⟨_, _, _, rfl⟩ | ⟨hn, hs, hi⟩
    · exact .refl hv
    · refine .of_item (hv.put hb (hk.symm ▸ hi)) hb hi (fun a q hq => ?_) fun _ => ?_
      · rw [hn] at hq
        cases hq
      · unfold Quiet
        rw [hi, update_self, hs]
        rfl

section

variable (hv : v.Over B)

include hv

theorem peek_dulls (hd : ∀ s, k.check s → look s = none) (h : v.peek k = (o, v')) :
    Dulls look B v v' := by
  refine ⟨peek_spares _ hv h, fun n hn => ?_⟩
  cases o
  case none => exact (peek_eq_none hv h).left ▸ hn
  case some p =>
    have ⟨hc, hk, _, hcs⟩ := peek_eq_some hv h
    rcases hcs with ⟨_, _, _, rfl⟩ | ⟨_, _, hi⟩
    · exact hn
    · exact dull_update hn (hd _ hc) (hk.symm ▸ hi)

theorem peek_dull (hd : ∀ s, k.check s → look s = none) (h : v.peek k = (some p, v')) :
    v'.Dull look p.key ∧ look p.sle = none := by
  have ⟨hc, hk, _, hcs⟩ := peek_eq_some hv h
  refine ⟨fun a q hq => ?_, hd _ hc⟩
  have ⟨_, _, hp, _, hlook⟩ := peek_knows look hv h
  rw [hq] at hp
  cases hp
  exact hlook.trans (hd _ hc)

theorem update_spares (h : v.update p = .ok v')
    (hl : ∀ a q, v.item p.key = some (a, q) → look q.sle = look p.sle) : Spares look B v v' := by
  have ⟨a, q, hq, ha, haddr, hb, hi⟩ := update_eq_ok h
  have hlook := hl a q hq
  refine .of_item (hv.put hb hi) hb hi (fun a' q' hq' _ _ => ?_) fun hn => ?_
  · rw [hq] at hq'
    cases hq'
    exact ⟨a.updated, p, rfl, ApplyStateTable.Action.leads_updated ha, haddr.symm, hlook.symm⟩
  · unfold Quiet at hn ⊢
    rw [hq] at hn
    rw [hi, update_self]
    cases a
    case erase => exact absurd rfl ha
    case cache => exact hlook.symm.trans hn
    case insert => exact hlook.symm.trans hn
    case modify => exact hlook.symm.trans hn

theorem update_dulls (h : v.update p = .ok v') (hp : look p.sle = none) (hd : v.Dull look p.key) :
    Dulls look B v v' := by
  have ⟨_, _, _, _, _, _, hi⟩ := update_eq_ok h
  exact ⟨update_spares hv h fun a q => hd.look_eq hp, fun n hn => dull_update hn hp hi⟩

theorem erase_dulls (h : v.erase p = .ok v') (hp : look p.sle = none) (hd : v.Dull look p.key) :
    Dulls look B v v' := by
  have ⟨a, q, hq, ha, _, hb, hi⟩ := erase_eq_ok h
  have hlook := hd a q hq
  have hover : v'.Over B := by
    split at hi
    case isTrue => exact hv.drop hb hi
    case isFalse => exact hv.put hb hi
  refine ⟨.of_item hover hb hi (fun a' q' hq' _ hs => ?_) fun hn => ?_, fun n hn a' p' hp' => ?_⟩
  · rw [hq] at hq'
    cases hq'
    rw [hlook] at hs
    cases hs
  · unfold Quiet at hn ⊢
    rw [hq] at hn
    rw [hi, update_self]
    cases a
    case erase => exact absurd rfl ha
    case cache => exact hn.symm.trans hlook
    case insert => trivial
    case modify => exact hn.symm.trans hlook
  · rw [hi, update_apply] at hp'
    split at hp'
    case isTrue =>
      have ⟨_, hp'⟩ := Option.ite_none_left_eq_some.mp hp'
      cases hp'
      exact hp
    case isFalse => exact hn a' p' hp'

theorem insert_dulls (h : v.insert p = .ok v') (hp : look p.sle = none) : Dulls look B v v' := by
  have ⟨hb, hc⟩ := insert_eq_ok h
  have ⟨a, hi, hold⟩ : ∃ a, v'.item = Function.update v.item p.key (some (a, p)) ∧
      ((v.item p.key = none ∧ a = .insert) ∨
        ∃ q, v.item p.key = some (.erase, q) ∧ a = .modify) := by
    rcases hc with ⟨hn, hi⟩ | ⟨q, hq, hi⟩
    · exact ⟨_, hi, .inl ⟨hn, rfl⟩⟩
    · exact ⟨_, hi, .inr ⟨q, hq, rfl⟩⟩
  refine ⟨.of_item (hv.put hb hi) hb hi (fun a' q' hq' ha' _ => ?_) fun hn => ?_,
    fun n hn => dull_update hn hp hi⟩
  · rcases hold with ⟨hn, _⟩ | ⟨q, hq, _⟩
    · rw [hn] at hq'; cases hq'
    · rw [hq] at hq'; cases hq'; exact absurd rfl ha'
  · unfold Quiet at hn ⊢
    rw [hi, update_self]
    rcases hold with ⟨_, rfl⟩ | ⟨q, hq, rfl⟩
    · exact hp
    · rw [hq] at hn
      exact hp.trans hn.symm

end

theorem item_spares (look : SLE → Option α) (hv : v.Over B) (hb : v'.base = v.base)
    (hi : v'.item = v.item) : Dulls look B v v' where
  base := hb
  atop := ⟨hb ▸ hv.base, hi ▸ hv.keyed⟩
  keep := fun _ a p hp _ _ => ⟨a, p, hi ▸ hp, .refl a, rfl, rfl⟩
  quiet := fun _ => quiet_of_item_eq (by rw [hi])
  dull := fun n h => by unfold Dull at h ⊢; rwa [hi]

end Look

-- What applying an item of the table makes of an entry.
def Made : Option (ApplyStateTable.Action × SLEPtr) → Option SLE → Option SLE → Prop
  | some (.erase, _), _, o' => o' = none
  | some (.insert, p), o, o' => o = none ∧ o' = some p.sle
  | some (.modify, p), _, o' => o' = some p.sle
  | _, o, o' => o' = o

open ReadView

variable {l : Ledger}

theorem apply_item_eq_ok (h : apply.item l (a, p) = .ok l₁) :
    Made (some (a, p)) (l.contents.state p.key) (l₁.contents.state p.key) ∧
      ∀ n, n ≠ p.key → l₁.contents.state n = l.contents.state n := by
  cases a
  case cache => cases h; exact ⟨rfl, fun _ _ => rfl⟩
  case erase =>
    change l.rawErase p = .ok l₁ at h
    unfold Ledger.rawErase at h
    split at h
    case isFalse => cases h
    cases h
    have hs (n : UInt256) := find?_erase l.stateMap p.key n
    exact ⟨(hs p.key).trans (if_pos rfl), fun n hn => (hs n).trans (if_neg hn)⟩
  case insert =>
    change l.rawInsert p = .ok l₁ at h
    unfold Ledger.rawInsert at h
    obtain ⟨hn, h⟩ := Except.ite_error_eq_ok.mp h
    split at h
    case isFalse => cases h
    case isTrue hk =>
      cases h
      rw [Ledger.contents_store]
      refine ⟨⟨Option.not_isSome_iff_eq_none.mp hn, update_self ..⟩, fun n hn => ?_⟩
      exact update_of_ne hn ..
  case modify =>
    change l.rawReplace p = .ok l₁ at h
    unfold Ledger.rawReplace at h
    split at h
    case isFalse => cases h
    split at h
    case isFalse => cases h
    case isTrue hk =>
      cases h
      rw [Ledger.contents_store]
      exact ⟨update_self .., fun n hn => update_of_ne hn ..⟩

theorem foldlM_item_eq_ok (es : List (UInt256 × ApplyStateTable.Action × SLEPtr))
    (hs : es.Pairwise (·.1 < ·.1)) (hk : ∀ e ∈ es, e.2.2.key = e.1)
    (h : es.foldlM (fun l e => apply.item l e.2) l = .ok l') (n : UInt256) :
    (∀ x, (n, x) ∈ es → Made (some x) (l.contents.state n) (l'.contents.state n)) ∧
      ((∀ x, (n, x) ∉ es) → l'.contents.state n = l.contents.state n) := by
  induction es generalizing l
  case nil => cases h; exact ⟨nofun, fun _ => rfl⟩
  case cons e es hi =>
    have ⟨k, a, p⟩ := e
    have ⟨l₁, hl, h⟩ := Except.bind_eq_ok.mp h
    have ⟨hlt, hs⟩ := List.pairwise_cons.mp hs
    have ⟨hm, hn⟩ := hi hs (fun e he => hk e (.tail _ he)) h
    have ⟨hmade, hother⟩ := apply_item_eq_ok hl
    have hpk : p.key = k := hk _ (.head _)
    rw [hpk] at hmade hother
    by_cases heq : n = k
    case pos =>
      subst heq
      -- The key does not occur again.
      have hno (x : ApplyStateTable.Action × SLEPtr) : (n, x) ∉ es :=
        fun hx => absurd (hlt _ hx) (lt_irrefl _)
      refine ⟨fun x hx => ?_, fun hx => absurd (.head _) (hx (a, p))⟩
      rcases List.mem_cons.mp hx with hx | hx
      · cases hx
        rw [hn hno]
        exact hmade
      · exact absurd hx (hno x)
    case neg =>
      rw [← hother n heq]
      refine ⟨fun x hx => ?_, fun hx => hn fun x hx' => hx x (.tail _ hx')⟩
      rcases List.mem_cons.mp hx with hx | hx
      · cases hx; exact absurd rfl heq
      · exact hm x hx

theorem apply_eq_ok (hv : v.Over B) (h : v.apply l = .ok l') (n : UInt256) :
    Made (v.item n) (l.contents.state n) (l'.contents.state n) := by
  have hk (e : UInt256 × ApplyStateTable.Action × SLEPtr) (he : e ∈ v.items.items.toList) :
      e.2.2.key = e.1 :=
    hv.keyed _ _ _ (mem_toList.mp he)
  have ⟨hm, hn⟩ := foldlM_item_eq_ok _ (sorted_toList _) hk h n
  cases hi : v.item n
  case none =>
    refine hn fun x hx => ?_
    rw [item, mem_toList.mp hx] at hi
    cases hi
  case some x => exact hm x (mem_toList.mpr hi)

theorem Quiet.apply {α : Type} {look : SLE → Option α} (hv : v.Over l.contents.state)
    (hq : v.Quiet look l.contents.state n) (h : v.apply l = .ok l') :
    (l'.contents.state n).bind look = (l.contents.state n).bind look := by
  have hm := apply_eq_ok hv h n
  unfold Quiet at hq
  cases hi : v.item n
  case none => rw [hi] at hm; exact congrArg (·.bind look) hm
  case some x =>
    have ⟨a, p⟩ := x
    rw [hi] at hm hq
    cases a
    case cache => exact congrArg (·.bind look) hm
    case erase => rw [show l'.contents.state n = none from hm, hq]; rfl
    case insert => rw [hm.right, hm.left]; exact hq
    case modify => rw [show l'.contents.state n = some p.sle from hm, ← hq]; rfl

section

variable {α : Type} {look : SLE → Option α} {m : UInt256}

-- What is seen of the entries of a ledger.
def seen (look : SLE → Option α) (l : Ledger) (n : UInt256) : Option α :=
  (l.contents.state n).bind look

theorem Quiet.look_eq (hq : v.Quiet look B n) (hi : v.item n = some (a, p)) (ha : a ≠ .erase)
    (hs : (look p.sle).isSome) : (B n).bind look = look p.sle := by
  unfold Quiet at hq
  rw [hi] at hq
  cases a
  case cache => exact hq.symm
  case erase => exact absurd rfl ha
  case insert => rw [show look p.sle = none from hq] at hs; cases hs
  case modify => exact hq.symm

theorem seen_of_quiet (hv : v.Over l.contents.state) (hq : ∀ n, v.Quiet look l.contents.state n)
    (h : v.apply l = .ok l') : seen look l' = seen look l :=
  funext fun n => (hq n).apply hv h

-- Only one entry is not quiet.

theorem seen_of_item (hv : v.Over l.contents.state)
    (hq : ∀ n, n ≠ m → v.Quiet look l.contents.state n) (h : v.apply l = .ok l') :
    seen look l' = Function.update (seen look l) m (seen look l' m) := by
  funext n
  by_cases hn : n = m
  case pos => rw [hn, update_self]
  case neg => rw [update_of_ne hn]; exact (hq n hn).apply hv h

-- Applying the view changes what is seen under one key only, to `o`.
structure Ends (look : SLE → Option α) (B : UInt256 → Option SLE) (v : ApplyView) (m : UInt256)
    (o : Option α) : Prop where
  atop  : v.Over B
  quiet : ∀ n, n ≠ m → v.Quiet look B n
  item  : (∃ a p, v.item m = some (a, p) ∧ (a = .insert ∨ a = .modify) ∧ look p.sle = o) ∨
    (∃ p, v.item m = some (.erase, p) ∧ o = none)

variable {o : Option α} {x : α}

theorem Ends.seen (h : Ends look l.contents.state v m o) (hb : v'.base = v.base)
    (hi : v'.item = v.item) (ha : v'.apply l = .ok l') :
    seen look l' = Function.update (seen look l) m o := by
  have hover : v'.Over l.contents.state := ⟨hb ▸ h.atop.base, hi ▸ h.atop.keyed⟩
  have hquiet (n : UInt256) (hn : n ≠ m) : v'.Quiet look l.contents.state n :=
    quiet_of_item_eq (by rw [hi]) (h.quiet n hn)
  have hm := apply_eq_ok hover ha m
  rw [seen_of_item hover hquiet ha, ApplyView.seen]
  congr 1
  rw [hi] at hm
  rcases h.item with ⟨a, p, hp, rfl | rfl, rfl⟩ | ⟨p, hp, rfl⟩
  · rw [hp] at hm; rw [hm.right]; rfl
  · rw [hp] at hm; rw [show l'.contents.state m = some p.sle from hm]; rfl
  · rw [hp] at hm; rw [show l'.contents.state m = none from hm]; rfl

theorem Ends.spares (h : Ends look B v m (some x)) (hs : Spares look B v v') :
    Ends look B v' m (some x) where
  atop := hs.atop
  quiet := fun n hn => hs.quiet n (h.quiet n hn)
  item := by
    rcases h.item with ⟨a, p, hp, hput, hlook⟩ | ⟨_, _, ho⟩
    · have ha : a ≠ .erase := by rcases hput with rfl | rfl <;> nofun
      have ⟨a', p', hp', hl, _, hlook'⟩ := hs.keep m a p hp ha (hlook ▸ rfl)
      refine .inl ⟨a', p', hp', ?_, hlook'.trans hlook⟩
      rcases hl with rfl | ⟨rfl, rfl⟩
      · exact hput
      · exact .inr rfl
    · cases ho

theorem update_ends (hv : v.Over B) (hq : ∀ n, n ≠ p.key → v.Quiet look B n)
    (h : v.update p = .ok v') : Ends look B v' p.key (look p.sle) := by
  have ⟨a, _, _, _, _, hb, hi⟩ := update_eq_ok h
  refine ⟨hv.put hb hi, fun n hn => ?_, .inl ⟨_, p, ?_, a.updated_cases, rfl⟩⟩
  · exact quiet_of_item_eq (by rw [hi, update_of_ne hn]) (hq n hn)
  · rw [hi, update_self]

theorem insert_ends (hv : v.Over B) (hq : ∀ n, n ≠ p.key → v.Quiet look B n)
    (h : v.insert p = .ok v') : Ends look B v' p.key (look p.sle) := by
  have ⟨hb, hc⟩ := insert_eq_ok h
  have ⟨a, hi, ha⟩ : ∃ a, v'.item = Function.update v.item p.key (some (a, p)) ∧
      (a = .insert ∨ a = .modify) := by
    rcases hc with ⟨_, hi⟩ | ⟨_, _, hi⟩
    · exact ⟨_, hi, .inl rfl⟩
    · exact ⟨_, hi, .inr rfl⟩
  refine ⟨hv.put hb hi, fun n hn => ?_, .inl ⟨a, p, ?_, ha, rfl⟩⟩
  · exact quiet_of_item_eq (by rw [hi, update_of_ne hn]) (hq n hn)
  · rw [hi, update_self]

theorem erase_ends (hv : v.Over B) (hq : ∀ n, v.Quiet look B n) (hk : v.Knows look q)
    (hs : (look q.sle).isSome) (hkey : p.key = q.key) (h : v.erase p = .ok v') :
    Ends look B v' p.key none := by
  have ⟨a, r, hp, _, _, hb, hi⟩ := erase_eq_ok h
  have hne : a ≠ .insert := by
    rintro rfl
    have hquiet := hq p.key
    unfold Quiet at hquiet
    rw [hp] at hquiet
    rw [← hk.look_eq (hkey ▸ hp), show look r.sle = none from hquiet] at hs
    cases hs
  rw [if_neg hne] at hi
  refine ⟨hv.put hb hi, fun n hn => ?_, .inr ⟨p, ?_, rfl⟩⟩
  · exact quiet_of_item_eq (by rw [hi, update_of_ne hn]) (hq n)
  · rw [hi, update_self]

-- Another entry is still known.

theorem Knows.key_ne (hk : v.Knows look p) (h : v.insert q = .ok v') : p.key ≠ q.key := by
  have ⟨a, p', hp, ha, _⟩ := hk
  intro heq
  rw [heq] at hp
  rcases (insert_eq_ok h).right with ⟨hn, _⟩ | ⟨_, he, _⟩
  · rw [hn] at hp; cases hp
  · rw [he] at hp; cases hp; exact ha rfl

theorem Knows.insert (hk : v.Knows look p) (h : v.insert q = .ok v') : v'.Knows look p := by
  have ⟨a, p', hp, ha, hlook⟩ := hk
  have ⟨_, hc⟩ := insert_eq_ok h
  have hne := hk.key_ne h
  refine ⟨a, p', ?_, ha, hlook⟩
  rcases hc with ⟨_, hi⟩ | ⟨_, _, hi⟩ <;> rw [hi, update_of_ne hne, hp]

theorem Knows.update (hk : v.Knows look p) (hne : p.key ≠ q.key) (h : v.update q = .ok v') :
    v'.Knows look p := by
  have ⟨a, p', hp, ha, hlook⟩ := hk
  have ⟨_, _, _, _, _, _, hi⟩ := update_eq_ok h
  exact ⟨a, p', by rw [hi, update_of_ne hne, hp], ha, hlook⟩

end

end ApplyView
