import Bixd.Ledger.Theorems.Edit
import Bixd.Ledger.Theorems.Frame

open ApplyStateTable OrderedMap

-- Views that cannot be told apart.

namespace ApplyView

variable {v : ApplyView} {line : SLEPtr} {k : Keylet}

-- Two views answer alike and do the same when they are applied. One may have looked up entries that
-- the other has not.
structure Same (v v' : ApplyView) : Prop where
  read    : ∀ k, v'.view.read k = v.view.read k
  exists_ : ∀ k, (v.view.read (.unchecked k.key)).all (k.check ·) →
    v'.view.exists_ k = v.view.exists_ k
  succ    : ∀ k last, v'.view.succ k last = v.view.succ k last
  apply   : ∀ {V : Type} [RawView V] (target : V), v'.apply target = v.apply target
  visit   : v'.items.visit v'.base = v.items.visit v.base

theorem Same.refl (v : ApplyView) : Same v v where
  read _ := rfl
  exists_ _ _ := rfl
  succ _ _ := rfl
  apply _ := rfl
  visit := rfl

theorem Same.trans (h : Same v v') (h' : Same v' v'') : Same v v'' where
  read k := (h'.read k).trans (h.read k)
  exists_ k hk := (h'.exists_ k (by rwa [h.read])).trans (h.exists_ k hk)
  succ k last := (h'.succ k last).trans (h.succ k last)
  apply target := (h'.apply target).trans (h.apply target)
  visit := h'.visit.trans h.visit

theorem apply_eq_filter {V : Type} [RawView V] (t : ApplyStateTable) (target : V) :
    t.apply target = (t.items.toList.filter (·.2.1 ≠ .cache)).foldlM
      (fun target e => apply.item target e.2)
      (RawView.rawDestroyBIXRP target t.dropsDestroyed) := by
  unfold ApplyStateTable.apply
  generalize RawView.rawDestroyBIXRP target t.dropsDestroyed = target
  induction t.items.toList generalizing target
  case nil => rfl
  case cons e l hi =>
    have ⟨n, a, p⟩ := e
    by_cases ha : a = .cache
    case pos =>
      subst ha
      exact hi target
    case neg =>
      rw [List.filter_cons_of_pos (by simpa using ha), List.foldlM_cons, List.foldlM_cons]
      exact congrArg _ (funext hi)

theorem visit_congr {t t' : ApplyStateTable} (base : ReadView)
    (h : t'.items.toList.filter (·.2.1 ≠ .cache) = t.items.toList.filter (·.2.1 ≠ .cache)) :
    t'.visit base = t.visit base := by
  unfold ApplyStateTable.visit
  generalize hf : (fun _ => _) = f
  have hl (l : List _) : (l.filter (·.2.1 ≠ .cache)).filterMap f = l.filterMap f := by
    rw [List.filterMap_filter]
    refine congrArg (List.filterMap · l) (funext fun e => ?_)
    rcases e with ⟨_, _ | _, _⟩ <;> simp [← hf]
  rw [← hl, h, hl]

theorem snd_peek (v : ApplyView) (k : Keylet) : (v.peek k).2 =
    match v.items.items.find? k.key, v.base.read k with
    | none, some s => { v with
        items := { v.items.put ⟨v.items.next, s⟩ .cache with next := v.items.next + 1 } }
    | _, _ => v := by
  unfold peek ApplyStateTable.peek
  cases v.items.items.find? k.key
  case none => cases v.base.read k <;> rfl
  case some => rfl

theorem Shows.same_peek (h : Shows B M v) (k : Keylet) : Same v (v.peek k).2 := by
  have ⟨v', hv', he, _⟩ := h.peek k
  have hd := h.denotes
  have hd' := he.shows.denotes
  rw [hv']
  have hread (n : UInt256) : v.view.read (.unchecked n) = M n := by
    rw [hd.read]
    change (M n).filter _ = M n
    cases M n
    case none => rfl
    case some s => exact (Option.filter_some ..).trans (if_pos Keylet.check_unchecked)
  have hfilter : v'.items.items.toList.filter (·.2.1 ≠ .cache) =
      v.items.items.toList.filter (·.2.1 ≠ .cache) := by
    rw [← hv', snd_peek]
    split
    case h_1 s hf hr =>
      have hkey : s.key = k.key := by
        have hs := (Option.filter_eq_some_iff.mp ((h.base.read k).symm.trans hr)).left
        exact h.base.keyed _ _ hs
      exact filter_toList_insert (by rw [SLEPtr.key, hkey, hf]) (by simp)
    case h_2 => rfl
  exact {
    read := fun n => (hd'.read n).trans (hd.read n).symm
    exists_ := fun n hn => by
      have hfit (s : SLE) (hs : M n.key = some s) : n.check s := by
        rw [hread, hs] at hn
        exact hn
      exact (hd'.exists_ n hfit).trans (hd.exists_ n hfit).symm
    succ := fun n last => (hd'.succ n last).unique (hd.succ n last)
    apply := fun target => by
      rw [ApplyView.apply, ApplyView.apply, apply_eq_filter, apply_eq_filter, hfilter, he.drops]
    visit := he.base ▸ visit_congr v'.base hfilter
  }

theorem update_items (h : v.update line = .ok w) :
    ∃ a, w = { v with items := v.items.put line a } ∧
      ∀ v' : ApplyView, v'.items.items.find? line.key = v.items.items.find? line.key →
        v'.update line = .ok { v' with items := v'.items.put line a } := by
  have ⟨t, ht, he⟩ := Except.bind_eq_ok.mp h
  cases he
  have ⟨a, q, hf, haddr, ha⟩ := holds_of_update ht
  have hupdate (t : ApplyStateTable) (ht : t.items.find? line.key = some (a, q)) :
      t.update line = .ok (t.put line a.updated) := by
    simp only [ApplyStateTable.update, ht, haddr, ne_eq, not_true, if_false]
    cases a
    case erase => exact absurd rfl ha
    all_goals rfl
  rw [hupdate _ hf] at ht
  cases ht
  refine ⟨a.updated, rfl, fun v' hv' => ?_⟩
  rw [update, hupdate _ (hv'.trans hf)]
  rfl

theorem peek_update (hk : k.key ≠ line.key) (hb : v.base.Denotes B) (h : v.update line = .ok w) :
    (v.peek k).2.update line = .ok (w.peek k).2 := by
  obtain ⟨a, rfl, hupdate⟩ := update_items h
  have hfind : (v.items.put line a).items.find? k.key = v.items.items.find? k.key :=
    (find?_insert ..).trans (if_neg hk)
  rw [snd_peek, snd_peek]
  dsimp only
  rw [hfind]
  split
  case h_1 s hf hr =>
    have hkey : s.key = k.key := by
      have hs := (Option.filter_eq_some_iff.mp ((hb.read k).symm.trans hr)).left
      exact hb.keyed _ _ hs
    have hne : line.key ≠ SLEPtr.key ⟨v.items.next, s⟩ := fun he => hk (he.trans hkey).symm
    rw [hupdate]
    · unfold put
      rw [insert_comm hne]
    · exact (find?_insert ..).trans (if_neg hne)
  case h_2 => exact hupdate v rfl

end ApplyView
