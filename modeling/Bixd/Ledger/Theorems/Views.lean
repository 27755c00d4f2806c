import Bixd.Ledger.Run
import Bixd.Ledger.Theorems.StateTable
import Bixd.Lib.Except

open Overlay OrderedMap ApplyStateTable Function RawStateTable ApplyView

variable {c c₀ : Contents}

structure TxsRawView.Lawful {V : Type} [TxsRawView V] (den : V → Contents → Prop) : Prop where
  raw : RawView.Lawful den
  rawTxInsert : ∀ {v c key tx}, den v c → c.txs key = none → tx.metaData.isSome →
    ∃ v', (TxsRawView.rawTxInsert v key tx = .ok v') ∧
      den v' { c with txs := update c.txs key (some tx) }

theorem ReadView.Denotes.key_ne_zero {r : ReadView} (h : r.Denotes M) (hs : (M k).isSome) :
    k ≠ 0 := by
  rintro rfl
  rw [h.nonzero] at hs
  cases hs

namespace ReadView.Ledger

open Stack

variable {l l' : Ledger}

-- Only the contents may differ.
structure Like (l l' : Ledger) : Prop where
  info   : { l'.info with drops := 0 } = { l.info with drops := 0 }
  isOpen : l'.isOpen = l.isOpen
  rules  : l'.rules = l.rules

theorem Like.refl : Like l l :=
  ⟨rfl, rfl, rfl⟩

theorem Like.trans (h : Like l l') (h' : Like l' l'') : Like l l'' :=
  ⟨h'.info.trans h.info, h'.isOpen.trans h.isOpen, h'.rules.trans h.rules⟩

theorem eq_of_contents (hl : Like l l') (h : l'.contents = l.contents) : l' = l := by
  have hs := ext fun k => congrArg (·.state k) h
  have ht := ext fun k => congrArg (·.txs k) h
  have hd : l'.info.drops = l.info.drops := congrArg (·.drops) h
  have ⟨hq, ho, hr⟩ := hl
  have hi : l'.info = l.info := by
    calc l'.info = { { l'.info with drops := 0 } with drops := l'.info.drops } := rfl
      _ = { { l.info with drops := 0 } with drops := l.info.drops } := by rw [hq, hd]
      _ = l.info := rfl
  cases l
  cases l'
  subst hs ht hi ho hr
  rfl

theorem denotes (l : Ledger) : l.view.Denotes l.contents.state where
  keyed := l.keyed
  nonzero := l.nonzero
  read k := by
    change l.read k = _
    unfold read
    split
    case isTrue h => rw [h, show l.contents.state 0 = none from l.nonzero]; rfl
    case isFalse => rfl
  exists_ _ _ := rfl
  succ k last := by
    have h : l.succ k last = merge none (l.stateMap.firstAbove k fun _ => true) last := by
      unfold succ merge merge.below
      cases l.stateMap.firstAbove k fun _ => true <;> cases last <;> rfl
    change IsSucc _ k last (l.succ k last)
    rw [h]
    have hn : IsSucc (fun _ => False) k last none := .none fun _ _ h => h.elim
    refine (merge_isSucc hn firstAbove_isSucc).congr fun n => ?_
    simp [contents, Option.isSome_iff_exists]

theorem contents_store : (l.store p h).contents = l.contents.put p.key (some p.sle) := by
  unfold contents Contents.put store
  congr 1
  funext k
  simp only [find?_insert, update_apply]

theorem lawful (l₀ : Ledger) :
    TxsRawView.Lawful (fun (l : Ledger) c => Like l₀ l ∧ (l.contents = c)) where
  raw := {
    rawInsert := by
      rintro l _ p ⟨hl, rfl⟩ hk hn
      have hn : l.stateMap.find? p.key = none := hn
      refine ⟨l.store p hk, ?_, ⟨hl.info, hl.isOpen, hl.rules⟩, contents_store⟩
      change l.rawInsert p = _
      rw [rawInsert, hn, dif_pos hk]
      rfl
    rawReplace := by
      rintro l _ p ⟨hl, rfl⟩ hs
      have hs : (l.stateMap.find? p.key).isSome := hs
      have hk : p.key ≠ 0 := fun h => by rw [h, l.nonzero] at hs; cases hs
      refine ⟨l.store p hk, ?_, ⟨hl.info, hl.isOpen, hl.rules⟩, contents_store⟩
      change l.rawReplace p = _
      rw [rawReplace, if_pos hs, dif_pos hk]
    rawErase := by
      rintro l _ p ⟨hl, rfl⟩ hs
      refine ⟨_, if_pos hs, ⟨hl.info, hl.isOpen, hl.rules⟩, ?_⟩
      unfold contents Contents.put
      congr 1
      funext k
      simp only [find?_erase, update_apply]
    rawDestroyBIXRP := by
      rintro l _ fee ⟨hl, rfl⟩
      exact ⟨⟨hl.info, hl.isOpen, hl.rules⟩, rfl⟩ }
  rawTxInsert := by
    rintro l _ key tx ⟨hl, rfl⟩ hn hm
    have hn : l.txMap.find? key = none := hn
    refine ⟨{ l with txMap := l.txMap.insert key tx }, ?_, ⟨hl.info, hl.isOpen, hl.rules⟩, ?_⟩
    · change l.rawTxInsert key tx = _
      simp [rawTxInsert, hn, Option.isNone_eq_false_iff.mpr hm]
    · unfold contents
      congr 1
      funext k
      simp only [find?_insert, update_apply]

end ReadView.Ledger

namespace OpenView

variable {v : OpenView}

def contents (v : OpenView) (c : Contents) : Contents where
  state := overlay v.items.changes c.state
  drops := c.drops - v.items.dropsDestroyed
  txs k := (v.txs.find? k).or (c.txs k)

-- A view on top of the contents `c`.
structure Fits (v : OpenView) (c : Contents) : Prop where
  items : v.items.Fits c.state
  txs   : ∀ k tx, v.txs.find? k = some tx → (c.txs k = none) ∧ tx.metaData.isSome

theorem denotes (hb : v.base.Denotes c.state) (hv : v.Fits c) :
    v.view.Denotes (v.contents c).state :=
  StateTable.denotes hb hv.items.keyed (fun _ => rfl) (fun _ => rfl) (fun _ _ => rfl)

theorem bind_items (h : x = .ok t) :
    (return { v with items := ← x }) = (.ok { v with items := t } : Except String OpenView) := by
  rw [h]
  rfl

theorem contents_becomes (h : v.items.Becomes c₀.state M t) :
    ({ v with items := t } : OpenView).contents c₀ = { v.contents c₀ with state := M } := by
  unfold contents
  rw [h.state, h.drops]

theorem lawful {b : ReadView} (hd : b.Denotes c₀.state) :
    TxsRawView.Lawful (fun (v : OpenView) c => (v.base = b) ∧ v.Fits c₀ ∧ (v.contents c₀ = c)) where
  raw := {
    rawInsert := by
      rintro v _ p ⟨hb, hv, rfl⟩ hk hn
      have ⟨t, ht, h⟩ := insert_becomes hv.items hk hn
      refine ⟨{ v with items := t }, ?_, hb, ⟨h.fits, hv.txs⟩, contents_becomes h⟩
      exact bind_items ht
    rawReplace := by
      rintro v _ p ⟨rfl, hv, rfl⟩ hs
      have hk := (denotes hd hv).key_ne_zero hs
      have ⟨t, ht, h⟩ := replace_becomes hv.items hk hs
      refine ⟨{ v with items := t }, ?_, rfl, ⟨h.fits, hv.txs⟩, contents_becomes h⟩
      exact bind_items ht
    rawErase := by
      rintro v _ p ⟨rfl, hv, rfl⟩ hs
      have hk := (denotes hd hv).key_ne_zero hs
      have ⟨t, ht, h⟩ := erase_becomes hv.items hk hs
      refine ⟨{ v with items := t }, ?_, rfl, ⟨h.fits, hv.txs⟩, contents_becomes h⟩
      exact bind_items ht
    rawDestroyBIXRP := by
      rintro v _ fee ⟨hb, hv, rfl⟩
      refine ⟨hb, ⟨⟨hv.items.keyed, hv.items.fits⟩, hv.txs⟩, ?_⟩
      exact congrArg (Contents.mk _ · _) (Int.sub_sub ..).symm }
  rawTxInsert := by
    rintro v _ key tx ⟨hb, hv, rfl⟩ hn hm
    have ⟨hn, hn'⟩ := Option.or_eq_none_iff.mp hn
    refine ⟨{ v with txs := v.txs.insert key tx }, ?_, hb, ⟨hv.items, ?_⟩, ?_⟩
    · change v.rawTxInsert key tx = _
      rw [rawTxInsert, hn]
      rfl
    · intro k tx' h
      rw [find?_insert] at h
      split at h
      case isTrue hk => cases h; exact ⟨hk ▸ hn', hm⟩
      case isFalse => exact hv.txs k tx' h
    · unfold contents
      congr 1
      funext k
      simp only [find?_insert, update_apply]
      split
      case isTrue => rfl
      case isFalse => rfl

theorem apply_lawful {V : Type} [TxsRawView V] {den : V → Contents → Prop}
    (hl : TxsRawView.Lawful den) {u : V} (hd : den u c) (hv : v.Fits c) :
    ∃ u', (v.apply u = .ok u') ∧ den u' (v.contents c) := by
  have ⟨u₁, hu₁, hd₁⟩ := RawStateTable.apply_lawful hl.raw hd hv.items
  have ⟨u', hu', hd'⟩ := foldlM_map (m := v.txs) (N := some)
    (D := fun u g => den u { v.contents c with txs := g })
    (F := fun k tx x => (x = none) ∧ tx.metaData.isSome)
    (fun hd h => hl.rawTxInsert hd h.left h.right) hd₁ hv.txs
  have htxs : (fun k => ((v.txs.find? k).map some).getD (c.txs k)) = (v.contents c).txs := by
    funext k
    change _ = (v.txs.find? k).or (c.txs k)
    cases v.txs.find? k <;> rfl
  rw [htxs] at hd'
  refine ⟨u', ?_, hd'⟩
  rw [apply, hu₁]
  exact hu'

end OpenView

namespace ApplyView

variable {v : ApplyView}

def contents (v : ApplyView) (c : Contents) : Contents where
  state := overlay v.items.changes c.state
  drops := c.drops - v.items.dropsDestroyed
  txs   := c.txs

theorem denotes (hb : v.base.Denotes c.state) (hv : v.items.Fits c.state) :
    v.view.Denotes (v.contents c).state :=
  StateTable.denotes hb hv.keyed (fun _ => rfl) (fun _ => rfl) (fun _ _ => rfl)

theorem bind_items (h : x = .ok t) :
    (return { v with items := ← x }) = (.ok { v with items := t } : Except String ApplyView) := by
  rw [h]
  rfl

theorem contents_becomes (h : v.items.Becomes c₀.state M t) :
    ({ v with items := t } : ApplyView).contents c₀ = { v.contents c₀ with state := M } := by
  unfold contents
  rw [h.state, h.drops]

theorem lawful {b : ReadView} (hd : b.Denotes c₀.state) :
    RawView.Lawful (fun (v : ApplyView) c =>
      (v.base = b) ∧ v.items.Fits c₀.state ∧ (v.contents c₀ = c)) where
  rawInsert := by
    rintro v _ p ⟨hb, hv, rfl⟩ hk hn
    have ⟨t, ht, h⟩ := insert_becomes hv hk hn
    refine ⟨{ v with items := t }, ?_, hb, h.fits, contents_becomes h⟩
    exact bind_items ht
  rawReplace := by
    rintro v _ p ⟨rfl, hv, rfl⟩ hs
    have hk := (denotes hd hv).key_ne_zero hs
    have ⟨t, ht, h⟩ := replace_becomes hv hk hs
    refine ⟨{ v with items := t }, ?_, rfl, h.fits, contents_becomes h⟩
    exact bind_items ht
  rawErase := by
    rintro v _ p ⟨rfl, hv, rfl⟩ hs
    have hk := (denotes hd hv).key_ne_zero hs
    have ⟨t, ht, h⟩ := rawErase_becomes hv hk hs
    refine ⟨{ v with items := t }, ?_, rfl, h.fits, contents_becomes h⟩
    exact bind_items ht
  rawDestroyBIXRP := by
    rintro v _ fee ⟨hb, hv, rfl⟩
    exact ⟨hb, ⟨hv.keyed, hv.fits⟩, congrArg (Contents.mk _ · _) (Int.sub_sub ..).symm⟩

end ApplyView

namespace ReadView

variable {l : Ledger} {v : Layer} {layers : List Layer} {s s' : Stack} {cs : List Contents}
variable {call : Call}

-- A view on top of the contents `c` has the contents `c'`.
def Layer.Over (c c' : Contents) : Layer → Prop
  | openView v  => v.Fits c ∧ (v.contents c = c')
  | applyView v => v.items.Fits c.state ∧ (v.contents c = c')

def Layer.base : Layer → ReadView
  | openView v  => v.base
  | applyView v => v.base

-- The contents of the views, the uppermost first, and of the ledger.
inductive Stack.Denotes (l : Ledger) : List Layer → List Contents → Prop
  | ledger : Denotes l [] [l.contents]
  | layer {v : Layer} {layers : List Layer} {c c' : Contents} {cs : List Contents} :
    Denotes l layers (c :: cs) → v.base = (mk l layers).view → v.Over c c' →
    Denotes l (v :: layers) (c' :: c :: cs)

theorem Stack.Denotes.view (h : Stack.Denotes l layers (c :: cs)) :
    (mk l layers).view.Denotes c.state := by
  induction layers generalizing c cs
  case nil => cases h; exact l.denotes
  case cons v layers hi =>
    cases h
    case layer h hb hv =>
      have hd := hi h
      rw [← hb] at hd
      cases v
      case openView v => exact hv.right ▸ OpenView.denotes hd hv.left
      case applyView v => exact hv.right ▸ denotes hd hv.left

theorem Stack.Denotes.raw {f : {V : Type} → [RawView V] → V → Except String V}
    (hf : ∀ {V : Type} [RawView V] {den : V → Contents → Prop}, RawView.Lawful den →
      ∀ {v : V}, den v c → ∃ v', (f v = .ok v') ∧ den v' c')
    (h : Stack.Denotes l layers (c :: cs)) :
    ∃ s', ((mk l layers).raw f = .ok s') ∧ Stack.Denotes s'.ledger s'.layers (c' :: cs) ∧
      l.Like s'.ledger := by
  unfold Stack.raw
  cases h
  case ledger =>
    have ⟨l', hl', hlike, hc⟩ := hf (Ledger.lawful l).raw ⟨.refl, rfl⟩
    exact ⟨⟨l', []⟩, by dsimp only; rw [hl']; rfl, hc ▸ .ledger, hlike⟩
  case layer v layers c₀ cs h hb hv =>
    have hd := h.view
    rw [← hb] at hd
    cases v
    case openView v =>
      have ⟨v', hv', hb', hf', hc⟩ := hf (OpenView.lawful hd).raw ⟨rfl, hv⟩
      exact ⟨⟨l, .openView v' :: layers⟩, by dsimp only; rw [hv']; rfl,
        .layer h (hb'.trans hb) ⟨hf', hc⟩, .refl⟩
    case applyView v =>
      have ⟨v', hv', hb', hf', hc⟩ := hf (lawful hd) ⟨rfl, hv⟩
      exact ⟨⟨l, .applyView v' :: layers⟩, by dsimp only; rw [hv']; rfl,
        .layer h (hb'.trans hb) ⟨hf', hc⟩, .refl⟩

theorem Stack.Denotes.rawTx {f : {V : Type} → [TxsRawView V] → V → Except String V}
    (hf : ∀ {V : Type} [TxsRawView V] {den : V → Contents → Prop}, TxsRawView.Lawful den →
      ∀ {v : V}, den v c → ∃ v', (f v = .ok v') ∧ den v' c')
    (h : Stack.Denotes l layers (c :: cs)) (hr : (mk l layers).rawTx f = some r) :
    ∃ s', (r = .ok s') ∧ Stack.Denotes s'.ledger s'.layers (c' :: cs) ∧ l.Like s'.ledger := by
  unfold Stack.rawTx at hr
  cases h
  case ledger =>
    have ⟨l', hl', hlike, hc⟩ := hf (Ledger.lawful l) ⟨.refl, rfl⟩
    dsimp only at hr
    rw [hl'] at hr
    exact ⟨⟨l', []⟩, (Option.some.inj hr).symm, hc ▸ .ledger, hlike⟩
  case layer v layers c₀ cs h hb hv =>
    have hd := h.view
    rw [← hb] at hd
    cases v
    case openView v =>
      have ⟨v', hv', hb', hf', hc⟩ := hf (OpenView.lawful hd) ⟨rfl, hv⟩
      dsimp only at hr
      rw [hv'] at hr
      exact ⟨⟨l, .openView v' :: layers⟩, (Option.some.inj hr).symm,
        .layer h (hb'.trans hb) ⟨hf', hc⟩, .refl⟩
    case applyView v => cases hr

theorem Stack.Denotes.edit
    (hf : ∀ {v : ApplyView} {c₀ : Contents}, layers.head? = some (.applyView v) →
      v.base.Denotes c₀.state → v.items.Fits c₀.state → v.contents c₀ = c →
        ∃ t M, (f v = .ok { v with items := t }) ∧ v.items.Becomes c₀.state M t ∧
          (c' = { c with state := M }))
    (h : Stack.Denotes l layers (c :: cs)) (hr : (mk l layers).edit f = some r) :
    ∃ s', (r = .ok s') ∧ Stack.Denotes s'.ledger s'.layers (c' :: cs) ∧ l.Like s'.ledger := by
  unfold Stack.edit at hr
  cases h
  case ledger => cases hr
  case layer v layers c₀ cs h hb hv =>
    have hd := h.view
    rw [← hb] at hd
    cases v
    case openView v => cases hr
    case applyView v =>
      obtain ⟨hv, rfl⟩ := hv
      have ⟨t, M, ht, hbec, hc⟩ := hf rfl hd hv rfl
      dsimp only at hr
      rw [ht] at hr
      refine ⟨⟨l, .applyView { v with items := t } :: layers⟩, (Option.some.inj hr).symm,
        .layer h hb ⟨hbec.fits, ?_⟩, .refl⟩
      rw [hc]
      exact contents_becomes hbec

theorem Stack.Denotes.push (h : Stack.Denotes l layers (c :: cs))
    (hb : v.base = (mk l layers).view) (hv : v.Over c c) :
    ∃ s', ((.ok ((mk l layers).push v) : Except String Stack) = .ok s') ∧
      Stack.Denotes s'.ledger s'.layers (c :: c :: cs) ∧ l.Like s'.ledger :=
  ⟨_, rfl, .layer h hb hv, .refl⟩

theorem Layer.over_openView {u : OpenView} (hi : u.items = {}) (ht : u.txs = ∅) :
    (Layer.openView u).Over c c := by
  obtain ⟨b, i, o, r, items, txs⟩ := u
  cases hi
  cases ht
  refine ⟨⟨fits_empty, nofun⟩, ?_⟩
  exact congrArg (Contents.mk c.state · c.txs) (Int.sub_zero c.drops)

theorem Layer.over_applyView : (Layer.applyView ⟨b, {}⟩).Over c c :=
  ⟨fits_empty, congrArg (Contents.mk c.state · c.txs) (Int.sub_zero c.drops)⟩

theorem Stack.holds_of_edit {f : ApplyStateTable → Except String ApplyStateTable}
    (hf : ∀ {t t'}, f t = .ok t' → t.Holds p)
    (h : s.edit (fun v => return { v with items := ← f v.items }) = some (.ok s'))
    (hs : s.layers.head? = some (.applyView u)) : u.items.Holds p := by
  unfold edit at h
  split at h
  case h_2 => cases h
  case h_1 v rest hl =>
    rw [hl] at hs
    cases hs
    have ⟨v', hv, _⟩ := Except.bind_eq_ok.mp (Option.some.inj h)
    have ⟨t, ht, _⟩ := Except.bind_eq_ok.mp hv
    exact hf ht

theorem Stack.Denotes.step (h : Stack.Denotes s.ledger s.layers (c :: cs)) (hr : call.Requires s c)
    {r : Except String Stack} (hc : s.call call = some r) :
    ∃ s', (r = .ok s') ∧ Stack.Denotes s'.ledger s'.layers (call.spec (c :: cs)) ∧
      s.ledger.Like s'.ledger := by
  cases call
  case openLedger => cases hc; exact h.push rfl (Layer.over_openView rfl rfl)
  case openView => cases hc; exact h.push rfl (Layer.over_openView rfl rfl)
  case applyView => cases hc; exact h.push rfl Layer.over_applyView
  case peek k =>
    refine h.edit (fun {v c₀} _ hb hv hcv => ?_) hc
    subst hcv
    exact ⟨_, _, rfl, (peek_becomes hb hv k).left, rfl⟩
  case insert p =>
    refine h.edit (fun {v c₀} _ hb hv hcv => ?_) hc
    subst hcv
    have ⟨t, ht, hbec⟩ := insert_becomes hv hr.left hr.right
    exact ⟨t, _, bind_items ht, hbec, rfl⟩
  case update p =>
    refine h.edit (fun {v c₀} hs hb hv hcv => ?_) hc
    subst hcv
    have ⟨_, hr⟩ := hr
    have hp := holds_of_edit holds_of_update hr hs
    have ⟨t, ht, hbec⟩ := update_becomes hv hp
    exact ⟨t, _, bind_items ht, hbec, rfl⟩
  case erase p =>
    refine h.edit (fun {v c₀} hs hb hv hcv => ?_) hc
    subst hcv
    have ⟨_, hr⟩ := hr
    have hp := holds_of_edit holds_of_erase hr hs
    have ⟨t, ht, hbec⟩ := erase_becomes hv hp
    exact ⟨t, _, bind_items ht, hbec, rfl⟩
  case rawInsert p => cases hc; exact h.raw fun hl _ hd => hl.rawInsert hd hr.left hr.right
  case rawReplace p => cases hc; exact h.raw fun hl _ hd => hl.rawReplace hd hr
  case rawErase p => cases hc; exact h.raw fun hl _ hd => hl.rawErase hd hr
  case rawDestroyBIXRP fee =>
    cases hc
    exact h.raw fun hl _ hd => ⟨_, rfl, hl.rawDestroyBIXRP hd⟩
  case rawTxInsert key tx => exact h.rawTx (fun hl _ hd => hl.rawTxInsert hd hr.left hr.right) hc
  case apply =>
    have ⟨l, layers⟩ := s
    cases h
    case ledger => cases hc
    case layer v layers c₀ cs h hb hv =>
      cases v
      case openView v =>
        obtain ⟨hv, rfl⟩ := hv
        exact h.rawTx (fun hl _ hd => OpenView.apply_lawful hl hd hv) hc
      case applyView v =>
        obtain ⟨hv, rfl⟩ := hv
        cases hc
        exact h.raw fun hl _ hd => apply_lawful hl hd hv
  case discard =>
    have ⟨l, layers⟩ := s
    cases h
    case ledger => cases hc
    case layer h hb hv => cases hc; exact ⟨_, rfl, h, .refl⟩

theorem Reachable.denotes (h : Reachable l calls s cs) :
    Stack.Denotes s.ledger s.layers cs ∧ l.Like s.ledger := by
  induction h
  case init => exact ⟨.ledger, .refl⟩
  case step hr hc hi =>
    have ⟨s', hs', hd, hl⟩ := hi.left.step hr hc
    cases hs'
    exact ⟨hd, hi.right.trans hl⟩

theorem Stack.Denotes.isSome_of_edit {f : ApplyStateTable → Except String ApplyStateTable}
    (hf : ∀ {t t'}, f t = .ok t' → t.Holds p) (h : Stack.Denotes s.ledger s.layers (c :: cs))
    (hs : s.edit (fun v => return { v with items := ← f v.items }) = some (.ok s')) :
    (c.state p.key).isSome := by
  have ⟨l, layers⟩ := s
  cases h
  case ledger => cases hs
  case layer v _ _ _ _ _ hv =>
    cases v
    case openView => cases hs
    case applyView v => exact hv.right ▸ (holds_of_edit hf hs rfl).isSome

theorem Call.direct_spec {l₀ : Ledger} (h : Stack.Denotes s.ledger s.layers (c :: cs))
    (hr : call.Requires s c) (hd : call ≠ discard) (hl : l₀.Like l ∧ (l.contents = c)) :
    ∃ l' cs', (call.direct l = .ok l') ∧ l₀.Like l' ∧ (call.spec (c :: cs) = l'.contents :: cs') := by
  have hlaw := Ledger.lawful l₀
  have hraw {x : Except String Ledger} {c' : Contents}
      (h : ∃ l', (x = .ok l') ∧ l₀.Like l' ∧ (l'.contents = c')) :
      ∃ l' cs', (x = .ok l') ∧ l₀.Like l' ∧ (c' :: cs = l'.contents :: cs') := by
    obtain ⟨l', hx, hl', rfl⟩ := h
    exact ⟨l', cs, hx, hl', rfl⟩
  have hsame (cs' : List Contents) :
      ∃ l' cs'', ((.ok l : Except String Ledger) = .ok l') ∧ l₀.Like l' ∧
        (c :: cs' = l'.contents :: cs'') :=
    ⟨l, cs', rfl, hl.left, by rw [hl.right]⟩
  cases call
  case insert | rawInsert => exact hraw (hlaw.raw.rawInsert hl hr.left hr.right)
  case update p =>
    have ⟨_, hr⟩ := hr
    exact hraw (hlaw.raw.rawReplace hl (h.isSome_of_edit holds_of_update hr))
  case erase p =>
    have ⟨_, hr⟩ := hr
    exact hraw (hlaw.raw.rawErase hl (h.isSome_of_edit holds_of_erase hr))
  case rawReplace p => exact hraw (hlaw.raw.rawReplace hl hr)
  case rawErase p => exact hraw (hlaw.raw.rawErase hl hr)
  case rawDestroyBIXRP fee => exact hraw ⟨_, rfl, hlaw.raw.rawDestroyBIXRP hl⟩
  case rawTxInsert key tx => exact hraw (hlaw.rawTxInsert hl hr.left hr.right)
  case apply => cases cs <;> exact hsame _
  case discard => exact absurd rfl hd
  all_goals exact hsame _

theorem Reachable.direct (h : Reachable l calls s cs) (hd : .discard ∉ calls) :
    ∃ l' cs', (calls.foldlM Call.direct l = .ok l') ∧ l.Like l' ∧ (cs = l'.contents :: cs') := by
  induction h
  case init => exact ⟨l, [], rfl, .refl, rfl⟩
  case step calls s c cs call s' h hr hc hi =>
    rw [List.mem_append, not_or, List.mem_singleton] at hd
    have ⟨l₁, cs₁, hf, hlike, hcs⟩ := hi hd.left
    cases hcs
    have ⟨l', cs', hx, hl', hcs'⟩ :=
      Call.direct_spec h.denotes.left hr (Ne.symm hd.right) ⟨hlike, rfl⟩
    exact ⟨l', cs', by rw [List.foldlM_append, hf]; simp [hx], hl', hcs'⟩

-- The views answer as if all changes had been made to the ledger itself.
theorem Reachable.refines {calls : List Call} (h : Reachable l calls s cs) :
    ∃ c rest, (cs = c :: rest) ∧ s.view.Denotes c.state ∧
      (∀ s', s.call .apply = some (.ok s') → s'.view.Denotes c.state) ∧
      (∀ call r, call.Requires s c → s.call call = some r → ∃ s', r = .ok s') ∧
      (.discard ∉ calls → ∃ l', (calls.foldlM Call.direct l = .ok l') ∧ (l'.contents = c) ∧
        (s.layers = [] → s.ledger = l')) := by
  have ⟨hd, hl⟩ := h.denotes
  cases cs
  case nil => generalize s.layers = layers at hd; cases hd
  case cons c rest =>
    refine ⟨c, rest, rfl, hd.view, ?_, ?_, ?_⟩
    · intro s' hs'
      have hreq : Call.apply.Requires s c := trivial
      have ⟨_, hs, hd', _⟩ := hd.step hreq hs'
      cases hs
      cases rest
      case nil => exact hd'.view
      case cons => exact hd'.view
    · intro call r hr hc
      have ⟨s', hs', _⟩ := hd.step hr hc
      exact ⟨s', hs'⟩
    · intro hnd
      have ⟨l', cs', hf, hl', hcs⟩ := h.direct hnd
      cases hcs
      refine ⟨l', hf, rfl, fun hs => ?_⟩
      rw [hs] at hd
      refine Ledger.eq_of_contents ⟨?_, ?_, ?_⟩ ?_
      · rw [hl.info, hl'.info]
      · rw [hl.isOpen, hl'.isOpen]
      · rw [hl.rules, hl'.rules]
      · generalize hc : l'.contents = c at hd
        cases hd
        rfl

section OneEntry

-- A ledger with an offer as its only entry.
def offer : SLE := .make .ltOFFER 1

def oneEntry : Ledger where
  info     := { seq := 1, drops := 100 }
  isOpen   := false
  rules    := fun _ => true
  stateMap := (∅ : OrderedMap UInt256 SLE).insert 1 offer
  txMap    := ∅
  keyed    := by
    intro k s h
    rw [find?_insert] at h
    split at h
    case isTrue hk => cases h; exact hk.symm
    case isFalse => cases h
  nonzero  := rfl

theorem reachable_view : Reachable oneEntry [.applyView]
    ⟨oneEntry, [.applyView ⟨oneEntry.view, {}⟩]⟩ [oneEntry.contents, oneEntry.contents] :=
  .step .init trivial rfl

theorem reachable_peek : Reachable oneEntry [.applyView, .peek (.unchecked 1)]
    ⟨oneEntry, [.applyView (peek ⟨oneEntry.view, {}⟩ (.unchecked 1)).2]⟩
    [oneEntry.contents, oneEntry.contents] := by
  have hr (s : Stack) (c : Contents) : (Call.peek (.unchecked 1)).Requires s c := trivial
  exact .step reachable_view (hr _ _) rfl

-- A call that changes nothing changes what is said to exist.
theorem exists_depends_on_peek :
    ∃ s s' cs, Reachable oneEntry [.applyView] s cs ∧
      Reachable oneEntry [.applyView, .peek (.unchecked 1)] s' cs ∧
      (s.view.exists_ ⟨.ltACCOUNT_ROOT, 1⟩ = true) ∧
      (s'.view.exists_ ⟨.ltACCOUNT_ROOT, 1⟩ = false) :=
  ⟨_, _, _, reachable_view, reachable_peek, rfl, rfl⟩

-- The offer is erased in a view, which is then applied to the ledger.
theorem refines_erase :
    ∃ s cs,
    Reachable oneEntry [.applyView, .peek (.unchecked 1), .erase ⟨0, offer⟩, .apply] s cs ∧
      (s.view.read (.unchecked 1) = none) ∧
      ([Call.applyView, .peek (.unchecked 1), .erase ⟨0, offer⟩, .apply].foldlM Call.direct oneEntry =
        .ok s.ledger) := by
  have h : Reachable oneEntry [.applyView, .peek (.unchecked 1), .erase ⟨0, offer⟩] _ _ :=
    .step reachable_peek (⟨_, rfl⟩ : (Call.erase ⟨0, offer⟩).Requires _ _) rfl
  have hr (s : Stack) (c : Contents) : Call.apply.Requires s c := trivial
  have h' : Reachable oneEntry [.applyView, .peek (.unchecked 1), .erase ⟨0, offer⟩, .apply] _ _ :=
    .step h (hr _ _) rfl
  have ⟨c, rest, hcs, hd, _, _, hdir⟩ := h'.refines
  have ⟨l', hl', _, hs⟩ := hdir (by simp)
  cases hcs
  exact ⟨_, _, h', hd.read _, by rw [hs rfl]; exact hl'⟩

end OneEntry
end ReadView
