import Bixd.Ledger.NegativeUNL.Run
import Bixd.Ledger.Theorems.Edit

open ReadView SLE Change Keylet List

-- The validators that are not counted on, and those about to join or leave them.
structure NegativeUNL where
  disabled   : List Blob
  toDisable  : Option Blob
  toReEnable : Option Blob

namespace NegativeUNL

variable {u : NegativeUNL} {v : Blob}

def empty : NegativeUNL := ⟨[], none, none⟩

-- What a pseudo-transaction records, if it succeeds.
def modify (u : NegativeUNL) (disabling : Bool) (v : Blob) : Option NegativeUNL :=
  if disabling then
    if u.toDisable = none ∧ u.toReEnable ≠ some v ∧ v ∉ u.disabled then
      some { u with toDisable := some v }
    else
      none
  else
    if u.toReEnable = none ∧ u.toDisable ≠ some v ∧ v ∈ u.disabled then
      some { u with toReEnable := some v }
    else
      none

-- What is recorded takes effect.
def update (u : NegativeUNL) : NegativeUNL where
  disabled   := u.disabled.filter (fun v => u.toReEnable ≠ some v) ++ u.toDisable.toList
  toDisable  := none
  toReEnable := none

structure Consistent (u : NegativeUNL) : Prop where
  nodup      : u.disabled.Nodup
  toDisable  : ∀ v, u.toDisable = some v → v ∉ u.disabled
  toReEnable : ∀ v, u.toReEnable = some v → v ∈ u.disabled

theorem consistent_empty : empty.Consistent :=
  ⟨nodup_nil, nofun, nofun⟩

theorem Consistent.ne (h : u.Consistent) (hv : u.toReEnable = some v) : u.toDisable ≠ some v :=
  fun hd => h.toDisable v hd (h.toReEnable v hv)

theorem Consistent.modify (h : u.Consistent) (hm : u.modify disabling v = some u') :
    u'.Consistent := by
  unfold NegativeUNL.modify at hm
  split_ifs at hm with hd hok hok <;> cases hm
  case pos => exact ⟨h.nodup, fun w hw => Option.some.inj hw ▸ hok.right.right, h.toReEnable⟩
  case pos => exact ⟨h.nodup, h.toDisable, fun w hw => Option.some.inj hw ▸ hok.right.right⟩

theorem Consistent.update (h : u.Consistent) : u.update.Consistent := by
  refine ⟨?_, nofun, nofun⟩
  refine List.Nodup.append (h.nodup.filter _) ?_ fun v hv hv' => ?_
  · cases u.toDisable <;> simp
  · exact h.toDisable v (Option.mem_toList.mp hv') (mem_filter.mp hv).left

theorem update_eq_self (hd : u.toDisable = none) (hr : u.toReEnable = none) : u.update = u := by
  cases u
  simp_all [update]

theorem disabled_modify (hm : u.modify disabling v = some u') : u'.disabled = u.disabled := by
  unfold modify at hm
  split_ifs at hm <;> cases hm <;> rfl

theorem pending_modify (hm : u.modify disabling v = some u') :
    (u'.toDisable.toList = u.toDisable.toList ++ if disabling = true then [v] else []) ∧
      (u'.toReEnable.toList = u.toReEnable.toList ++ if disabling = false then [v] else []) := by
  unfold modify at hm
  split_ifs at hm with hd hok hok <;> cases hm
  case pos => simp [hd, hok.left]
  case pos => simp [hd, hok.left]

-- What an entry has.
def ofEntry (s : SLE) : NegativeUNL where
  disabled   := (s.getFieldArray sfDisabledValidators).map (·.2.getFieldVL sfPublicKey)
  toDisable  :=
    if s.isFieldPresent sfValidatorToDisable then some (s.getFieldVL sfValidatorToDisable) else none
  toReEnable :=
    if s.isFieldPresent sfValidatorToReEnable then some (s.getFieldVL sfValidatorToReEnable) else none

-- The entry has one of the fields.
def Needed (s : SLE) : Prop :=
  s.isFieldPresent sfDisabledValidators ∨ s.isFieldPresent sfValidatorToDisable ∨
    s.isFieldPresent sfValidatorToReEnable

structure WellFormed (s : SLE) : Prop where
  type : s.type = .ltNEGATIVE_UNL
  keys : ∀ e ∈ s.getFieldArray sfDisabledValidators, e.2.isFieldPresent sfPublicKey

theorem toDisable_ne : sfValidatorToDisable ≠ sfDisabledValidators := by decide
theorem toReEnable_ne : sfValidatorToReEnable ≠ sfDisabledValidators := by decide
theorem toReEnable_ne_toDisable : sfValidatorToReEnable ≠ sfValidatorToDisable := by decide

section Entry

variable {s : SLE}

theorem found_eq (h : WellFormed s) :
    (s.getFieldArray sfDisabledValidators).any (fun e =>
      e.2.isFieldPresent sfPublicKey ∧ e.2.getFieldVL sfPublicKey = v) =
      decide (v ∈ (ofEntry s).disabled) := by
  rw [Bool.eq_iff_iff]
  simp only [ofEntry, any_eq_true, mem_map, decide_eq_true_eq]
  constructor
  case mp => exact fun ⟨e, he, _, hv⟩ => ⟨e, he, hv⟩
  case mpr => exact fun ⟨e, he, hv⟩ => ⟨e, he, h.keys e he, hv⟩

theorem toDisable_eq_none : (ofEntry s).toDisable = none ↔
    s.isFieldPresent sfValidatorToDisable = false := by
  simp [ofEntry]

theorem toReEnable_eq_none : (ofEntry s).toReEnable = none ↔
    s.isFieldPresent sfValidatorToReEnable = false := by
  simp [ofEntry]

theorem toDisable_eq_some : (ofEntry s).toDisable = some v ↔
    s.isFieldPresent sfValidatorToDisable ∧ s.getFieldVL sfValidatorToDisable = v := by
  simp [ofEntry]

theorem toReEnable_eq_some : (ofEntry s).toReEnable = some v ↔
    s.isFieldPresent sfValidatorToReEnable ∧ s.getFieldVL sfValidatorToReEnable = v := by
  simp [ofEntry]

-- The fields by themselves.

theorem ofEntry_set_toDisable : ofEntry (s.set sfValidatorToDisable (.vl v)) =
    { ofEntry s with toDisable := some v } := by
  rfl

theorem ofEntry_set_toReEnable : ofEntry (s.set sfValidatorToReEnable (.vl v)) =
    { ofEntry s with toReEnable := some v } := by
  rfl

theorem WellFormed.set (h : WellFormed s) (hf : sfDisabledValidators ≠ f) :
    WellFormed (s.set f x) := by
  refine ⟨h.type, ?_⟩
  rw [getFieldArray, fields_set_of_ne hf]
  exact h.keys

theorem modify_spec (h : WellFormed s) (disabling : Bool) (v : Blob) :
    match (ofEntry s).modify disabling v with
    | none => applyUNLModify.edit s disabling v = .error tefFAILURE
    | some u' => ∃ s', applyUNLModify.edit s disabling v = .ok s' ∧ (ofEntry s' = u') ∧
      (s'.key = s.key) ∧ WellFormed s' ∧ Needed s' := by
  unfold applyUNLModify.edit modify
  simp only [found_eq h, toDisable_eq_none, toReEnable_eq_none, ne_eq, toDisable_eq_some,
    toReEnable_eq_some]
  cases disabling
  case true =>
    by_cases hd : s.isFieldPresent sfValidatorToDisable
    case pos => simp [hd]
    by_cases hr : s.isFieldPresent sfValidatorToReEnable ∧ s.getFieldVL sfValidatorToReEnable = v
    case pos => simp [hr]
    by_cases hm : v ∈ (ofEntry s).disabled
    case pos => simp [hm]
    simp only [hd, hr, hm, if_true, if_false, not_false_eq_true, and_self, decide_false]
    refine ⟨_, rfl, ofEntry_set_toDisable, rfl, h.set toDisable_ne.symm, .inr (.inl ?_)⟩
    simp [isFieldPresent]
  case false =>
    by_cases hr : s.isFieldPresent sfValidatorToReEnable
    case pos => simp [hr]
    by_cases hd : s.isFieldPresent sfValidatorToDisable ∧ s.getFieldVL sfValidatorToDisable = v
    case pos => simp [hd]
    by_cases hm : v ∈ (ofEntry s).disabled
    case neg => simp [hm]
    simp only [hd, hr, hm, if_true, if_false, not_false_eq_true, and_self, decide_true]
    refine ⟨_, rfl, ofEntry_set_toReEnable, rfl, h.set toReEnable_ne.symm, .inr (.inr ?_)⟩
    simp [isFieldPresent]

-- What the start of a flag ledger makes of an entry.

theorem map_kept (h : WellFormed s) :
    ((s.getFieldArray sfDisabledValidators).filter fun e =>
      !(s.isFieldPresent sfValidatorToReEnable ∧ e.2.isFieldPresent sfPublicKey ∧
        e.2.getFieldVL sfPublicKey = s.getFieldVL sfValidatorToReEnable)).map
      (·.2.getFieldVL sfPublicKey) =
    (ofEntry s).disabled.filter (fun v => (ofEntry s).toReEnable ≠ some v) := by
  have hd : (ofEntry s).disabled =
    (s.getFieldArray sfDisabledValidators).map (·.2.getFieldVL sfPublicKey) := rfl
  rw [hd, filter_map]
  refine congrArg _ (filter_congr fun e he => ?_)
  have hr : (ofEntry s).toReEnable = some (e.2.getFieldVL sfPublicKey) ↔
      s.isFieldPresent sfValidatorToReEnable ∧ e.2.isFieldPresent sfPublicKey ∧
        e.2.getFieldVL sfPublicKey = s.getFieldVL sfValidatorToReEnable := by
    rw [toReEnable_eq_some, eq_comm (a := s.getFieldVL _)]
    simp only [h.keys e he, true_and]
  simp only [Function.comp_apply, ne_eq, hr, decide_not]

theorem fields_pendingAbsent {x : STVar} :
    let hasToDisable := s.isFieldPresent sfValidatorToDisable
    let hasToReEnable := s.isFieldPresent sfValidatorToReEnable
    let s₁ := s.set sfDisabledValidators x
    let s₂ := if hasToReEnable then s₁.makeFieldAbsent sfValidatorToReEnable else s₁
    let s' := if hasToDisable then s₂.makeFieldAbsent sfValidatorToDisable else s₂
    (s'.fields sfDisabledValidators = some x) ∧ (s'.fields sfValidatorToDisable = none) ∧
      (s'.fields sfValidatorToReEnable = none) ∧ (s'.key = s.key) ∧ (s'.type = s.type) := by
  intro hasToDisable hasToReEnable s₁ s₂ s'
  have h₁ : s₁.fields sfDisabledValidators = some x := fields_set_self
  have h₂ : s₁.fields sfValidatorToDisable = s.fields sfValidatorToDisable :=
    fields_set_of_ne toDisable_ne
  have h₃ : s₁.fields sfValidatorToReEnable = s.fields sfValidatorToReEnable :=
    fields_set_of_ne toReEnable_ne
  have hs₂ : (s₂.fields sfDisabledValidators = some x) ∧
      (s₂.fields sfValidatorToDisable = s.fields sfValidatorToDisable) ∧
      (s₂.fields sfValidatorToReEnable = none) ∧ (s₂.key = s.key) ∧ (s₂.type = s.type) := by
    unfold s₂
    split
    case isTrue =>
      refine ⟨?_, ?_, fields_makeFieldAbsent_self, rfl, rfl⟩
      · rwa [fields_makeFieldAbsent_of_ne toReEnable_ne.symm]
      · rwa [fields_makeFieldAbsent_of_ne toReEnable_ne_toDisable.symm]
    case isFalse h => exact ⟨h₁, h₂, h₃.trans (Option.not_isSome_iff_eq_none.mp h), rfl, rfl⟩
  unfold s'
  split
  case isTrue =>
    refine ⟨?_, fields_makeFieldAbsent_self, ?_, hs₂.right.right.right⟩
    · rw [fields_makeFieldAbsent_of_ne toDisable_ne.symm, hs₂.left]
    · rw [fields_makeFieldAbsent_of_ne toReEnable_ne_toDisable, hs₂.right.right.left]
  case isFalse h =>
    have hn := hs₂.right.left.trans (Option.not_isSome_iff_eq_none.mp h)
    exact ⟨hs₂.left, hn, hs₂.right.right⟩

theorem ofEntry_of_fields (h₁ : s.fields sfDisabledValidators = some (.array (.ofList es)))
    (h₂ : s.fields sfValidatorToDisable = none) (h₃ : s.fields sfValidatorToReEnable = none) :
    ofEntry s = ⟨es.map (·.2.getFieldVL sfPublicKey), none, none⟩ := by
  simp [ofEntry, getFieldArray, isFieldPresent, h₁, h₂, h₃]

theorem update_spec (h : WellFormed s) (seq : UInt32) :
    match Ledger.updateNegativeUNL.edit s seq with
    | none => (ofEntry s).update = empty
    | some s' => (ofEntry s' = (ofEntry s).update) ∧ (s'.key = s.key) ∧ WellFormed s' ∧
      Needed s' := by
  unfold Ledger.updateNegativeUNL.edit
  extract_lets hasToDisable hasToReEnable kept newNUnl sle₁ sle₂
  have hkept := map_kept h
  have hkeys : ∀ e ∈ kept, e.2.isFieldPresent sfPublicKey :=
    fun e he => h.keys e (mem_filter.mp he).left
  have hnew : (newNUnl.map (·.2.getFieldVL sfPublicKey) = (ofEntry s).update.disabled) ∧
      ∀ e ∈ newNUnl, e.2.isFieldPresent sfPublicKey := by
    unfold newNUnl update
    rw [← hkept]
    split
    case isTrue hd =>
      have hv := toDisable_eq_some.mpr ⟨hd, rfl⟩
      refine ⟨by rw [map_append, hv]; rfl, fun e he => ?_⟩
      obtain he | he := mem_append.mp he
      · exact hkeys e he
      · exact mem_singleton.mp he ▸ rfl
    case isFalse hd =>
      have hv := toDisable_eq_none.mpr (Bool.eq_false_of_not_eq_true hd)
      exact ⟨by rw [hv, Option.toList_none, append_nil], hkeys⟩
  by_cases hempty : newNUnl = []
  case pos =>
    rw [hempty] at hnew ⊢
    exact congrArg (mk · none none) hnew.left.symm
  rw [if_pos (by simp [hempty])]
  have ⟨h₁, h₂, h₃, hk, ht⟩ := fields_pendingAbsent (s := s) (x := .array (.ofList newNUnl))
  refine ⟨?_, hk, ⟨ht.trans h.type, ?_⟩, .inl ?_⟩
  · rw [ofEntry_of_fields h₁ h₂ h₃, hnew.left]
    rfl
  · rw [getFieldArray, h₁]
    simpa using hnew.right
  · rw [isFieldPresent, h₁]
    rfl

end Entry

variable {rs : List Recorded}

theorem validators_concat (rs : List Recorded) (r : Recorded) (disabling : Bool) :
    Recorded.validators (rs ++ [r]) disabling =
      Recorded.validators rs disabling ++ if r.disabling = disabling then [r.validator] else [] := by
  unfold Recorded.validators
  split
  case isTrue h => simp [h]
  case isFalse h => simp [h]

theorem lt_of_not_isFlagLedger (hlast : isFlagLedger last) (hle : last ≤ seq)
    (hlt : seq.toNat < last.toNat + 256) (hn : !isFlagLedger (seq + 1)) :
    (last ≤ seq + 1) ∧ ((seq + 1).toNat < last.toNat + 256) := by
  have hone : (1 : UInt32).toNat = 1 := rfl
  have h256 : (256 : UInt32).toNat = 256 := rfl
  have hzero : (0 : UInt32).toNat = 0 := rfl
  simp only [isFlagLedger, FLAG_LEDGER_INTERVAL, ← UInt32.toNat_inj, UInt32.toNat_mod,
    UInt32.toNat_add, decide_eq_true_eq, Bool.not_eq_true', decide_eq_false_iff_not, hone, h256,
    hzero] at hlast hn
  have hseq := seq.toNat_lt
  rw [UInt32.le_iff_toNat_le] at hle ⊢
  rw [UInt32.toNat_add, hone]
  omega

variable [Digest] {l l' : Ledger}

-- What the entries `M` have. The entry is there if it is needed.
structure In (M : UInt256 → Option SLE) (u : NegativeUNL) : Prop where
  entry : ∀ s, M negativeUNL.key = some s → WellFormed s ∧ Needed s
  eq    : ((M negativeUNL.key).map ofEntry).getD empty = u

theorem In.congr (h : In M u) (hm : M' negativeUNL.key = M negativeUNL.key) :
    In M' u :=
  ⟨hm ▸ h.entry, hm ▸ h.eq⟩

theorem In.check (h : In M u) (s : SLE) (hs : M negativeUNL.key = some s) :
    negativeUNL.check s :=
  decide_eq_true (h.entry s hs).left.type

theorem In.of_some (h : WellFormed s) (hn : Needed s)
    (hs : M negativeUNL.key = some s) : In M (ofEntry s) := by
  refine ⟨fun s' hs' => ?_, by rw [hs]; rfl⟩
  cases hs.symm.trans hs'
  exact ⟨h, hn⟩

theorem In.of_none (hs : M negativeUNL.key = none) : In M empty :=
  ⟨fun s h => (Option.some_ne_none s (h.symm.trans hs)).elim, by rw [hs]; rfl⟩

theorem In.eq_ofEntry (h : In M u) (hs : M negativeUNL.key = some s) : u = ofEntry s := by
  rw [← h.eq, hs]
  rfl

theorem In.filter (h : In M u) :
    (M negativeUNL.key).filter negativeUNL.check = M negativeUNL.key := by
  cases hm : M negativeUNL.key
  case none => rfl
  case some s => rw [Option.filter_some, if_pos (h.check s hm)]

-- What the ledger says about the entry.

section

variable (h : In l.contents.state u)

include h

theorem In.entry_eq : NegativeUNL.entry l = l.contents.state negativeUNL.key :=
  (l.denotes.read .negativeUNL).trans h.filter

theorem In.disabledValidators_eq : disabledValidators l = u.disabled := by
  rw [disabledValidators, h.entry_eq, ← h.eq]
  cases l.contents.state negativeUNL.key <;> rfl

theorem In.validatorToDisable_eq : validatorToDisable l = u.toDisable := by
  rw [validatorToDisable, pending, h.entry_eq, ← h.eq]
  cases l.contents.state negativeUNL.key <;> rfl

theorem In.validatorToReEnable_eq : validatorToReEnable l = u.toReEnable := by
  rw [validatorToReEnable, pending, h.entry_eq, ← h.eq]
  cases l.contents.state negativeUNL.key <;> rfl

-- What the steps do to the ledger.

theorem In.update :
    ∃ l', l.updateNegativeUNL = .ok l' ∧ l.Like l' ∧ In l'.contents.state u.update := by
  have hraw := (Ledger.lawful l).raw
  unfold Ledger.updateNegativeUNL
  have hpeek : l.peek .negativeUNL = l.contents.state negativeUNL.key := h.filter
  rw [hpeek]
  cases hm : l.contents.state negativeUNL.key
  case none =>
    have hu : u = empty := by rw [← h.eq, hm]; rfl
    exact ⟨l, rfl, .refl, hu ▸ .of_none hm⟩
  case some s =>
    have hu := h.eq_ofEntry hm
    have ⟨hw, hn⟩ := h.entry s hm
    have hk := l.keyed _ _ hm
    dsimp only
    split
    case isTrue hno =>
      simp only [Bool.not_eq_true'] at hno
      have hd := toDisable_eq_none.mpr hno.left
      have hr := toReEnable_eq_none.mpr hno.right
      refine ⟨l, rfl, .refl, ?_⟩
      rw [update_eq_self (hu ▸ hd) (hu ▸ hr)]
      exact h
    case isFalse =>
      have hspec := update_spec hw l.info.seq
      rw [← hu] at hspec
      have hs : (l.contents.state s.key).isSome := by rw [hk, hm]; rfl
      split at hspec
      case h_1 hn =>
        rw [hn]
        have ⟨l', hl', hlike, hc⟩ := hraw.rawErase (p := ⟨0, s⟩) ⟨.refl, rfl⟩ hs
        refine ⟨l', hl', hlike, hspec ▸ .of_none ?_⟩
        rw [hc, ← hk]
        exact Function.update_self ..
      case h_2 s' hn =>
        rw [hn]
        have ⟨he, hk', hw', hn'⟩ := hspec
        have ⟨l', hl', hlike, hc⟩ :=
          hraw.rawReplace (p := ⟨0, s'⟩) ⟨.refl, rfl⟩ (by rwa [SLEPtr.key, hk'])
        refine ⟨l', hl', hlike, he ▸ .of_some hw' hn' ?_⟩
        rw [hc, ← hk, ← hk']
        exact Function.update_self ..

end

variable {view : ApplyView}

theorem wellFormed_make : WellFormed (.make .ltNEGATIVE_UNL negativeUNL.key) :=
  ⟨rfl, nofun⟩

theorem applyUNLModify_spec (hk : negativeUNL.key ≠ 0) (hv : view.Shows B M) (hu : In M u)
    (tx : STTx) :
    ∃ ter view', applyUNLModify tx view = .ok (ter, view', ()) ∧
      (isTesSuccess ter = true → isFlagLedger view.base.info.seq ∧
        ∃ u' M', u.modify (tx.getFieldU8 sfUNLModifyDisabling ≠ 0)
          (tx.getFieldVL sfUNLModifyValidator) = some u' ∧ view'.Shows B M' ∧ In M' u') := by
  unfold applyUNLModify
  split
  case isTrue => exact ⟨_, _, rfl, nofun⟩
  split
  case isTrue => exact ⟨_, _, rfl, nofun⟩
  split
  case isTrue => exact ⟨_, _, rfl, nofun⟩
  split
  case isTrue => exact ⟨_, _, rfl, nofun⟩
  case isFalse hflag _ _ _ =>
    have ⟨p, v₁, hp, _, hs, hupd⟩ := hv.peekOrInsert_update hk hu.check
    have hp' : WellFormed p.sle ∧ (ofEntry p.sle = u) := by
      rw [hs]
      cases hm : M negativeUNL.key
      case none => exact ⟨wellFormed_make, by rw [← hu.eq, hm]; rfl⟩
      case some s => exact ⟨(hu.entry s hm).left, (hu.eq_ofEntry hm).symm⟩
    have hspec := modify_spec hp'.left (tx.getFieldU8 sfUNLModifyDisabling ≠ 0)
      (tx.getFieldVL sfUNLModifyValidator)
    rw [hp'.right] at hspec
    rw [hp]
    simp only [bind, Except.bind]
    split at hspec
    case h_1 =>
      rw [hspec]
      exact ⟨_, _, rfl, nofun⟩
    case h_2 u' hm =>
      have ⟨s', hs', he, hk', hw, hn⟩ := hspec
      have ⟨v₂, hv₂, hsh⟩ := hupd s' hk'
      rw [hs']
      simp only [hv₂]
      refine ⟨_, _, rfl, fun _ => ⟨by simpa using hflag, u', _, hm, hsh, ?_⟩⟩
      exact he ▸ .of_some hw hn (Function.update_self ..)

theorem In.modify (hk : negativeUNL.key ≠ 0) (hu : In l.contents.state u) (tx : STTx) :
    ∃ ter l', applyTo (applyUNLModify tx) l = .ok (ter, l', ()) ∧ l.Like l' ∧
      if isTesSuccess ter then isFlagLedger l.info.seq ∧
        ∃ u', u.modify (tx.getFieldU8 sfUNLModifyDisabling ≠ 0)
          (tx.getFieldVL sfUNLModifyValidator) = some u' ∧ In l'.contents.state u'
      else
        l' = l := by
  have ⟨ter, v', hv', hspec⟩ := applyUNLModify_spec hk (.init l.denotes) hu tx
  unfold applyTo
  rw [hv']
  simp only [bind, Except.bind]
  cases hter : isTesSuccess ter
  case false => exact ⟨ter, l, rfl, .refl, by rw [hter]; rfl⟩
  have ⟨hflag, u', M', hm, hsh, hin⟩ := hspec hter
  have ⟨l', hl', hlike, hst, _⟩ := hsh.apply
  rw [if_pos rfl, hl']
  refine ⟨ter, l', rfl, hlike, ?_⟩
  rw [if_pos hter]
  exact ⟨hflag, u', hm, hst ▸ hin⟩

-- What is pending was recorded in the last flag ledger.
structure Inv (rs : List Recorded) (l : Ledger) (u : NegativeUNL) : Prop where
  entry      : In l.contents.state u
  consistent : u.Consistent
  last       : ∀ r ∈ rs, isFlagLedger r.seq ∧ (r.seq ≤ l.info.seq) ∧
    (l.info.seq.toNat < r.seq.toNat + 256)
  toDisable  : u.toDisable.toList = Recorded.validators rs true
  toReEnable : u.toReEnable.toList = Recorded.validators rs false

theorem Inv.next (h : Inv rs l u) (closeTime : UInt32) (hn : !isFlagLedger (l.info.seq + 1)) :
    Inv rs (l.next closeTime) u where
  entry := h.entry
  consistent := h.consistent
  last r hr := by
    have ⟨hflag, hle, hlt⟩ := h.last r hr
    exact ⟨hflag, lt_of_not_isFlagLedger hflag hle hlt hn⟩
  toDisable := h.toDisable
  toReEnable := h.toReEnable

theorem Inv.flag (h : Inv rs l u) (closeTime : UInt32) :
    ∃ l', (l.next closeTime).updateNegativeUNL = .ok l' ∧ Inv [] l' u.update := by
  have ⟨l', hl', _, hin⟩ := In.update (l := l.next closeTime) h.entry
  exact ⟨l', hl', hin, h.consistent.update, nofun, rfl, rfl⟩

section

variable (hk : negativeUNL.key ≠ 0)

include hk

theorem Inv.modify (h : Inv rs l u) (tx : STTx) :
    ∃ ter l' u', applyTo (applyUNLModify tx) l = .ok (ter, l', ()) ∧
      (u'.disabled = u.disabled) ∧
      Inv (if isTesSuccess ter then rs ++ [.of tx l] else rs) l' u' := by
  have ⟨ter, l', hl', hlike, hspec⟩ := In.modify hk h.entry tx
  have hseq := congrArg (·.seq) hlike.info
  split at hspec
  case isFalse hter =>
    refine ⟨ter, l', u, hl', rfl, ?_⟩
    rw [if_neg hter, hspec]
    exact h
  case isTrue hter =>
    have ⟨hflag, u', hm, hin⟩ := hspec
    have ⟨hd, hr⟩ := pending_modify hm
    refine ⟨ter, l', u', hl', disabled_modify hm, ?_⟩
    rw [if_pos hter]
    refine ⟨hin, h.consistent.modify hm, fun r hr => ?_, ?_, ?_⟩
    · rw [hseq]
      obtain hr | hr := mem_append.mp hr
      case inl => exact h.last r hr
      case inr =>
        obtain rfl := mem_singleton.mp hr
        exact ⟨hflag, UInt32.le_refl _, by simp [Recorded.of]⟩
    · rw [validators_concat, ← h.toDisable, hd]
      rfl
    · rw [validators_concat, ← h.toReEnable, hr]
      rfl

theorem Inv.step (h : Inv rs l u) (hs : Step rs l rs' l') : ∃ u', Inv rs' l' u' := by
  cases hs
  case next closeTime hn => exact ⟨u, h.next closeTime hn⟩
  case flag closeTime _ hl' =>
    have ⟨_, hl, hi⟩ := h.flag closeTime
    cases hl'.symm.trans hl
    exact ⟨_, hi⟩
  case modify tx hl' =>
    have ⟨_, _, _, hl, _, hi⟩ := h.modify hk tx
    cases hl'.symm.trans hl
    exact ⟨_, hi⟩
  case other ho =>
    refine ⟨u, h.entry.congr ho.state, h.consistent, ?_, h.toDisable, h.toReEnable⟩
    rw [ho.seq]
    exact h.last

theorem Reachable.inv (h : Reachable rs l) : ∃ u, Inv rs l u := by
  induction h
  case init hn => exact ⟨empty, .of_none hn, consistent_empty, nofun, rfl, rfl⟩
  case step hs hi =>
    have ⟨_, hi⟩ := hi
    exact hi.step hk hs

end

theorem Inv.exists_iff (h : Inv rs l u) : l.view.exists_ .negativeUNL ↔
    hasField l sfDisabledValidators ∨ hasField l sfValidatorToDisable ∨
      hasField l sfValidatorToReEnable := by
  have hex : l.view.exists_ .negativeUNL = (l.contents.state negativeUNL.key).isSome := rfl
  simp only [hasField, h.entry.entry_eq, hex]
  cases hm : l.contents.state negativeUNL.key
  case none => simp
  case some s =>
    have hn := (h.entry.entry s hm).right
    simpa [Needed] using hn

-- The list and what is pending are consistent. The list changes at the start of flag ledgers only,
-- by what was recorded in the flag ledger before.
theorem Reachable.negativeUNL_consistent (hk : negativeUNL.key ≠ 0) (h : Reachable rs l) :
    (disabledValidators l).Nodup ∧
    (∀ v, validatorToDisable l = some v → v ∉ disabledValidators l) ∧
    (∀ v, validatorToReEnable l = some v →
      v ∈ disabledValidators l ∧ validatorToDisable l ≠ some v) ∧
    (l.view.exists_ .negativeUNL ↔ hasField l sfDisabledValidators ∨
      hasField l sfValidatorToDisable ∨ hasField l sfValidatorToReEnable) ∧
    (∀ r ∈ rs, isFlagLedger r.seq ∧ (r.seq ≤ l.info.seq) ∧ (l.info.seq.toNat < r.seq.toNat + 256)) ∧
    ((Recorded.validators rs true).length ≤ 1 ∧ (Recorded.validators rs false).length ≤ 1) ∧
    (∀ closeTime, ∃ l', (l.next closeTime).updateNegativeUNL = .ok l' ∧
      (disabledValidators l' = (disabledValidators l).filter (· ∉ Recorded.validators rs false) ++
        Recorded.validators rs true)) ∧
    (∀ closeTime, disabledValidators (l.next closeTime) = disabledValidators l) ∧
    (∀ tx, ∃ ter l', applyTo (applyUNLModify tx) l = .ok (ter, l', ()) ∧
      (disabledValidators l' = disabledValidators l)) := by
  have ⟨u, hi⟩ := h.inv hk
  have hc := hi.consistent
  rw [hi.entry.disabledValidators_eq, hi.entry.validatorToDisable_eq,
    hi.entry.validatorToReEnable_eq]
  refine ⟨hc.nodup, hc.toDisable, fun v hv => ⟨hc.toReEnable v hv, hc.ne hv⟩, hi.exists_iff,
    hi.last, ⟨?_, ?_⟩, fun closeTime => ?_, fun closeTime => ?_, fun tx => ?_⟩
  · rw [← hi.toDisable]
    cases u.toDisable <;> simp
  · rw [← hi.toReEnable]
    cases u.toReEnable <;> simp
  · have ⟨l', hl', hi'⟩ := hi.flag closeTime
    refine ⟨l', hl', ?_⟩
    rw [hi'.entry.disabledValidators_eq, ← hi.toDisable, ← hi.toReEnable, update]
    simp only [Option.mem_toList, ne_eq]
  · exact (In.disabledValidators_eq (l := l.next closeTime) hi.entry)
  · have ⟨ter, l', u', hl', hd, hi'⟩ := hi.modify hk tx
    exact ⟨ter, l', hl', hi'.entry.disabledValidators_eq.trans hd⟩

end NegativeUNL

namespace NegativeUNL

section OneValidator

attribute [local instance] oneDigest

-- The ledger before a flag ledger.
def beforeFlag : Ledger :=
  .blank { seq := 255, drops := 0 } fun _ => true

def validatorKey : Blob := 0xED :: List.replicate 32 7

-- The validator is to be disabled.
def disablingTx : STTx where
  txID   := 1
  type   := .ttUNL_MODIFY
  fields := fun f =>
    if f = sfUNLModifyDisabling then some (.uint8 1)
    else if f = sfLedgerSequence then some (.uint32 256)
    else if f = sfUNLModifyValidator then some (.vl validatorKey)
    else none

theorem reachable_disabling : ∃ l, Reachable [⟨256, true, validatorKey⟩] l := by
  have h₀ : Reachable [] beforeFlag := .init rfl
  have h₁ : Reachable [] (beforeFlag.next 0) := .step h₀ (.flag 0 rfl rfl)
  have hm : applyTo (applyUNLModify disablingTx) (beforeFlag.next 0) =
    .ok (tesSUCCESS, _, ()) := rfl
  exact ⟨_, .step h₁ (.modify disablingTx hm)⟩

theorem consistent_disabling : ∃ l l', Reachable [⟨256, true, validatorKey⟩] l ∧
    (l.next 0).updateNegativeUNL = .ok l' ∧ validatorKey ∈ disabledValidators l' := by
  have ⟨l, h⟩ := reachable_disabling
  have ⟨_, _, _, _, _, _, hflag, _⟩ := Reachable.negativeUNL_consistent (by decide) h
  have ⟨l', hl', hd⟩ := hflag 0
  exact ⟨l, l', h, hl', hd ▸ mem_append_right _ (mem_singleton_self _)⟩

end OneValidator

end NegativeUNL
