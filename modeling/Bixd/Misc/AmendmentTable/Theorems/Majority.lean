import Bixd.Ledger.Theorems.Edit
import Bixd.Misc.AmendmentTable.Run

open ReadView List Keylet

-- What the ledger has about amendments.
structure Amendments where
  enabled    : List UInt256
  majorities : List (UInt256 × UInt32)

namespace Amendments

variable {e : Amendments}

def empty : Amendments := ⟨[], []⟩

-- What a pseudo-transaction does, if it succeeds.
def apply (e : Amendments) (a : UInt256) (got lost : Bool) (time : UInt32) : Option Amendments :=
  if a ∈ e.enabled then
    none
  else if got ∧ lost then
    none
  else if got then
    if a ∈ e.majorities.map Prod.fst then
      none
    else
      some { e with majorities := e.majorities ++ [(a, time)] }
  else if lost then
    if a ∈ e.majorities.map Prod.fst then
      some { e with majorities := e.majorities.filter (·.1 ≠ a) }
    else
      none
  else
    some ⟨e.enabled ++ [a], e.majorities.filter (·.1 ≠ a)⟩

-- Amendments are enabled once, and have one majority at most before that.
structure Consistent (e : Amendments) : Prop where
  enabled    : e.enabled.Nodup
  majorities : (e.majorities.map Prod.fst).Nodup
  disjoint   : ∀ a ∈ e.enabled, a ∉ e.majorities.map Prod.fst

theorem Consistent.apply (he : e.Consistent) (h : e.apply a got lost time = some e') :
    e'.Consistent := by
  have hfilter : ((e.majorities.filter (·.1 ≠ a)).map Prod.fst).Sublist (e.majorities.map Prod.fst) :=
    filter_sublist.map _
  unfold Amendments.apply at h
  split_ifs at h with hen hgl hg hm hl hm' <;> cases h
  case neg =>
    -- A majority is recorded.
    refine ⟨he.enabled, ?_, fun b hb => ?_⟩
    · rw [map_append, map_singleton]
      exact concat_eq_append ▸ he.majorities.concat hm
    · rw [map_append, map_singleton, mem_append, mem_singleton]
      rintro (h | rfl)
      · exact he.disjoint b hb h
      · exact hen hb
  case pos =>
    exact ⟨he.enabled, he.majorities.sublist hfilter, fun b hb h =>
      he.disjoint b hb (hfilter.subset h)⟩
  case neg =>
    have hn : (e.enabled ++ [a]).Nodup := concat_eq_append ▸ he.enabled.concat hen
    refine ⟨hn, he.majorities.sublist hfilter, fun b hb h => ?_⟩
    obtain hb | hb := mem_append.mp hb
    · exact he.disjoint b hb (hfilter.subset h)
    · obtain rfl := mem_singleton.mp hb
      have ⟨x, hx, hxb⟩ := mem_map.mp h
      exact absurd hxb (of_decide_eq_true (mem_filter.mp hx).right)

section

variable (h : e.apply a got lost time = some e')

include h

theorem enabled_apply_of_ne (hb : b ≠ a) : b ∈ e'.enabled ↔ b ∈ e.enabled := by
  unfold apply at h
  split_ifs at h <;> cases h <;> simp [hb]

theorem majorities_apply_of_ne (hb : b ≠ a) : (b, T) ∈ e'.majorities ↔ (b, T) ∈ e.majorities := by
  unfold apply at h
  split_ifs at h <;> cases h <;> simp [hb]

theorem prefix_apply : e.enabled.IsPrefix e'.enabled := by
  unfold apply at h
  split_ifs at h <;> cases h
  · exact prefix_rfl
  · exact prefix_rfl
  · exact prefix_append ..

end

-- What a pseudo-transaction with the flags does. If it fails, nothing changes.
def step (time : UInt32) (e : Amendments) (action : UInt256 × UInt32) : Amendments :=
  (e.apply action.1 (action.2 &&& tfGotMajority ≠ 0) (action.2 &&& tfLostMajority ≠ 0) time).getD e

-- The amendment is the same in both.
structure SameAt (b : UInt256) (e e' : Amendments) : Prop where
  enabled    : b ∈ e'.enabled ↔ b ∈ e.enabled
  majorities : ∀ T, (b, T) ∈ e'.majorities ↔ (b, T) ∈ e.majorities

theorem SameAt.refl : SameAt b e e :=
  ⟨.rfl, fun _ => .rfl⟩

theorem SameAt.trans (h : SameAt b e e') (h' : SameAt b e' e'') : SameAt b e e'' :=
  ⟨h'.enabled.trans h.enabled, fun T => (h'.majorities T).trans (h.majorities T)⟩

theorem mem_majorities_iff : b ∈ e.majorities.map Prod.fst ↔ ∃ T, (b, T) ∈ e.majorities := by
  simp only [mem_map, Prod.exists, exists_and_right, exists_eq_right]

theorem SameAt.mem_majorities (h : SameAt b e e') :
    b ∈ e'.majorities.map Prod.fst ↔ b ∈ e.majorities.map Prod.fst := by
  rw [mem_majorities_iff, mem_majorities_iff]
  exact exists_congr h.majorities

theorem step_eq_or (time : UInt32) (e : Amendments) (action : UInt256 × UInt32) :
    step time e action = e ∨ e.apply action.1 (action.2 &&& tfGotMajority ≠ 0)
      (action.2 &&& tfLostMajority ≠ 0) time = some (step time e action) := by
  unfold step
  cases e.apply action.1 (action.2 &&& tfGotMajority ≠ 0) (action.2 &&& tfLostMajority ≠ 0) time
  case none => exact .inl rfl
  case some => exact .inr rfl

theorem consistent_step (he : e.Consistent) (action : UInt256 × UInt32) :
    (step time e action).Consistent := by
  obtain h | h := step_eq_or time e action
  case inl => exact h.symm ▸ he
  case inr => exact he.apply h

theorem enabled_step (e : Amendments) (action : UInt256 × UInt32) :
    e.enabled.IsPrefix (step time e action).enabled := by
  obtain h | h := step_eq_or time e action
  case inl => rw [h]
  case inr => exact prefix_apply h

theorem sameAt_step {action : UInt256 × UInt32} (hb : b ≠ action.1) :
    SameAt b e (step time e action) := by
  obtain h | h := step_eq_or time e action
  case inl => exact h.symm ▸ .refl
  case inr => exact ⟨enabled_apply_of_ne h hb, fun _ => majorities_apply_of_ne h hb⟩

theorem sameAt_step_self (h : SameAt b e e') :
    SameAt b (step time e (b, flags)) (step time e' (b, flags)) := by
  unfold step apply
  simp only [h.enabled, h.mem_majorities]
  split_ifs
  all_goals first
    | exact h
    | exact ⟨by simp [h.enabled], fun T => by simp [h.majorities]⟩

variable {actions : List (UInt256 × UInt32)}

theorem Consistent.foldl (he : e.Consistent) : (actions.foldl (step time) e).Consistent := by
  induction actions generalizing e
  case nil => exact he
  case cons action actions hi => exact hi (consistent_step he action)

theorem enabled_foldl : e.enabled.IsPrefix (actions.foldl (step time) e).enabled := by
  induction actions generalizing e
  case nil => exact prefix_rfl
  case cons action actions hi => exact (enabled_step e action).trans hi

theorem sameAt_foldl (hb : b ∉ actions.map Prod.fst) :
    SameAt b e (actions.foldl (step time) e) := by
  induction actions generalizing e
  case nil => exact .refl
  case cons action actions hi =>
    rw [map_cons, mem_cons, not_or] at hb
    exact (sameAt_step hb.left).trans (hi hb.right)

theorem sameAt_foldl_of_mem (time : UInt32) (e : Amendments)
    (hn : (actions.map Prod.fst).Nodup) (hb : (b, flags) ∈ actions) :
    SameAt b (step time e (b, flags)) (actions.foldl (step time) e) := by
  induction actions generalizing e
  case nil => cases hb
  case cons action actions hi =>
    rw [map_cons, nodup_cons] at hn
    obtain rfl | hb := mem_cons.mp hb
    case inl => exact sameAt_foldl hn.left
    case inr =>
      have hne : b ≠ action.1 := fun h => hn.left (h ▸ mem_map_of_mem hb)
      exact (sameAt_step_self (sameAt_step hne)).trans (hi _ hn.right hb)

theorem step_enables (hb : b ∉ e.enabled) :
    step time e (b, 0) = ⟨e.enabled ++ [b], e.majorities.filter (·.1 ≠ b)⟩ := by
  have hg : decide ((0 : UInt32) &&& tfGotMajority ≠ 0) = false := by decide
  have hl : decide ((0 : UInt32) &&& tfLostMajority ≠ 0) = false := by decide
  simp only [step, apply, hg, hl, hb, if_false]
  rfl

theorem step_gotMajority (hb : b ∉ e.enabled) (hm : b ∉ e.majorities.map Prod.fst) :
    step time e (b, tfGotMajority) = ⟨e.enabled, e.majorities ++ [(b, time)]⟩ := by
  have hg : decide (tfGotMajority &&& tfGotMajority ≠ 0) = true := by decide
  have hl : decide (tfGotMajority &&& tfLostMajority ≠ 0) = false := by decide
  simp only [step, apply, hg, hl, hb, hm, if_false]
  rfl

theorem step_gotMajority_of_mem (hm : b ∈ e.majorities.map Prod.fst) :
    step time e (b, tfGotMajority) = e := by
  have hg : decide (tfGotMajority &&& tfGotMajority ≠ 0) = true := by decide
  have hl : decide (tfGotMajority &&& tfLostMajority ≠ 0) = false := by decide
  simp only [step, apply, hg, hl, hm, if_true]
  split <;> rfl

theorem step_lostMajority (hb : b ∉ e.enabled) (hm : b ∈ e.majorities.map Prod.fst) :
    step time e (b, tfLostMajority) = ⟨e.enabled, e.majorities.filter (·.1 ≠ b)⟩ := by
  have hg : decide (tfLostMajority &&& tfGotMajority ≠ 0) = false := by decide
  have hl : decide (tfLostMajority &&& tfLostMajority ≠ 0) = true := by decide
  simp only [step, apply, hg, hl, hb, hm, if_false, if_true]
  rfl

theorem step_lostMajority_of_notMem (hm : b ∉ e.majorities.map Prod.fst) :
    step time e (b, tfLostMajority) = e := by
  have hg : decide (tfLostMajority &&& tfGotMajority ≠ 0) = false := by decide
  have hl : decide (tfLostMajority &&& tfLostMajority ≠ 0) = true := by decide
  simp only [step, apply, hg, hl, hm, if_false]
  split <;> rfl

end Amendments

namespace AmendmentTable

-- The table still has what it had.
structure Grows (t t' : AmendmentTable) : Prop where
  majorityTime : t'.majorityTime_ = t.majorityTime_
  get : ∀ a, (t.get a).isSome → (t'.get a).isSome

theorem Grows.refl : Grows t t :=
  ⟨rfl, fun _ h => h⟩

theorem Grows.trans (h : Grows t t') (h' : Grows t' t'') : Grows t t'' :=
  ⟨h'.majorityTime.trans h.majorityTime, fun a ha => h'.get a (h.get a ha)⟩

theorem grows_add (t : AmendmentTable) (a : UInt256) (f : AmendmentState → AmendmentState) :
    Grows t (t.add a f) := by
  refine ⟨rfl, fun b hb => ?_⟩
  unfold get add
  rw [OrderedMap.find?_insert]
  split
  case isTrue => rfl
  case isFalse => exact hb

theorem grows_foldl (hf : ∀ t a, Grows t (f t a))
    (as : List UInt256) (t : AmendmentTable) : Grows t (as.foldl f t) := by
  induction as generalizing t
  case nil => exact .refl
  case cons a as hi => exact (hf t a).trans (hi _)

theorem grows_unVeto (t : AmendmentTable) (a : UInt256) : Grows t (t.unVeto a) := by
  unfold unVeto
  split
  case isTrue => exact grows_add ..
  case isFalse => exact .refl

theorem grows_doValidatedLedger (t : AmendmentTable) (enabled majority : List UInt256) :
    Grows t (t.doValidatedLedger enabled majority) :=
  (grows_foldl (fun t a => grows_add t a _) enabled t).trans
    (grows_foldl (fun t a => grows_add t a id) majority _)

end AmendmentTable

namespace Amendments

variable [Digest] {l : Ledger}

-- What an entry has.
def ofEntry (s : SLE) : Amendments where
  enabled    := s.getFieldV256 sfAmendments
  majorities := (s.getFieldArray sfMajorities).map fun e =>
    (e.2.getFieldH256 sfAmendment, e.2.getFieldU32 sfCloseTime)

-- What the entries `M` have. The entry is of the right type if it is there.
structure In (M : UInt256 → Option SLE) (e : Amendments) : Prop where
  type : ∀ s, M amendments.key = some s → s.type = .ltAMENDMENTS
  eq   : ((M amendments.key).map ofEntry).getD empty = e

theorem In.congr (h : In M e) (hm : M' amendments.key = M amendments.key) :
    In M' e :=
  ⟨hm ▸ h.type, hm ▸ h.eq⟩

theorem In.check (h : In M e) (s : SLE) (hs : M amendments.key = some s) :
    amendments.check s :=
  decide_eq_true (h.type s hs)

section

variable (h : In l.contents.state e)

include h

theorem In.read : l.view.read .amendments = l.contents.state amendments.key := by
  rw [l.denotes.read]
  cases hm : l.contents.state amendments.key
  case none => rfl
  case some s => rw [Option.filter_some, if_pos (h.check s hm)]

theorem In.enabled_eq : getEnabledAmendments l.view = e.enabled := by
  rw [getEnabledAmendments, h.read, ← h.eq]
  cases l.contents.state amendments.key <;> rfl

theorem In.majorities_eq : AmendmentTable.majorities l = e.majorities := by
  rw [AmendmentTable.majorities, h.read, ← h.eq]
  cases l.contents.state amendments.key <;> rfl

theorem In.getMajorityAmendments_eq_some (he : e.Consistent) :
    getMajorityAmendments l.view a = some T ↔ (a, T) ∈ e.majorities := by
  have hn := he.majorities
  rw [getMajorityAmendments, h.read]
  rw [← h.eq] at hn ⊢
  cases hm : l.contents.state amendments.key
  case none => simp [empty]
  case some s =>
    simp only [hm, Option.map_some, Option.getD_some, ofEntry] at hn ⊢
    rw [map_map] at hn
    constructor
    case mp =>
      intro hf
      have ⟨x, hx, hT⟩ := Option.map_eq_some_iff.mp hf
      have hxa := find?_some hx
      have hxm := mem_reverse.mp (mem_of_find?_eq_some hx)
      exact mem_map.mpr ⟨x, hxm, Prod.ext (of_decide_eq_true hxa) hT⟩
    case mpr =>
      intro hm
      have ⟨x, hx, hxa⟩ := mem_map.mp hm
      have hx₁ := congrArg Prod.fst hxa
      have hx₂ : x.2.getFieldU32 sfCloseTime = T := congrArg Prod.snd hxa
      cases hf : (s.getFieldArray sfMajorities).reverse.find?
        (·.2.getFieldH256 sfAmendment = a)
      case none =>
        have hne := find?_eq_none.mp hf x (mem_reverse.mpr hx)
        exact absurd hx₁ (of_decide_eq_false (Bool.eq_false_of_not_eq_true hne))
      case some y =>
        have hy := mem_reverse.mp (mem_of_find?_eq_some hf)
        have hya := find?_some hf
        have hyx : y = x :=
          inj_on_of_nodup_map hn hy hx ((of_decide_eq_true hya).trans hx₁.symm)
        rw [hyx, Option.map_some, hx₂]

end

end Amendments

namespace Change

theorem found_eq {s : SLE} :
    (s.getFieldArray sfMajorities).any (·.2.getFieldH256 sfAmendment = a) =
      decide (a ∈ (Amendments.ofEntry s).majorities.map Prod.fst) := by
  rw [Bool.eq_iff_iff]
  simp only [Amendments.ofEntry, map_map, any_eq_true, mem_map, decide_eq_true_eq,
    Function.comp_apply]

theorem ofEntry_majorities (s : SLE) (es : List (SField × STObject)) :
    ∃ s', (if es.isEmpty then Except.ok (s.makeFieldAbsent sfMajorities)
      else Except.ok (s.set sfMajorities (.array (.ofList es))) : Except TER SLE) = .ok s' ∧
      (Amendments.ofEntry s' = ⟨s.getFieldV256 sfAmendments, es.map fun e =>
        (e.2.getFieldH256 sfAmendment, e.2.getFieldU32 sfCloseTime)⟩) ∧
      (s'.key = s.key) ∧ (s'.type = s.type) := by
  have hne : sfAmendments ≠ sfMajorities := by decide
  split
  case isTrue h =>
    refine ⟨_, rfl, ?_, rfl, rfl⟩
    rw [isEmpty_iff.mp h]
    simp [Amendments.ofEntry, SLE.getFieldV256, SLE.getFieldArray,
      SLE.fields_makeFieldAbsent_of_ne hne]
  case isFalse h =>
    refine ⟨_, rfl, ?_, rfl, rfl⟩
    simp [Amendments.ofEntry, SLE.getFieldV256, SLE.getFieldArray, SLE.fields_set_of_ne hne]

theorem map_passed {s : SLE} :
    ((s.getFieldArray sfMajorities).filter (·.2.getFieldH256 sfAmendment ≠ a)).map (fun e =>
      (e.2.getFieldH256 sfAmendment, e.2.getFieldU32 sfCloseTime)) =
    (Amendments.ofEntry s).majorities.filter (·.1 ≠ a) := by
  rw [Amendments.ofEntry, filter_map]
  rfl

theorem edit_spec (s : SLE) (a : UInt256) (got lost : Bool) (time : UInt32) :
    match (Amendments.ofEntry s).apply a got lost time with
    | none => ∃ ter, applyAmendment.edit s a got lost time = .error ter ∧ isTesSuccess ter = false
    | some e' => ∃ s', applyAmendment.edit s a got lost time = .ok s' ∧
      (Amendments.ofEntry s' = e') ∧ (s'.key = s.key) ∧ (s'.type = s.type) := by
  unfold applyAmendment.edit Amendments.apply
  by_cases hen : a ∈ (Amendments.ofEntry s).enabled
  case pos =>
    rw [if_pos hen]
    exact ⟨tefALREADY, if_pos hen, rfl⟩
  have hen' : a ∉ s.getFieldV256 sfAmendments := hen
  simp only [hen, hen', if_false, found_eq]
  let passed := (s.getFieldArray sfMajorities).filter (·.2.getFieldH256 sfAmendment ≠ a)
  cases got <;> cases lost
  case true.true => exact ⟨temINVALID_FLAG, rfl, rfl⟩
  case true.false =>
    by_cases hm : a ∈ (Amendments.ofEntry s).majorities.map Prod.fst
    case pos =>
      simp only [hm]
      exact ⟨tefALREADY, rfl, rfl⟩
    have ⟨s', hs', he, hk⟩ := ofEntry_majorities s (passed ++ [applyAmendment.majority a time])
    simp only [hm]
    refine ⟨s', hs', ?_, hk⟩
    rw [he, map_append, map_passed, filter_eq_self.mpr]
    · rfl
    · exact fun x hx => decide_eq_true fun hxa => hm (mem_map.mpr ⟨x, hx, hxa⟩)
  case false.true =>
    by_cases hm : a ∈ (Amendments.ofEntry s).majorities.map Prod.fst
    case pos =>
      have ⟨s', hs', he, hk⟩ := ofEntry_majorities s passed
      simp only [hm]
      refine ⟨s', hs', ?_, hk⟩
      rw [he, map_passed]
      rfl
    case neg =>
      simp only [hm]
      exact ⟨tefALREADY, rfl, rfl⟩
  case false.false =>
    have ⟨s', hs', he, hk⟩ := ofEntry_majorities
      (s.set sfAmendments (.vector256 (s.getFieldV256 sfAmendments ++ [a]))) passed
    simp only [Bool.false_eq_true, and_false, if_false]
    refine ⟨s', hs', ?_, hk⟩
    rw [he, map_passed, SLE.getFieldV256, SLE.fields_set_self]
    rfl

variable [Digest] {v : ApplyView} {l : Ledger}

-- What the transaction is meant to do.
def amends (e : Amendments) (tx : STTx) (parentCloseTime : UInt32) : Option Amendments :=
  e.apply (tx.getFieldH256 sfAmendment) (tx.getFlags &&& tfGotMajority ≠ 0)
    (tx.getFlags &&& tfLostMajority ≠ 0) parentCloseTime

theorem applyAmendment_spec (hk : amendments.key ≠ 0) (hv : v.Shows B M)
    (he : Amendments.In M e) (tx : STTx) (t : AmendmentTable) :
    ∃ ter v' t', applyAmendment tx t v = .ok (ter, v', t') ∧ t.Grows t' ∧
      match amends e tx v.base.info.parentCloseTime with
      | none => isTesSuccess ter = false
      | some e' => isTesSuccess ter = true ∧ ∃ M', v'.Shows B M' ∧ Amendments.In M' e' := by
  have ⟨p, v₁, hp, hbase, hs, hupd⟩ := hv.peekOrInsert_update hk he.check
  have hofe : Amendments.ofEntry p.sle = e := by
    rw [hs, ← he.eq]
    cases M amendments.key <;> rfl
  have hty : p.sle.type = .ltAMENDMENTS := by
    rw [hs]
    cases hm : M amendments.key
    case none => rfl
    case some s => exact he.type s hm
  have hedit := edit_spec p.sle (tx.getFieldH256 sfAmendment) (tx.getFlags &&& tfGotMajority ≠ 0)
    (tx.getFlags &&& tfLostMajority ≠ 0) v.base.info.parentCloseTime
  rw [hofe] at hedit
  unfold applyAmendment
  rw [hp, amends]
  simp only [hbase, bind, Except.bind]
  split at hedit
  case h_1 ha =>
    have ⟨ter, hter, hn⟩ := hedit
    rw [hter]
    exact ⟨ter, v₁, t, rfl, .refl, hn⟩
  case h_2 e' ha =>
    have ⟨s', hs', he', hk', ht'⟩ := hedit
    have ⟨v₂, hv₂, hsh⟩ := hupd s' hk'
    rw [hs']
    simp only [hv₂]
    refine ⟨_, _, _, rfl, ?_, rfl, _, hsh, ?_, ?_⟩
    · split
      case isTrue => exact AmendmentTable.grows_add ..
      case isFalse => exact .refl
    · intro s hs
      rw [Function.update_self] at hs
      cases hs
      exact ht'.trans hty
    · rw [Function.update_self]
      exact he'

theorem applyTo_spec (hk : amendments.key ≠ 0) (he : Amendments.In l.contents.state e)
    (tx : STTx) (t : AmendmentTable) :
    ∃ ter l' t', applyTo (applyAmendment tx t) l = .ok (ter, l', t') ∧ t.Grows t' ∧ l.Like l' ∧
      Amendments.In l'.contents.state ((amends e tx l.info.parentCloseTime).getD e) := by
  have ⟨ter, v', t', hv', ht, hm⟩ := applyAmendment_spec hk (.init l.denotes) he tx t
  have hi : (ApplyView.mk l.view {}).base.info.parentCloseTime = l.info.parentCloseTime := rfl
  rw [hi] at hm
  unfold applyTo
  rw [hv']
  simp only [bind, Except.bind]
  split at hm
  case h_1 ha =>
    rw [hm, ha]
    exact ⟨ter, l, t', rfl, ht, .refl, he⟩
  case h_2 e' ha =>
    have ⟨hter, M', hs, hin⟩ := hm
    have ⟨l', hl', hlike, hst, _⟩ := hs.apply
    rw [hter, ha, if_pos rfl, hl']
    exact ⟨ter, l', t', rfl, ht, hlike, hst ▸ hin⟩

end Change
