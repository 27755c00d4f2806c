import Bixd.Misc.AmendmentTable.Theorems.Majority

open ReadView List Amendments Prod Option

namespace AmendmentTable

variable {t : AmendmentTable} {rules : Rules} {closeTime : UInt32} {enabled : List UInt256}
variable {majority : UInt256 → Option UInt32} {valSet : List STValidation} {a : UInt256}
variable {flags : UInt32}

theorem mem_doVoting : (a, flags) ∈ t.doVoting rules closeTime enabled majority valSet ↔
    ∃ s, t.get a = some s ∧ doVoting.action (.make rules valSet) t.majorityTime_ closeTime enabled
      majority a s = some flags := by
  unfold doVoting
  simp only [mem_filterMap, Prod.exists, OrderedMap.mem_toList, map_eq_some_iff,
    Prod.mk.injEq]
  constructor
  case mp =>
    rintro ⟨_, s, hs, _, ha, rfl, rfl⟩
    exact ⟨s, hs, ha⟩
  case mpr =>
    rintro ⟨s, hs, ha⟩
    exact ⟨a, s, hs, flags, ha, rfl, rfl⟩

theorem nodup_doVoting : ((t.doVoting rules closeTime enabled majority valSet).map fst).Nodup := by
  have hk := t.amendmentMap_.nodup_keys
  rw [← OrderedMap.keys_toList, List.Nodup, pairwise_map] at hk
  rw [List.Nodup, pairwise_map, doVoting]
  refine hk.filterMap _ fun x y hxy x' hx y' hy => ?_
  have ⟨_, _, hx⟩ := map_eq_some_iff.mp hx
  have ⟨_, _, hy⟩ := map_eq_some_iff.mp hy
  rw [← hx, ← hy]
  exact hxy

-- When there is an action for an amendment.

section

variable (h : (a, flags) ∈ t.doVoting rules closeTime enabled majority valSet)

include h

theorem eq_of_mem_doVoting : (flags = tfGotMajority) ∨ (flags = tfLostMajority) ∨ (flags = 0) := by
  have ⟨s, _, h⟩ := mem_doVoting.mp h
  unfold doVoting.action at h
  dsimp only at h
  split_ifs at h <;> cases h
  · exact .inl rfl
  · exact .inr (.inl rfl)
  · exact .inr (.inr rfl)

theorem notMem_enabled_of_mem_doVoting : a ∉ enabled := by
  have ⟨s, _, h⟩ := mem_doVoting.mp h
  intro ha
  rw [doVoting.action, if_pos ha] at h
  cases h

end

theorem zero_mem_doVoting (h : (a, 0) ∈ t.doVoting rules closeTime enabled majority valSet) :
    ∃ T, majority a = some T ∧ T ≠ 0 ∧ T.toNat + t.majorityTime_ ≤ closeTime.toNat ∧
      (AmendmentSet.make rules valSet).passes a := by
  have ⟨s, _, h⟩ := mem_doVoting.mp h
  unfold doVoting.action at h
  dsimp only at h
  split_ifs at h with _ h₁ h₂ h₃
  · cases h
  · cases h
  · cases hm : majority a
    case none => simp [hm] at h₃
    case some T =>
      simp only [hm, getD_some] at h₂ h₃
      refine ⟨T, rfl, h₃.left, h₃.right.left, ?_⟩
      by_contra hp
      exact h₂ ⟨by simpa using hp, h₃.left⟩

-- A majority that the validators do not support any more is lost.
theorem lost_mem_doVoting (hs : (t.get a).isSome) (ha : a ∉ enabled) (hm : majority a = some T)
    (hT : T ≠ 0) (hp : ¬(AmendmentSet.make rules valSet).passes a) :
    (a, tfLostMajority) ∈ t.doVoting rules closeTime enabled majority valSet := by
  have ⟨s, hs⟩ := isSome_iff_exists.mp hs
  refine mem_doVoting.mpr ⟨s, hs, ?_⟩
  simp [doVoting.action, ha, hm, hT, hp]

theorem getFieldH256_amendTx : (amendTx txID seq a flags).getFieldH256 sfAmendment = a := by
  simp [STTx.getFieldH256, amendTx, STVar.asHash256]

theorem getFlags_amendTx : (amendTx txID seq a flags).getFlags = flags := by
  have h₁ : sfFlags ≠ sfAmendment := by decide
  have h₂ : sfFlags ≠ sfLedgerSequence := by decide
  have h₃ : sfFlags ≠ sfAccount := by decide
  by_cases h : flags = 0
  case pos => simp [STTx.getFlags, STTx.getFieldU32, amendTx, h₁, h₂, h₃, h, STVar.asUInt32]
  case neg => simp [STTx.getFlags, STTx.getFieldU32, amendTx, h₁, h₂, h, STVar.asUInt32]

variable {e : Amendments}

-- What a round does to the amendments.
structure Round.Amends (e : Amendments) (t : AmendmentTable) (r : Round) (e' : Amendments) :
    Prop where
  consistent : e.Consistent → e'.Consistent
  enabled    : e.enabled.IsPrefix e'.enabled
  enables    : ∀ a, a ∉ e.enabled → a ∈ e'.enabled → ∃ T, (a, T) ∈ e.majorities ∧ T ≠ 0 ∧
    T.toNat + t.majorityTime_ ≤ r.closeTime.toNat ∧ r.vote.passes a
  majorities : ∀ a T, (a, T) ∈ e'.majorities →
    ((a, T) ∈ e.majorities ∧ (a, tfLostMajority) ∉ r.actions ∧
      ((t.get a).isSome → T ≠ 0 → r.vote.passes a)) ∨
    (a ∉ e.majorities.map fst ∧ (T = r.after.info.parentCloseTime) ∧ (t.get a).isSome)

section Actions

variable {r : Round} {acts : List (UInt256 × UInt32)}
variable (hact : r.actions = t.doVoting r.rules r.closeTime e.enabled majority r.valSet)
variable (hmaj : ∀ a T, majority a = some T ↔ (a, T) ∈ e.majorities) (hperm : acts.Perm r.actions)

include hact hperm

theorem nodup_acts : (acts.map fst).Nodup := by
  rw [(hperm.map _).nodup_iff, hact]
  exact nodup_doVoting

theorem flags_unique (h : (a, f) ∈ acts) (h' : (a, f') ∈ acts) : f = f' := by
  have hn := nodup_acts hact hperm
  exact congrArg snd (inj_on_of_nodup_map hn h h' rfl)

include hmaj

theorem enables_of_foldl (ha : a ∉ e.enabled)
    (h : a ∈ (acts.foldl (step time) e).enabled) :
    ∃ T, (a, T) ∈ e.majorities ∧ T ≠ 0 ∧ T.toNat + t.majorityTime_ ≤ r.closeTime.toNat ∧
      r.vote.passes a := by
  by_cases hm : a ∈ acts.map fst
  case neg => exact absurd ((sameAt_foldl hm).enabled.mp h) ha
  have ⟨⟨_, flags⟩, hf, rfl⟩ := mem_map.mp hm
  have hs := sameAt_foldl_of_mem time e (nodup_acts hact hperm) hf
  have h := hs.enabled.mp h
  have hv := hact ▸ hperm.mem_iff.mp hf
  obtain rfl | rfl | rfl := eq_of_mem_doVoting hv
  case inl =>
    by_cases hk : a ∈ e.majorities.map fst
    case pos => rw [step_gotMajority_of_mem hk] at h; exact absurd h ha
    case neg => rw [step_gotMajority ha hk] at h; exact absurd h ha
  case inr.inl =>
    by_cases hk : a ∈ e.majorities.map fst
    case pos => rw [step_lostMajority ha hk] at h; exact absurd h ha
    case neg => rw [step_lostMajority_of_notMem hk] at h; exact absurd h ha
  case inr.inr =>
    have ⟨T, hT, hrest⟩ := zero_mem_doVoting hv
    exact ⟨T, (hmaj _ T).mp hT, hrest⟩

theorem kept_majority (hc : e.Consistent) (hT : (a, T) ∈ e.majorities)
    (hlost : (a, tfLostMajority) ∉ acts) (hs : (t.get a).isSome) (h0 : T ≠ 0) :
    r.vote.passes a := by
  have ha : a ∉ e.enabled := fun ha => hc.disjoint a ha (mem_map_of_mem hT)
  by_contra hp
  refine hlost (hperm.mem_iff.mpr (hact ▸ ?_))
  exact lost_mem_doVoting hs ha ((hmaj a T).mpr hT) h0 hp

theorem majorities_of_foldl (hc : e.Consistent)
    (h : (a, T) ∈ (acts.foldl (step time) e).majorities) :
    ((a, T) ∈ e.majorities ∧ (a, tfLostMajority) ∉ r.actions ∧
      ((t.get a).isSome → T ≠ 0 → r.vote.passes a)) ∨
    (a ∉ e.majorities.map fst ∧ (T = time) ∧ (t.get a).isSome) := by
  have hkept (hT : (a, T) ∈ e.majorities) (hlost : (a, tfLostMajority) ∉ acts) :
      (a, T) ∈ e.majorities ∧ (a, tfLostMajority) ∉ r.actions ∧
        ((t.get a).isSome → T ≠ 0 → r.vote.passes a) :=
    ⟨hT, fun hl => hlost (hperm.mem_iff.mpr hl), kept_majority hact hmaj hperm hc hT hlost⟩
  by_cases hm : a ∈ acts.map fst
  case neg =>
    have hT := ((sameAt_foldl hm).majorities T).mp h
    exact .inl (hkept hT fun hl => hm (mem_map_of_mem hl))
  have ⟨⟨_, flags⟩, hf, rfl⟩ := mem_map.mp hm
  have hs := sameAt_foldl_of_mem time e (nodup_acts hact hperm) hf
  have h := (hs.majorities T).mp h
  have hv := hact ▸ hperm.mem_iff.mp hf
  have ha := notMem_enabled_of_mem_doVoting hv
  obtain rfl | rfl | rfl := eq_of_mem_doVoting hv
  case inl =>
    by_cases hk : a ∈ e.majorities.map fst
    case pos =>
      rw [step_gotMajority_of_mem hk] at h
      refine .inl (hkept h fun hl => ?_)
      exact absurd (flags_unique hact hperm hf hl) (by decide)
    case neg =>
      rw [step_gotMajority ha hk] at h
      have ⟨_, hg, _⟩ := mem_doVoting.mp hv
      obtain h | h := mem_append.mp h
      case inl => exact absurd (mem_map_of_mem h) hk
      case inr =>
        cases mem_singleton.mp h
        exact .inr ⟨hk, rfl, isSome_iff_exists.mpr ⟨_, hg⟩⟩
  case inr.inl =>
    by_cases hk : a ∈ e.majorities.map fst
    case pos => rw [step_lostMajority ha hk] at h; simp at h
    case neg =>
      rw [step_lostMajority_of_notMem hk] at h
      exact absurd (mem_map_of_mem h) hk
  case inr.inr => rw [step_enables ha] at h; simp at h

end Actions

variable [Digest] {l : Ledger}

theorem Built.spec (hk : Keylet.amendments.key ≠ 0) (h : Built l₀ t₀ txs l t)
    (he : Amendments.In l₀.contents.state e) :
    Amendments.In l.contents.state
      (txs.foldl (fun e tx => (Change.amends e tx l₀.info.parentCloseTime).getD e) e) ∧
      t₀.Grows t ∧ (l.info.parentCloseTime = l₀.info.parentCloseTime) := by
  induction h
  case init => exact ⟨he, .refl, rfl⟩
  case tx tx ter l l' t t' _ ha hi =>
    have ⟨hin, hg, ht⟩ := hi
    have ⟨_, _, _, ha', hg', hlike, hin'⟩ := Change.applyTo_spec hk hin tx t
    rw [ha] at ha'
    cases ha'
    rw [ht] at hin'
    refine ⟨?_, hg.trans hg', ?_⟩
    · rw [foldl_append]
      exact hin'
    · exact (congrArg (·.parentCloseTime) hlike.info).trans ht
  case other ho hi =>
    have ⟨hin, hg, ht⟩ := hi
    exact ⟨hin.congr ho.entry, hg, ho.parentCloseTime.trans ht⟩

theorem Round.amends (hk : Keylet.amendments.key ≠ 0)
    (he : Amendments.In l.contents.state e) (hc : e.Consistent) (h : Round.Held l t r l' t') :
    ∃ e', Amendments.In l'.contents.state e' ∧ r.Amends e t e' ∧ t.Grows t' := by
  have ⟨l₁, txID, seq, acts, hl₁, hperm, hbuilt⟩ := h.built
  have ⟨hin, hgrows, htime⟩ := hbuilt.spec hk (he.congr hl₁)
  rw [foldl_map] at hin
  have hstep : (fun e (action : UInt256 × UInt32) => (Change.amends e
      (amendTx (txID action.1) seq action.1 action.2) l₁.info.parentCloseTime).getD e) =
      step l₁.info.parentCloseTime := by
    funext e action
    rw [Change.amends, getFieldH256_amendTx, getFlags_amendTx]
    rfl
  have hact : r.actions = t.doVoting r.rules r.closeTime e.enabled
      (getMajorityAmendments l.view) r.valSet := he.enabled_eq ▸ h.actions
  have hmaj (a : UInt256) (T : UInt32) : getMajorityAmendments l.view a = some T ↔
      (a, T) ∈ e.majorities := he.getMajorityAmendments_eq_some hc
  have htime' : r.after.info.parentCloseTime = l₁.info.parentCloseTime := h.after ▸ htime
  refine ⟨_, hstep ▸ hin, ⟨fun hc => hc.foldl, enabled_foldl, ?_, ?_⟩, hgrows⟩
  · exact fun a ha h => enables_of_foldl hact hmaj hperm ha h
  · exact fun a T h => htime' ▸ majorities_of_foldl hact hmaj hperm hc h

-- The majority was recorded in a round, and has not been lost since. As long as its time is not zero,
-- every vote since then has passed.
def Since (rs : List Round) (a : UInt256) (T : UInt32) : Prop :=
  ∃ rs₁ r rs₂, (rs = rs₁ ++ r :: rs₂) ∧ r.Records a T ∧
    ∀ r' ∈ rs₂, (T ≠ 0 → r'.vote.passes a) ∧ (a, tfLostMajority) ∉ r'.actions

structure Inv (rs : List Round) (l : Ledger) (t : AmendmentTable) (e : Amendments) : Prop where
  entry      : Amendments.In l.contents.state e
  consistent : e.Consistent
  majorities : ∀ a T, (a, T) ∈ e.majorities → (t.get a).isSome ∧ Since rs a T
  rounds     : ∀ rs₁ r rs₂, rs = rs₁ ++ r :: rs₂ →
    (getEnabledAmendments r.before.view).IsPrefix (getEnabledAmendments r.after.view) ∧
      ∀ a, r.Enables a → ∃ T, Since rs₁ a T ∧ T ≠ 0 ∧
        T.toNat + t.majorityTime_ ≤ r.closeTime.toNat ∧ r.vote.passes a

variable {r : Round}

theorem Inv.grows (h : Inv rs l t e) (ht : t.Grows t') : Inv rs l t' e where
  entry := h.entry
  consistent := h.consistent
  majorities a T hT := ⟨ht.get a (h.majorities a T hT).left, (h.majorities a T hT).right⟩
  rounds := ht.majorityTime ▸ h.rounds

theorem Since.concat (h : Since rs a T)
    (hr : (T ≠ 0 → r.vote.passes a) ∧ (a, tfLostMajority) ∉ r.actions) : Since (rs ++ [r]) a T := by
  have ⟨rs₁, r₀, rs₂, hrs, hrec, hall⟩ := h
  refine ⟨rs₁, r₀, rs₂ ++ [r], by rw [hrs]; simp, hrec, fun r' hr' => ?_⟩
  obtain hr' | hr' := mem_append.mp hr'
  case inl => exact hall r' hr'
  case inr => exact mem_singleton.mp hr' ▸ hr

theorem Inv.round (hk : Keylet.amendments.key ≠ 0) (h : Inv rs l t e)
    (hr : Round.Held l t r l' t') : ∃ e', Inv (rs ++ [r]) l' t' e' := by
  have ⟨e', hin, ham, hg⟩ := Round.amends hk h.entry h.consistent hr
  have hb : getEnabledAmendments r.before.view = e.enabled := hr.before ▸ h.entry.enabled_eq
  have ha : getEnabledAmendments r.after.view = e'.enabled := hr.after ▸ hin.enabled_eq
  refine ⟨e', hin, ham.consistent h.consistent, fun a T hT => ?_, fun rs₁ r' rs₂ hrs => ?_⟩
  · obtain ⟨hT, hlost, hp⟩ | ⟨hn, htime, hs⟩ := ham.majorities a T hT
    case inl =>
      have ⟨hs, hsince⟩ := h.majorities a T hT
      exact ⟨hg.get a hs, hsince.concat ⟨hp hs, hlost⟩⟩
    refine ⟨hg.get a hs, rs, r, [], rfl, ⟨?_, ?_, htime⟩, nofun⟩
    · rw [hr.before, h.entry.majorities_eq]
      exact hn
    · rw [hr.after, hin.majorities_eq]
      exact hT
  · rw [hg.majorityTime]
    obtain ⟨rfl, rfl, rfl⟩ | ⟨rs₃, rfl, rfl⟩ : (rs₁ = rs ∧ r' = r ∧ rs₂ = []) ∨
        ∃ rs₃, rs₂ = rs₃ ++ [r] ∧ rs = rs₁ ++ r' :: rs₃ := by
      obtain rfl | ⟨rs₃, x, rfl⟩ := eq_nil_or_concat rs₂
      case inl =>
        have ⟨h₁, h₂⟩ := append_inj' hrs rfl
        cases h₂
        exact .inl ⟨h₁.symm, rfl, rfl⟩
      case inr =>
        have hrs' : rs ++ [r] = (rs₁ ++ r' :: rs₃) ++ [x] := by rw [hrs]; simp
        have ⟨h₁, h₂⟩ := append_inj' hrs' rfl
        cases h₂
        exact .inr ⟨rs₃, concat_eq_append .., h₁⟩
    case inl =>
      refine ⟨by rw [hb, ha]; exact ham.enabled, fun a hen => ?_⟩
      rw [Round.Enables, hb, ha] at hen
      have ⟨T, hT, h0, htime, hp⟩ := ham.enables a hen.left hen.right
      exact ⟨T, (h.majorities a T hT).right, h0, htime, hp⟩
    case inr => exact h.rounds rs₁ r' rs₃ rfl

theorem Reachable.inv (hk : Keylet.amendments.key ≠ 0) (h : Reachable rs l t) :
    ∃ e, Inv rs l t e := by
  induction h
  case init l t ht hn hm =>
    have hin : Amendments.In l.contents.state _ := ⟨ht, rfl⟩
    rw [hin.enabled_eq] at hn
    rw [hin.majorities_eq] at hm
    refine ⟨_, hin, ⟨hn, ?_, ?_⟩, ?_, ?_⟩
    · rw [hm]; exact nodup_nil
    · rw [hm]; exact fun _ _ => not_mem_nil
    · rw [hm]; exact nofun
    · exact fun rs₁ r rs₂ h => absurd h (by simp)
  case veto a _ hi => exact hi.imp fun _ h => h.grows (grows_add ..)
  case unVeto a _ hi => exact hi.imp fun _ h => h.grows (grows_unVeto ..)
  case validated _ hi => exact hi.imp fun _ h => h.grows (grows_doValidatedLedger ..)
  case other _ ho hi => exact hi.imp fun _ h => ⟨h.entry.congr ho, h.consistent, h.majorities, h.rounds⟩
  case round _ hr hi =>
    have ⟨_, hi⟩ := hi
    exact hi.round hk hr

-- An amendment is enabled only after its majority has been recorded and has held for the time that
-- it takes, with all votes in favour.
theorem Reachable.sustained_majority (hk : Keylet.amendments.key ≠ 0) (h : Reachable rs l t) :
    (∀ rs₁ r rs₂ a, rs = rs₁ ++ r :: rs₂ → r.Enables a →
      ∃ rs₃ r₀ rs₄ T, (rs₁ = rs₃ ++ r₀ :: rs₄) ∧ r₀.Records a T ∧
        (∀ r' ∈ rs₄, r'.vote.passes a ∧ (a, tfLostMajority) ∉ r'.actions) ∧ r.vote.passes a ∧
        (T.toNat + t.majorityTime_ ≤ r.closeTime.toNat)) ∧
    (∀ r ∈ rs, (getEnabledAmendments r.before.view).IsPrefix (getEnabledAmendments r.after.view)) ∧
    (getEnabledAmendments l.view).Nodup ∧ ((majorities l).map fst).Nodup ∧
    (∀ a ∈ getEnabledAmendments l.view, a ∉ (majorities l).map fst) := by
  have ⟨e, hi⟩ := h.inv hk
  rw [hi.entry.enabled_eq, hi.entry.majorities_eq]
  refine ⟨fun rs₁ r rs₂ a hrs hen => ?_, fun r hr => ?_, hi.consistent.enabled,
    hi.consistent.majorities, hi.consistent.disjoint⟩
  · have ⟨T, ⟨rs₃, r₀, rs₄, hrs₁, hrec, hall⟩, h0, htime, hp⟩ := (hi.rounds rs₁ r rs₂ hrs).right a hen
    refine ⟨rs₃, r₀, rs₄, T, hrs₁, hrec, fun r' hr' => ?_, hp, htime⟩
    exact ⟨(hall r' hr').left h0, (hall r' hr').right⟩
  · have ⟨rs₁, rs₂, hrs⟩ := append_of_mem hr
    exact (hi.rounds rs₁ r rs₂ hrs).left

end AmendmentTable

namespace AmendmentTable

section TwoRounds

attribute [local instance] oneDigest

def noEntries : Ledger :=
  .blank { seq := 256, drops := 0, parentCloseTime := 10 } fun _ => true

-- One validator votes for the amendment with the identifier one.
def oneVote : List STValidation := [⟨true, some [1]⟩]

def oneAmendment : AmendmentTable := ⟨(∅ : OrderedMap UInt256 AmendmentState).insert 1 {}, 5⟩

def recording (after : Ledger) : Round :=
  ⟨noEntries, fun _ => true, 10, oneVote, [(1, tfGotMajority)], after⟩

def enabling (before after : Ledger) : Round :=
  ⟨before, fun _ => true, 15, oneVote, [(1, 0)], after⟩

theorem reachable_enabling : ∃ l₁ l₂ t, Reachable [recording l₁, enabling l₁ l₂] l₂ t ∧
    (enabling l₁ l₂).Enables 1 := by
  have h₀ : Reachable [] noEntries oneAmendment := .init (nofun) (by decide) rfl
  have h₁ : Reachable [recording _] _ _ := .round h₀
    ⟨rfl, rfl, ⟨noEntries, id, 257, _, rfl, .refl _, .tx .init rfl⟩, rfl⟩
  have h₂ : Reachable [recording _, enabling _ _] _ _ := .round h₁
    ⟨rfl, rfl, ⟨_, id, 513, _, rfl, .refl _, .tx .init rfl⟩, rfl⟩
  exact ⟨_, _, _, h₂, by decide, by decide⟩

theorem sustained_majority_enabling : ∃ l₁ l₂ t rs₃ r₀ rs₄ T,
    Reachable [recording l₁, enabling l₁ l₂] l₂ t ∧ ([recording l₁] = rs₃ ++ r₀ :: rs₄) ∧
      r₀.Records 1 T ∧ (T.toNat + t.majorityTime_ ≤ 15) := by
  have ⟨l₁, l₂, t, h, hen⟩ := reachable_enabling
  have ⟨hr, _⟩ := Reachable.sustained_majority (by decide) h
  have ⟨rs₃, r₀, rs₄, T, hrs, hrec, _, _, hT⟩ := hr [recording l₁] (enabling l₁ l₂) [] 1 rfl hen
  exact ⟨l₁, l₂, t, rs₃, r₀, rs₄, T, h, hrs, hrec, hT⟩

end TwoRounds

end AmendmentTable
