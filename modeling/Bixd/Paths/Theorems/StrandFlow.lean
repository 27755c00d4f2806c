import Bixd.Lib.Except
import Bixd.Paths.StrandFlow

open List StrandFlow.State Nat Option Prod Except

set_option linter.unusedSectionVars false

namespace StrandFlow

variable {S V A R : Type} {steps : List (Step S V A R)} {strand : Strand S V A R} {baseView : V}
  {i n limiting : Nat}

section Replay

theorem Replay.append (h₁ : Replay steps v cs v₁) (h₂ : Replay steps v₁ cs' v₂) :
    Replay steps v (cs ++ cs') v₂ := by
  induction h₁
  case nil => exact h₂
  case cons hr _ hi => exact .cons hr (hi h₂)

theorem Replay.concat (h₁ : Replay steps v cs v₁) (h₂ : Runs steps c v₁ v₂) :
    Replay steps v (cs ++ [c]) v₂ :=
  h₁.append (.cons h₂ .nil)

theorem order_perm (h : limiting < n) : (order limiting n).Perm (range n) := by
  have hn : range n =
      range' 0 (limiting + 1) ++ range' (limiting + 1) (n - (limiting + 1)) := by
    rw [range_eq_range', ← Nat.add_sub_cancel' h]
    have := range'_append_1 (s := 0) (m := limiting + 1) (n := n - (limiting + 1))
    simpa using this.symm
  rw [order, hn]
  exact (reverse_perm _).append_right _

end Replay

-- What the cache of a step holds.
section Cache

variable [Zero A] {step : Step S V A R} {s s' : S} {a : A}

def inAt (strand : Strand S V A R) (i : Nat) : A :=
  ((strand[i]?).bind fun p => p.1.cachedIn p.2).getD 0

def outAt (strand : Strand S V A R) (i : Nat) : A :=
  ((strand[i]?).bind fun p => p.1.cachedOut p.2).getD 0

theorem inAt_set_ne (h : i ≠ j) : inAt (strand.set i (step, s)) j = inAt strand j := by
  rw [inAt, inAt, getElem?_set_ne h]

theorem outAt_set_ne (h : i ≠ j) : outAt (strand.set i (step, s)) j = outAt strand j := by
  rw [outAt, outAt, getElem?_set_ne h]

theorem inAt_set (h : i < strand.length) (hc : step.cachedIn s = some a) :
    inAt (strand.set i (step, s)) i = a := by
  rw [inAt, getElem?_set_self h, bind_some, hc]
  rfl

theorem outAt_set (h : i < strand.length) (hc : step.cachedOut s = some a) :
    outAt (strand.set i (step, s)) i = a := by
  rw [outAt, getElem?_set_self h, bind_some, hc]
  rfl

end Cache

theorem map_fst_set (h : strand[i]? = some (step, s)) :
    (strand.set i (step, s')).map fst = strand.map fst := by
  refine ext_getElem? fun j => ?_
  rw [getElem?_map, getElem?_map]
  by_cases hj : i = j
  case pos =>
    have hlt := (List.getElem?_eq_some_iff.mp h).1
    rw [← hj, getElem?_set_self hlt, h]
    rfl
  case neg => rw [getElem?_set_ne hj]

theorem mem_steps (hs : strand.map fst = steps)
    (hi : strand[i]? = some (step, s)) : step ∈ steps := by
  rw [← hs]
  exact mem_map.mpr ⟨_, mem_of_getElem? hi, rfl⟩

-- The calls whose results the caches of a strand hold.
def calls [Zero A] (strand : Strand S V A R) (limitedIn : Bool) (limiting : Nat) (l : List Nat) :
    List (Call A) :=
  l.map fun j => ⟨j, limitedIn || limiting < j, inAt strand j, outAt strand j⟩

section Execution

variable {st st' : State S V A R} {a x y : A}
  {f : Step S V A R → S → V → V → R → A → S × R × Option (V × V × A × A)}

theorem State.call_eq_ok (h : st.call i f a = .ok (st', x, y)) :
    ∃ step s s' rm sb af, st.strand[i]? = some (step, s) ∧
      f step s st.sb st.afView st.ofrsToRm a = (s', rm, some (sb, af, x, y)) ∧
      st' = { st with
        strand := st.strand.set i (step, s'), ofrsToRm := rm, sb := sb, afView := af } := by
  unfold State.call at h
  split at h
  case h_1 => cases h
  case h_2 step s hs =>
    generalize hf : f step s st.sb st.afView st.ofrsToRm a = r at h
    have ⟨s', rm, r⟩ := r
    dsimp only at h
    split at h
    case h_1 => cases h
    case h_2 sb af x' y' =>
      cases h
      exact ⟨step, s, s', rm, sb, af, hs, hf, rfl⟩

variable [LinearOrder A] [Zero A] {out stepOut stepIn : A} {maxIn : Option A} {limitedIn : Bool}

def cachedOutAt (strand : Strand S V A R) (i : Nat) : Option A :=
  (strand[i]?).bind fun p => p.1.cachedOut p.2

-- What the run of one step leaves behind.
structure Ran (steps : List (Step S V A R)) (i : Nat) (st st' : State S V A R) (x y : A) :
    Prop where
  same : st'.strand.map fst = steps
  lt : i < steps.length
  inAt_eq : inAt st'.strand i = x
  outAt_eq : outAt st'.strand i = y
  cached : cachedOutAt st'.strand i = some y
  inAt_ne : ∀ j, i ≠ j → inAt st'.strand j = inAt st.strand j
  outAt_ne : ∀ j, i ≠ j → outAt st'.strand j = outAt st.strand j
  cached_ne : ∀ j, i ≠ j → cachedOutAt st'.strand j = cachedOutAt st.strand j
  limitingStep : st'.limitingStep = st.limitingStep
  limitStepOut : st'.limitStepOut = st.limitStepOut

theorem Ran.calls_eq (r : Ran steps i st st' x y) (h : i ∉ l) :
    calls st'.strand b limiting l = calls st.strand b limiting l := by
  refine map_congr_left fun j hj => ?_
  have hne : i ≠ j := fun hij => h (hij ▸ hj)
  rw [r.inAt_ne j hne, r.outAt_ne j hne]

theorem Ran.last (r : Ran steps i st st' x y) (h : ∃ o ≤ out, cachedOutAt st.strand n = some o)
    (hy : ∀ o, i = n → cachedOutAt st.strand i = some o → y ≤ o) :
    ∃ o ≤ out, cachedOutAt st'.strand n = some o := by
  have ⟨o, ho, hc⟩ := h
  by_cases hn : i = n
  case pos =>
    rw [← hn] at hc ⊢
    exact ⟨y, (hy o hn hc).trans ho, r.cached⟩
  case neg => exact ⟨o, ho, (r.cached_ne _ hn).trans hc⟩

theorem State.call_ran (hs : st.strand.map fst = steps)
    (h : st.call i f a = .ok (st', x, y))
    (hc : ∀ step ∈ steps, ∀ {s s' rm rm' sb sb' af af'},
      f step s sb af rm a = (s', rm', some (sb', af', x, y)) →
      step.cachedIn s' = some x ∧ step.cachedOut s' = some y) : Ran steps i st st' x y := by
  have ⟨step, s, s', rm, sb, af, hi, hf, hst⟩ := call_eq_ok h
  have hlt := (List.getElem?_eq_some_iff.mp hi).1
  have hmem := mem_steps hs hi
  have ⟨hin, hout⟩ := hc step hmem hf
  rw [hst]
  exact {
    same := (map_fst_set hi).trans hs
    lt := by
      rw [← hs, length_map]
      exact hlt
    inAt_eq := inAt_set hlt hin
    outAt_eq := outAt_set hlt hout
    cached := by rw [cachedOutAt, getElem?_set_self hlt, bind_some, hout]
    inAt_ne := fun j hj => inAt_set_ne hj
    outAt_ne := fun j hj => outAt_set_ne hj
    cached_ne := fun j hj => by rw [cachedOutAt, cachedOutAt, getElem?_set_ne hj]
    limitingStep := rfl
    limitStepOut := rfl
  }

theorem State.runs_of_call (forward : Bool)
    (h : st.call i (if forward then Step.fwd else Step.rev) a = .ok (st', x, y))
    (hs : st.strand.map fst = steps) (ha : a = if forward then x else y) :
    Runs steps ⟨i, forward, x, y⟩ st.sb st'.sb := by
  have ⟨step, s, s', rm, sb, af, hi, hf, hst⟩ := call_eq_ok h
  refine ⟨step, s, st.afView, st.ofrsToRm, s', rm, af, ?_, ?_⟩
  case refine_1 =>
    rw [← hs, getElem?_map, hi]
    rfl
  rw [hst, ← hf]
  cases forward
  case false => rw [ha]; rfl
  case true => rw [ha]; rfl

variable (lawful : ∀ step ∈ steps, step.Lawful baseView)

include lawful

theorem State.rev_ran (h : st.rev i a = .ok (st', x, y)) (hs : st.strand.map fst = steps) :
    Ran steps i st st' x y ∧ y ≤ a := by
  have ⟨step, s, s', rm, sb, af, hi, hf, hst⟩ := call_eq_ok h
  have hmem := mem_steps hs hi
  exact ⟨call_ran hs h fun step hm _ _ _ _ _ _ _ _ hf => (lawful step hm).rev_cached hf,
    (lawful step hmem).rev_le hf⟩

theorem State.fwd_ran (h : st.fwd i a = .ok (st', x, y)) (hs : st.strand.map fst = steps) :
    Ran steps i st st' x y :=
  call_ran hs h fun step hm _ _ _ _ _ _ _ _ hf => (lawful step hm).fwd_cached hf

omit lawful in

theorem State.fwd_limits (h : st.fwd i a = .ok (st', x, y)) (hs : st.strand.map fst = steps)
    (hl : ∀ step ∈ steps, step.Limits) (ho : cachedOutAt st.strand i = some o) : y ≤ o := by
  have ⟨step, s, s', rm, sb, af, hi, hf, hst⟩ := call_eq_ok h
  have hmem := mem_steps hs hi
  rw [cachedOutAt, hi] at ho
  exact (hl step hmem).fwd_le_last hf ho

theorem State.rev_rerun (hs : st.strand.map fst = steps) (h₁ : st.rev i a = .ok (st₁, x₁, y₁))
    (h₂ : st₂ = { st₁ with sb := baseView, afView := baseView, limitingStep := i })
    (h₃ : st₂.rev i y₁ = .ok (st₃, x₂, y₂)) : x₂ ≤ x₁ := by
  have ⟨step, s, s', rm, sb, af, hi, hf, hst⟩ := call_eq_ok h₁
  have ⟨step', t, t', rm', sb', af', hi', hf', _⟩ := call_eq_ok h₃
  have hlt := (List.getElem?_eq_some_iff.mp hi).1
  have hmem := mem_steps hs hi
  rw [h₂, hst] at hi' hf'
  rw [getElem?_set_self hlt] at hi'
  cases hi'
  exact (lawful step hmem).rerun hf hf'

omit lawful

-- The state of an execution in which the steps from `i` to the limiting one have run.
structure Reversed (steps : List (Step S V A R)) (baseView : V) (maxIn : Option A) (out : A)
    (i : Nat) (st : State S V A R) (stepOut : A) (limiting : Nat) (limitedIn : Bool) : Prop where
  same : st.strand.map fst = steps
  limiting_lt : limiting < steps.length
  le_limiting : i ≤ limiting
  limit : st.limitingStep = limiting ∧ st.limitStepOut = outAt st.strand limiting ∨
    st.limitingStep = steps.length ∧ limiting + 1 = steps.length
  replay : Replay steps baseView
    (calls st.strand limitedIn limiting (List.range' i (limiting + 1 - i)).reverse) st.sb
  chain : ∀ j, i ≤ j → j < limiting → outAt st.strand j = inAt st.strand (j + 1)
  asked : stepOut = inAt st.strand i
  first : limitedIn → limiting = 0
  within : i = 0 → ∀ m ∈ maxIn, inAt st.strand 0 ≤ m
  last : limitedIn = false ∨ (∀ step ∈ steps, step.Limits) →
    ∃ o ≤ out, cachedOutAt st.strand (steps.length - 1) = some o

-- The state in which step `i` is about to be run in reverse: no step has run yet, or those
-- after it have.
def Ready (steps : List (Step S V A R)) (baseView : V) (maxIn : Option A) (out : A) (i : Nat)
    (st : State S V A R) (stepOut : A) : Prop :=
  (i = steps.length ∧ st.strand.map fst = steps ∧ st.sb = baseView ∧
    st.limitingStep = steps.length ∧ stepOut = out) ∨
  ∃ limiting, Reversed steps baseView maxIn out i st stepOut limiting false

theorem Ready.same (h : Ready steps baseView maxIn out i st stepOut) :
    st.strand.map fst = steps := by
  cases h
  case inl h => exact h.2.1
  case inr h => exact h.choose_spec.same

theorem Ready.last (h : Ready steps baseView maxIn out (i + 1) st stepOut)
    (r : Ran steps i st st' x y) (hy : y ≤ stepOut) :
    ∃ o ≤ out, cachedOutAt st'.strand (steps.length - 1) = some o := by
  cases h
  case inl h =>
    have ⟨hi, _, _, _, hout⟩ := h
    refine ⟨y, hout ▸ hy, ?_⟩
    rw [← hi, Nat.add_sub_cancel]
    exact r.cached
  case inr h =>
    have ⟨limiting, h⟩ := h
    refine r.last (h.last (.inl rfl)) fun _ hi => ?_
    have := h.le_limiting
    have := h.limiting_lt
    omega

theorem range'_reverse_concat (h : i < limiting + 1) :
    (range' i (limiting + 1 - i)).reverse =
      (range' (i + 1) (limiting + 1 - (i + 1))).reverse ++ [i] := by
  have : limiting + 1 - i = (limiting + 1 - (i + 1)) + 1 := by omega
  rw [this, range'_succ, reverse_cons]

theorem Reversed.single (r : Ran steps i st st' x y) (hlim : st'.limitingStep = i ∧ z = y ∨
      st'.limitingStep = steps.length ∧ i + 1 = steps.length)
    (hrun : Runs steps ⟨i, limitedIn, x, y⟩ baseView st'.sb) (hfirst : limitedIn → i = 0)
    (hx : i = 0 → ∀ m ∈ maxIn, x ≤ m)
    (hlast : limitedIn = false ∨ (∀ step ∈ steps, step.Limits) →
      ∃ o ≤ out, cachedOutAt st'.strand (steps.length - 1) = some o) :
    Reversed steps baseView maxIn out i { st' with limitStepOut := z } x i limitedIn where
  same := r.same
  limiting_lt := r.lt
  le_limiting := le_refl i
  limit := hlim.imp_left fun h => ⟨h.1, h.2.trans r.outAt_eq.symm⟩
  replay := by
    rw [range'_reverse_concat (lt_succ_self i), Nat.sub_self]
    refine .cons ?_ .nil
    simpa [r.inAt_eq, r.outAt_eq] using hrun
  chain := fun j hj hlt => absurd hj (not_le.mpr hlt)
  asked := r.inAt_eq.symm
  first := hfirst
  within := fun hi m hm => by
    have := hx hi m hm
    rwa [← hi, r.inAt_eq]
  last := hlast

theorem Ready.next (hr : Ready steps baseView maxIn out (i + 1) st stepOut)
    (r : Ran steps i st st' x stepOut) (hrun : Runs steps ⟨i, false, x, stepOut⟩ st.sb st'.sb)
    (hx : i = 0 → ∀ m ∈ maxIn, x ≤ m) :
    ∃ limiting, Reversed steps baseView maxIn out i st' x limiting false := by
  have hlast := hr.last r (le_refl stepOut)
  cases hr
  case inl h =>
    have ⟨hi, _, hsb, hlim, _⟩ := h
    exact ⟨i, .single (z := st'.limitStepOut) r (.inr ⟨r.limitingStep.trans hlim, hi⟩) (hsb ▸ hrun)
      (nofun) hx fun _ => hlast⟩
  case inr h =>
    have ⟨limiting, h⟩ := h
    have hle := h.le_limiting
    refine ⟨limiting, ?_⟩
    exact {
      same := r.same
      limiting_lt := h.limiting_lt
      le_limiting := by omega
      limit := by
        rw [r.limitingStep, r.limitStepOut, r.outAt_ne limiting (by omega)]
        exact h.limit
      replay := by
        have hnot : i ∉ (range' (i + 1) (limiting + 1 - (i + 1))).reverse := by
          rw [mem_reverse, mem_range'_1]
          omega
        have hfwd : (false || decide (limiting < i)) = false := by
          simp only [Bool.false_or, decide_eq_false_iff_not]
          omega
        rw [range'_reverse_concat (by omega), calls, map_append]
        refine Replay.concat ((r.calls_eq hnot).symm ▸ h.replay) ?_
        dsimp only
        rw [hfwd, r.inAt_eq, r.outAt_eq]
        exact hrun
      chain := fun j hj hlt => by
        rw [r.inAt_ne (j + 1) (by omega)]
        by_cases hji : i = j
        case pos => rw [← hji, r.outAt_eq, h.asked]
        case neg =>
          rw [r.outAt_ne j hji]
          exact h.chain j (by omega) hlt
      asked := r.inAt_eq.symm
      first := nofun
      within := fun hi m hm => by
        have := hx hi m hm
        rwa [← hi, r.inAt_eq]
      last := fun _ => hlast
    }

section

variable (lawful : ∀ step ∈ steps, step.Lawful baseView)

include lawful

section

variable (hr : Ready steps baseView maxIn out (i + 1) st stepOut)

include hr

theorem Ready.limitIn (r : Ran steps i st st₁ x y) (hy : y ≤ stepOut) (hi : i = 0)
    (hm : maxIn = some m) (h : limitIn baseView i m st₁ = .ok (st', stepIn)) :
    Reversed steps baseView maxIn out i st' stepIn i true := by
  have ⟨⟨st₂, x₂, y₂⟩, hfwd, h⟩ := bind_eq_ok.mp h
  dsimp only at h
  split at h
  case isTrue => cases h
  have ⟨hx, h⟩ := Except.ite_error_eq_ok.mp h
  cases h
  have hx := not_not.mp hx
  have hrun := runs_of_call true hfwd r.same hx.symm
  have hran := fwd_ran lawful hfwd r.same
  refine .single hran (.inl ⟨hran.limitingStep, rfl⟩) hrun (fun _ => hi)
    (fun _ m' hm' => ?_) fun hl => ?_
  case refine_1 =>
    rw [hm] at hm'
    cases hm'
    exact hx.le
  case refine_2 =>
    have hlim := hl.resolve_left (by decide)
    have hlast := hr.last r hy
    exact hran.last hlast fun o _ hc => fwd_limits hfwd r.same hlim hc

theorem Ready.limitOut (hrev : st.rev i stepOut = .ok (st₁, x, y))
    (hx : i = 0 → ∀ m ∈ maxIn, x ≤ m) (h : limitOut baseView i y st₁ = .ok (st', stepIn)) :
    Reversed steps baseView maxIn out i st' stepIn i false := by
  have ⟨r, hy⟩ := rev_ran lawful hrev hr.same
  have ⟨⟨st₂, x₂, y₂⟩, hrev₂, h⟩ := bind_eq_ok.mp h
  dsimp only at h
  split at h
  case isTrue => cases h
  have ⟨hy₂, h⟩ := Except.ite_error_eq_ok.mp h
  cases h
  have hy₂ := not_not.mp hy₂
  have hrun := runs_of_call false hrev₂ r.same hy₂.symm
  have hran := (rev_ran lawful hrev₂ r.same).1
  have hle := rev_rerun lawful hr.same hrev rfl hrev₂
  refine .single hran (.inl ⟨hran.limitingStep, rfl⟩) hrun (nofun)
    (fun hi m hm => ?_) fun _ => ?_
  case refine_1 => exact hle.trans (hx hi m hm)
  have hlast := hr.last r hy
  refine hran.last hlast fun o _ hc => ?_
  exact (hy₂.trans (some.inj (r.cached.symm.trans hc))).le

theorem Ready.revStep (h : revStep baseView maxIn i st stepOut = .ok (st', stepIn)) :
    ∃ limiting limitedIn, Reversed steps baseView maxIn out i st' stepIn limiting limitedIn := by
  have ⟨⟨st₁, x, y⟩, hrev, h⟩ := bind_eq_ok.mp h
  dsimp only at h
  have ⟨r, hy⟩ := rev_ran lawful hrev hr.same
  split at h
  case isTrue => cases h
  split at h
  case h_1 m hm =>
    split at hm
    case isTrue hi =>
      have hm := (filter_eq_some_iff.mp hm).1
      exact ⟨i, true, hr.limitIn lawful r hy hi hm h⟩
    case isFalse => cases hm
  case h_2 hm =>
    have hx : i = 0 → ∀ m ∈ maxIn, x ≤ m := by
      intro hi m hmem
      rw [if_pos hi, mem_def.mp hmem] at hm
      simpa using hm
    split at h
    case isTrue => exact ⟨i, false, hr.limitOut lawful hrev hx h⟩
    case isFalse hyo =>
      cases h
      have hyo := not_not.mp hyo
      subst hyo
      have hrun := runs_of_call false hrev hr.same rfl
      have ⟨limiting, h⟩ := hr.next r hrun hx
      exact ⟨limiting, false, h⟩

end

-- The reverse pass, by induction on the steps that are left.
theorem Ready.revPass (hn : n ≠ 0) (hr : Ready steps baseView maxIn out n st stepOut)
    (h : revPass baseView maxIn n st stepOut = .ok st') :
    ∃ limiting limitedIn, Reversed steps baseView maxIn out 0 st'
      (inAt st'.strand 0) limiting limitedIn := by
  have ⟨i, hi⟩ := exists_eq_succ_of_ne_zero hn
  subst hi
  induction i generalizing st stepOut
  case zero =>
    have ⟨⟨st₁, stepIn⟩, hstep, h⟩ := bind_eq_ok.mp h
    cases h
    have ⟨limiting, b, h⟩ := hr.revStep lawful hstep
    exact ⟨limiting, b, h.asked ▸ h⟩
  case succ i hi =>
    have ⟨⟨st₁, stepIn⟩, hstep, h⟩ := bind_eq_ok.mp h
    have ⟨limiting, b, hrev⟩ := hr.revStep lawful hstep
    have hb : b = false := by
      by_contra hb
      have := hrev.first ((Bool.not_eq_false b).mp hb)
      have := hrev.le_limiting
      omega
    rw [hb] at hrev
    exact hi (succ_ne_zero i) (.inr ⟨limiting, hrev⟩) h

end

-- The state of an execution in which all steps before `i` have run.
structure Forwarded (steps : List (Step S V A R)) (baseView : V) (maxIn : Option A) (out : A)
    (i : Nat) (st : State S V A R) (limiting : Nat) (limitedIn : Bool) : Prop where
  same : st.strand.map fst = steps
  limiting_lt : limiting < i
  le_length : i ≤ steps.length
  replay : Replay steps baseView (calls st.strand limitedIn limiting
    ((List.range' 0 (limiting + 1)).reverse ++ List.range' (limiting + 1) (i - (limiting + 1))))
    st.sb
  chain : ∀ j, j + 1 < i → outAt st.strand j = inAt st.strand (j + 1)
  first : limitedIn → limiting = 0
  within : ∀ m ∈ maxIn, inAt st.strand 0 ≤ m
  last : (limitedIn = false ∧ limiting + 1 = steps.length) ∨
    (∀ step ∈ steps, step.Limits) →
    ∃ o ≤ out, cachedOutAt st.strand (steps.length - 1) = some o

theorem Reversed.forwarded (h : Reversed steps baseView maxIn out 0 st stepOut limiting limitedIn) :
    Forwarded steps baseView maxIn out (limiting + 1) st limiting limitedIn where
  same := h.same
  limiting_lt := lt_succ_self _
  le_length := h.limiting_lt
  replay := by
    rw [Nat.sub_self, range'_zero, append_nil]
    exact h.replay
  chain := fun j hj => h.chain j (zero_le j) (lt_of_succ_lt_succ hj)
  first := h.first
  within := h.within rfl
  last := fun hl => h.last (hl.imp_left And.left)

section

variable (lawful : ∀ step ∈ steps, step.Lawful baseView)
  (h : Forwarded steps baseView maxIn out i st limiting limitedIn)

include lawful h

theorem Forwarded.next
    (hfwd : st.fwd i (outAt st.strand (i - 1)) = .ok (st', outAt st.strand (i - 1), y)) :
    Forwarded steps baseView maxIn out (i + 1) st' limiting limitedIn := by
  have r := fwd_ran lawful hfwd h.same
  have hrun := runs_of_call true hfwd h.same rfl
  have hlt := h.limiting_lt
  exact {
    same := r.same
    limiting_lt := by omega
    le_length := r.lt
    replay := by
      have hconcat : range' (limiting + 1) (i + 1 - (limiting + 1)) =
          range' (limiting + 1) (i - (limiting + 1)) ++ [i] := by
        have hlen : i + 1 - (limiting + 1) = (i - (limiting + 1)) + 1 := by omega
        have hend : limiting + 1 + 1 * (i - (limiting + 1)) = i := by omega
        rw [hlen, range'_concat, hend]
      have hnot : i ∉ (range' 0 (limiting + 1)).reverse ++
          range' (limiting + 1) (i - (limiting + 1)) := by
        rw [mem_append, mem_reverse, mem_range'_1, mem_range'_1]
        omega
      rw [hconcat, ← append_assoc, calls, map_append]
      refine Replay.concat ((r.calls_eq hnot).symm ▸ h.replay) ?_
      dsimp only
      rw [decide_eq_true hlt, Bool.or_true, r.inAt_eq, r.outAt_eq]
      exact hrun
    chain := fun j hj => by
      by_cases hji : j + 1 = i
      case pos => rw [hji, r.inAt_eq, r.outAt_ne j (by omega), ← hji, Nat.add_sub_cancel]
      case neg =>
        rw [r.outAt_ne j (by omega), r.inAt_ne (j + 1) (by omega)]
        exact h.chain j (by omega)
    first := h.first
    within := by
      rw [r.inAt_ne 0 (by omega)]
      exact h.within
    last := fun hl => by
      have hlim := hl.resolve_left (fun hl => by
        have := r.lt
        omega)
      exact r.last (h.last (.inr hlim)) fun o _ hc => fwd_limits hfwd h.same hlim hc
  }

-- The forward pass, by induction on the steps that are left.
theorem Forwarded.fwdPass (hin : stepIn = outAt st.strand (i - 1)) (hn : i + n = steps.length)
    (hf : fwdPass n i st stepIn = .ok st') :
    Forwarded steps baseView maxIn out steps.length st' limiting limitedIn := by
  induction n generalizing i st stepIn
  case zero =>
    cases hf
    exact hn ▸ h
  case succ n hi =>
    have ⟨⟨st₁, x, y⟩, hfwd, hf⟩ := bind_eq_ok.mp hf
    dsimp only at hf
    split at hf
    case isTrue => cases hf
    have ⟨hx, hf⟩ := Except.ite_error_eq_ok.mp hf
    have hx := (not_not.mp hx).trans hin
    rw [hx, hin] at hfwd
    have r := fwd_ran lawful hfwd h.same
    refine hi (h.next lawful hfwd) ?_ (by omega) hf
    rw [Nat.add_sub_cancel, r.outAt_eq]

end

theorem execute_forwarded (lawful : ∀ step ∈ steps, step.Lawful baseView)
    (hs : strand.map fst = steps) (hne : strand ≠ [])
    (h : execute baseView maxIn strand noOfrs out = .ok st) :
    ∃ limiting limitedIn,
      Forwarded steps baseView maxIn out steps.length st limiting limitedIn := by
  have ⟨st₁, hrev, hfwd⟩ := bind_eq_ok.mp h
  have hlen : strand.length = steps.length := by rw [← hs, length_map]
  rw [hlen] at hrev hfwd
  have hpos : steps.length ≠ 0 := by
    rw [← hlen]
    exact fun h => hne (length_eq_zero_iff.mp h)
  have hready : Ready steps baseView maxIn out steps.length
      ⟨strand, steps.length, baseView, baseView, noOfrs, 0⟩ out := .inl ⟨rfl, hs, rfl, rfl, rfl⟩
  have ⟨limiting, limitedIn, hr⟩ := hready.revPass lawful hpos hrev
  refine ⟨limiting, limitedIn, ?_⟩
  cases hr.limit
  case inl hl =>
    have ⟨hstep, hout⟩ := hl
    have := hr.limiting_lt
    rw [hstep, hout] at hfwd
    exact hr.forwarded.fwdPass lawful rfl (by omega) hfwd
  case inr hl =>
    have ⟨hstep, hlast⟩ := hl
    rw [hstep, Nat.sub_eq_zero_of_le (le_succ _)] at hfwd
    cases hfwd
    exact hlast ▸ hr.forwarded

theorem flow_success (h : (flow baseView maxIn direct strand noOfrs out).success = true) :
    strand ≠ [] ∧ ∃ st, execute baseView maxIn strand noOfrs out = .ok st ∧
      st.strand.head?.bind (fun p => p.1.cachedIn p.2) =
        some (flow baseView maxIn direct strand noOfrs out).in ∧
      st.strand.getLast?.bind (fun p => p.1.cachedOut p.2) =
        some (flow baseView maxIn direct strand noOfrs out).out ∧
      (flow baseView maxIn direct strand noOfrs out).sandbox = some st.sb := by
  unfold flow at h ⊢
  split at h
  case isTrue => cases h
  case isFalse hne =>
    rw [if_neg hne]
    split at h
    case h_1 => cases h
    case h_2 st hst =>
      split at h
      case h_2 => cases h
      case h_1 x y hx hy =>
        refine ⟨fun he => hne (by rw [he]; rfl), st, hst, ?_⟩
        rw [hx, hy]
        exact ⟨rfl, rfl, rfl⟩

-- A strand that succeeds has run each of its steps once on top of the base view, each for what
-- the next one takes. It takes in no more than allowed; and it delivers no more than requested
-- if its last step was run in reverse, or if steps that run forward keep to what they could
-- deliver in reverse.
theorem flow_executes_once {direct : Bool} {noOfrs : R}
    (lawful : ∀ p ∈ strand, p.1.Lawful baseView)
    (h : (flow baseView maxIn direct strand noOfrs out).success = true) :
    ∃ sandbox limiting limitedIn ins outs,
      (flow baseView maxIn direct strand noOfrs out).sandbox = some sandbox ∧
      Executed (strand.map fst) baseView sandbox limiting limitedIn ins outs ∧
      (flow baseView maxIn direct strand noOfrs out).in = ins 0 ∧
      (flow baseView maxIn direct strand noOfrs out).out = outs (strand.length - 1) ∧
      (∀ m ∈ maxIn, (flow baseView maxIn direct strand noOfrs out).in ≤ m) ∧
      ((limitedIn = false ∧ limiting + 1 = strand.length) ∨ (∀ p ∈ strand, p.1.Limits) →
        (flow baseView maxIn direct strand noOfrs out).out ≤ out) := by
  have ⟨hne, st, hst, hin, hout, hsb⟩ := flow_success h
  have hl : ∀ step ∈ strand.map fst, step.Lawful baseView := by
    intro step hm
    have ⟨p, hp, hstep⟩ := mem_map.mp hm
    exact hstep ▸ lawful p hp
  have ⟨limiting, limitedIn, hf⟩ := execute_forwarded hl rfl hne hst
  have hlen : st.strand.length = strand.length := by
    have := congrArg length hf.same
    rwa [length_map, length_map] at this
  rw [head?_eq_getElem?] at hin
  rw [getLast?_eq_getElem?, hlen] at hout
  have hlt := hf.limiting_lt
  refine ⟨st.sb, limiting, limitedIn, inAt st.strand, outAt st.strand, hsb, ?_, ?_, ?_, ?_, ?_⟩
  case refine_1 => exact ⟨hlt, hf.replay, order_perm hlt, hf.first, hf.chain⟩
  case refine_2 => rw [inAt, hin, getD_some]
  case refine_3 => rw [outAt, hout, getD_some]
  case refine_4 =>
    have hw := hf.within
    rwa [inAt, hin, getD_some] at hw
  intro hlim
  have hlim' : (limitedIn = false ∧ limiting + 1 = (strand.map fst).length) ∨
      (∀ step ∈ strand.map fst, step.Limits) := by
    rw [length_map]
    refine hlim.imp_right fun h step hm => ?_
    have ⟨p, hp, hstep⟩ := mem_map.mp hm
    exact hstep ▸ h p hp
  have ⟨o, ho, hc⟩ := hf.last hlim'
  rw [cachedOutAt, length_map, hout] at hc
  exact some.inj hc ▸ ho

end Execution

section Instance

-- A step that takes in what it delivers, at most `limit` in reverse, and delivers `swell` of
-- what it is offered. Its sandbox counts the steps that ran.
def plainStep (limit : Nat) (swell : Nat → Nat) : Step (Option (Nat × Nat)) Nat Nat Unit where
  rev _ sb af _ a :=
    (some (min a limit, min a limit), (), some (sb + 1, af, min a limit, min a limit))
  fwd _ sb af _ a := (some (a, swell a), (), some (sb + 1, af, a, swell a))
  cachedIn s      := s.map fst
  cachedOut s     := s.map snd
  offersUsed _    := 0
  inactive _      := false

theorem plainStep_lawful : (plainStep limit swell).Lawful 0 where
  rev_cached h := by
    cases h
    exact ⟨rfl, rfl⟩
  fwd_cached h := by
    cases h
    exact ⟨rfl, rfl⟩
  rev_le h := by
    cases h
    exact min_le_left ..
  fwd_le h := by
    cases h
    exact le_refl _
  rerun h₁ h₂ := by
    cases h₁
    cases h₂
    exact min_le_left ..

-- The first step can deliver 5 only, and the second one makes 100 of them where 10 were asked for.
def swellingStrand : Strand (Option (Nat × Nat)) Nat Nat Unit :=
  [(plainStep 5 id, none), (plainStep 20 fun _ => 100, none)]

theorem swellingStrand_lawful : ∀ p ∈ swellingStrand, p.1.Lawful 0 := by
  intro p hp
  simp only [swellingStrand, mem_cons, not_mem_nil, or_false] at hp
  cases hp
  case inl hp => exact hp ▸ plainStep_lawful
  case inr hp => exact hp ▸ plainStep_lawful

theorem flow_executes_once_swelling :
    (flow 0 none false swellingStrand () 10).success = true ∧
      ∃ sandbox limiting limitedIn ins outs,
        Executed (swellingStrand.map fst) 0 sandbox limiting limitedIn ins outs ∧
        (flow 0 none false swellingStrand () 10).in = ins 0 := by
  have h : (flow 0 none false swellingStrand () 10).success = true := by decide
  have ⟨sandbox, limiting, limitedIn, ins, outs, _, hexec, hin, _⟩ :=
    flow_executes_once swellingStrand_lawful h
  exact ⟨h, sandbox, limiting, limitedIn, ins, outs, hexec, hin⟩

theorem flow_exceeds_request :
    (∀ p ∈ swellingStrand, p.1.Lawful 0) ∧
      (flow 0 none false swellingStrand () 10).success = true ∧
      ¬ (flow 0 none false swellingStrand () 10).out ≤ 10 :=
  ⟨swellingStrand_lawful, by decide, by decide⟩

end Instance

end StrandFlow
