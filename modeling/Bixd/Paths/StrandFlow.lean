import Mathlib

-- The execution of one strand of a payment: its steps are run in reverse from the requested
-- output, and forward again from the step that turns out to limit it.

-- A step runs on a sandbox `sb` and on the view `afView` of all funds, and collects offers to
-- remove. It may throw, and keeps the state that its caches are part of.
structure Step (S V A R : Type) where
  rev : S → V → V → R → A → S × R × Option (V × V × A × A)
  fwd : S → V → V → R → A → S × R × Option (V × V × A × A)
  cachedIn : S → Option A
  cachedOut : S → Option A
  offersUsed : S → UInt32
  inactive : S → Bool

abbrev Strand (S V A R : Type) := List (Step S V A R × S)

structure StrandResult (V I O R : Type) where
  success  : Bool
  «in»     : I
  out      : O
  sandbox  : Option V
  ofrsToRm : R
  ofrsUsed : UInt32
  inactive : Bool

namespace StrandFlow

variable {S V A R : Type}

-- The variables of an execution.
structure State (S V A R : Type) where
  strand : Strand S V A R
  limitingStep : Nat
  sb : V
  afView : V
  ofrsToRm : R
  limitStepOut : A

-- The call of one step, which ends the execution if it throws.
def State.call (st : State S V A R) (i : Nat)
    (f : Step S V A R → S → V → V → R → A → S × R × Option (V × V × A × A)) (amount : A) :
    Except (State S V A R) (State S V A R × A × A) :=
  match st.strand[i]? with
  | none => .error st
  | some (step, s) =>
    let (s, ofrsToRm, r) := f step s st.sb st.afView st.ofrsToRm amount
    let st := { st with strand := st.strand.set i (step, s), ofrsToRm }
    match r with
    | none => .error st
    | some (sb, afView, «in», out) => .ok ({ st with sb, afView }, «in», out)

def State.rev (st : State S V A R) (i : Nat) (out : A) :=
  st.call i Step.rev out

def State.fwd (st : State S V A R) (i : Nat) («in» : A) :=
  st.call i Step.fwd «in»

variable [LinearOrder A] [Zero A] (baseView : V) (maxIn : Option A)

-- The step exceeds the input that is allowed, so it is run forward with all of it.
def limitIn (i : Nat) (maxIn : A) (st : State S V A R) :
    Except (State S V A R) (State S V A R × A) := do
  let (st, r) ← { st with sb := baseView, limitingStep := i }.fwd i maxIn
  let st := { st with limitStepOut := r.2 }
  if r.2 = 0 then throw st
  if r.1 ≠ maxIn then throw st
  return (st, r.1)

-- The step delivers less than it was asked for, so it is run again for what it can deliver.
def limitOut (i : Nat) (stepOut : A) (st : State S V A R) :
    Except (State S V A R) (State S V A R × A) := do
  let (st, r) ← { st with sb := baseView, afView := baseView, limitingStep := i }.rev i stepOut
  let st := { st with limitStepOut := r.2 }
  if r.2 = 0 then throw st
  if r.2 ≠ stepOut then throw st
  return (st, r.1)

def revStep (i : Nat) (st : State S V A R) (stepOut : A) :
    Except (State S V A R) (State S V A R × A) := do
  let (st, r) ← st.rev i stepOut
  if r.2 = 0 then throw st
  match (if i = 0 then maxIn.filter (· < r.1) else none) with
  | some maxIn => limitIn baseView i maxIn st
  | none       => if r.2 ≠ stepOut then limitOut baseView i r.2 st else return (st, r.1)

def revPass : Nat → State S V A R → A → Except (State S V A R) (State S V A R)
  | 0,     st, _       => return st
  | i + 1, st, stepOut => do
    let (st, stepIn) ← revStep baseView maxIn i st stepOut
    revPass i st stepIn

def fwdPass : Nat → Nat → State S V A R → A → Except (State S V A R) (State S V A R)
  | 0,     _, st, _      => return st
  | n + 1, i, st, stepIn => do
    let (st, r) ← st.fwd i stepIn
    if r.2 = 0 then throw st
    if r.1 ≠ stepIn then throw st
    fwdPass n (i + 1) st r.2

def execute (strand : Strand S V A R) (noOfrs : R) (out : A) :
    Except (State S V A R) (State S V A R) := do
  let s := strand.length
  let st ← revPass baseView maxIn s ⟨strand, s, baseView, baseView, noOfrs, 0⟩ out
  fwdPass (s - (st.limitingStep + 1)) (st.limitingStep + 1) st st.limitStepOut

def offersUsed (strand : Strand S V A R) : UInt32 :=
  (strand.map fun p => p.1.offersUsed p.2).sum

def failure (strand : Strand S V A R) (ofrsToRm : R) : StrandResult V A A R :=
  ⟨false, 0, 0, none, ofrsToRm, offersUsed strand, false⟩

-- `direct` says that both amounts of the strand are in BIXRP. The caches of the first and the
-- last step hold what the strand takes in and delivers.
def flow (direct : Bool) (strand : Strand S V A R) (noOfrs : R) (out : A) : StrandResult V A A R :=
  if strand.isEmpty || (direct && strand.length == 2) then
    failure strand noOfrs
  else
    match execute baseView maxIn strand noOfrs out with
    | .error st => failure st.strand st.ofrsToRm
    | .ok st    =>
      match st.strand.head?.bind (fun p => p.1.cachedIn p.2),
          st.strand.getLast?.bind (fun p => p.1.cachedOut p.2) with
      | some strandIn, some strandOut =>
        ⟨true, strandIn, strandOut, some st.sb, st.ofrsToRm, offersUsed st.strand,
          st.strand.any fun p => p.1.inactive p.2⟩
      | _, _ => failure st.strand st.ofrsToRm

end StrandFlow

-- What the execution of a strand relies on: a step caches what it returned last, never returns
-- more than it was asked for or offered, and needs no more input when it is run again on the
-- untouched view for what it could deliver.
structure Step.Lawful {S V A R : Type} [LE A] (step : Step S V A R) (baseView : V) : Prop where
  rev_cached : ∀ {s sb af rm a s' rm' sb' af' «in» out},
    step.rev s sb af rm a = (s', rm', some (sb', af', «in», out)) →
    step.cachedIn s' = some «in» ∧ step.cachedOut s' = some out
  fwd_cached : ∀ {s sb af rm a s' rm' sb' af' «in» out},
    step.fwd s sb af rm a = (s', rm', some (sb', af', «in», out)) →
    step.cachedIn s' = some «in» ∧ step.cachedOut s' = some out
  rev_le : ∀ {s sb af rm a s' rm' sb' af' «in» out},
    step.rev s sb af rm a = (s', rm', some (sb', af', «in», out)) → out ≤ a
  fwd_le : ∀ {s sb af rm a s' rm' sb' af' «in» out},
    step.fwd s sb af rm a = (s', rm', some (sb', af', «in», out)) → «in» ≤ a
  rerun : ∀ {s sb af rm a s₁ rm₁ sb₁ af₁ in₁ out₁ s₂ rm₂ sb₂ af₂ in₂ out₂},
    step.rev s sb af rm a = (s₁, rm₁, some (sb₁, af₁, in₁, out₁)) →
    step.rev s₁ baseView baseView rm₁ out₁ = (s₂, rm₂, some (sb₂, af₂, in₂, out₂)) → in₂ ≤ in₁

-- A step that runs forward delivers no more than it did when it ran last.
structure Step.Limits {S V A R : Type} [LE A] (step : Step S V A R) : Prop where
  fwd_le_last : ∀ {s sb af rm a s' rm' sb' af' «in» out last},
    step.fwd s sb af rm a = (s', rm', some (sb', af', «in», out)) →
    step.cachedOut s = some last → out ≤ last

namespace StrandFlow

variable {S V A R : Type}

-- A call of a step that was asked for what it delivered or offered what it took.
structure Call (A : Type) where
  index   : Nat
  forward : Bool
  «in»    : A
  out     : A

def Runs (steps : List (Step S V A R)) (c : Call A) (sb sb' : V) : Prop :=
  ∃ step s af rm s' rm' af', steps[c.index]? = some step ∧
    (if c.forward then step.fwd s sb af rm c.in else step.rev s sb af rm c.out) =
      (s', rm', some (sb', af', c.in, c.out))

-- A sandbox results from a series of calls on top of another one.
inductive Replay (steps : List (Step S V A R)) : V → List (Call A) → V → Prop
  | nil : Replay steps v [] v
  | cons : Runs steps c v v₁ → Replay steps v₁ cs v₂ → Replay steps v (c :: cs) v₂

-- The steps up to the limiting one from there to the first, and then those after it.
def order (limiting n : Nat) : List Nat :=
  (List.range' 0 (limiting + 1)).reverse ++ List.range' (limiting + 1) (n - (limiting + 1))

-- The calls of which a sandbox is the result. The limiting step is the last one when no step
-- turned out to limit the strand; it is the first one when `limitedIn` says that the input did.
structure Executed (steps : List (Step S V A R)) (baseView sandbox : V) (limiting : Nat)
    (limitedIn : Bool) (ins outs : Nat → A) : Prop where
  limiting_lt : limiting < steps.length
  replay : Replay steps baseView ((order limiting steps.length).map fun i =>
    ⟨i, limitedIn || limiting < i, ins i, outs i⟩) sandbox
  once : (order limiting steps.length).Perm (List.range steps.length)
  first : limitedIn → limiting = 0
  chain : ∀ i, i + 1 < steps.length → outs i = ins (i + 1)

end StrandFlow
