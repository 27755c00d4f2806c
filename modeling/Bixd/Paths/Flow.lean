import Bixd.Paths.StrandFlow
import Bixd.Protocol.TER

-- A payment over several strands: in each pass the best liquidity that a strand has is used, until
-- the request is met, the input is used up or the strands are dry.

-- The strands `T` as a payment sees them: what the execution of one of them on a view `V` returns
-- (which may differ from call to call), the bound on its quality, and what its sandbox `B` and the
-- removal of an offer do to the view.
structure Liquidity (T V B I O Q R : Type) where
  flow : Nat → Nat → V → T → Option I → O → StrandResult B I O (Finset R)
  qualityUpperBound : V → T → Option Q
  quality : O → I → Q
  apply : B → V → V
  offerDelete : V → R → V

structure FlowResult (V I O R : Type) where
  «in» : I
  out : O
  sandbox : Option V
  removableOffers : Finset R
  ter : TER

structure ActiveStrands (T : Type) where
  cur : List T
  next : List T

namespace ActiveStrands

variable {T Q : Type} [LinearOrder Q]

-- The next strands become the current ones, when they are to be sorted those with the best bound
-- first and without those whose bound is below the limit.
def activateNext (a : ActiveStrands T) (sortStrands : Bool) (bound : T → Option Q)
    (limitQuality : Option Q) : ActiveStrands T :=
  if sortStrands && a.next.length > 1 then
    let strandQuals := a.next.filterMap fun strand =>
      match bound strand with
      | none      => none
      | some qual => if limitQuality.any (qual < ·) then none else some (qual, strand)
    ⟨(strandQuals.mergeSort fun l r => r.1 ≤ l.1).map Prod.snd, []⟩
  else
    ⟨a.next, []⟩

def push (a : ActiveStrands T) (s : T) : ActiveStrands T :=
  { a with next := a.next ++ [s] }

def pushRemainingCurToNext (a : ActiveStrands T) (i : Nat) : ActiveStrands T :=
  { a with next := a.next ++ a.cur.drop i }

def removeIndex (a : ActiveStrands T) (i : Nat) : ActiveStrands T :=
  { a with next := a.next.eraseIdx i }

end ActiveStrands

namespace Flow

variable {T V B I O Q R : Type}

def maxTries : Nat := 1000

def maxOffersToConsider : UInt32 := 1500

structure BestStrand (B I O Q : Type) where
  «in»    : I
  out     : O
  sb      : B
  quality : Q

-- The variables of one pass.
structure Search (T B I O Q R : Type) where
  active : ActiveStrands T
  ofrsToRm : Finset R
  best : Option (BestStrand B I O Q)
  markInactiveOnUse : Option Nat
  offersConsidered : UInt32

-- The variables of a payment.
structure State (T V I O R : Type) where
  curTry : Nat
  offersConsidered : UInt32
  remainingIn : Option I
  remainingOut : O
  sb : V
  active : ActiveStrands T
  savedIns : Multiset I
  savedOuts : Multiset O
  ofrsToRmOnFail : Finset R

variable [AddCommGroup I] [LinearOrder I] [AddCommGroup O] [LinearOrder O] [LinearOrder Q]
  [LinearOrder R] (L : Liquidity T V B I O Q R) (sortStrands offerCrossing : Bool)
  (limitQuality : Option Q) (sendMax : Option I) (outReq : O)

-- The evaluation of one strand; returns whether it is the last of the pass.
def visit (st : State T V I O R) (strandIndex : Nat) (strand : T) (s : Search T B I O Q R) :
    Search T B I O Q R × Bool :=
  if offerCrossing &&
      limitQuality.any (fun limit => (L.qualityUpperBound st.sb strand).all (· < limit)) then
    (s, false)
  else
    let f := L.flow st.curTry strandIndex st.sb strand st.remainingIn st.remainingOut
    let s := { s with
      ofrsToRm := s.ofrsToRm ∪ f.ofrsToRm
      offersConsidered := s.offersConsidered + f.ofrsUsed }
    match f.sandbox with
    | none => (s, false)
    | some sandbox =>
      let q := L.quality f.out f.in
      if !f.success || f.out = 0 || limitQuality.any (q < ·) then
        (s, false)
      else if sortStrands then
        let active := if f.inactive then s.active else s.active.push strand
        ({ s with
          active := active.pushRemainingCurToNext (strandIndex + 1)
          best   := some ⟨f.in, f.out, sandbox, q⟩ }, true)
      else
        let s := { s with active := s.active.push strand }
        if s.best.all fun best => best.quality < q || (best.quality = q && best.out < f.out) then
          ({ s with
            -- The size of the current strands is used, though the index is one of the next.
            markInactiveOnUse := if f.inactive then some (s.active.cur.length - 1) else none
            best := some ⟨f.in, f.out, sandbox, q⟩ }, false)
        else
          (s, false)

def search (st : State T V I O R) : Nat → List T → Search T B I O Q R → Search T B I O Q R
  | _, [], s => s
  | i, strand :: strands, s =>
    let (s, last) := visit L sortStrands offerCrossing limitQuality st i strand s
    if last then s else search st (i + 1) strands s

def removeOffers (sb : V) (ofrsToRm : Finset R) : V :=
  (ofrsToRm.sort (· ≤ ·)).foldl L.offerDelete sb

-- One pass over the active strands; returns whether it was the last one.
def pass (st : State T V I O R) : State T V I O R × Bool :=
  let active := st.active.activateNext sortStrands (L.qualityUpperBound st.sb) limitQuality
  let s := search L sortStrands offerCrossing limitQuality st 0 active.cur
    ⟨active, ∅, none, none, st.offersConsidered⟩
  let st := { st with
    offersConsidered := s.offersConsidered
    active := s.active
    ofrsToRmOnFail := st.ofrsToRmOnFail ∪ s.ofrsToRm }
  let shouldBreak := s.best.isNone || (sortStrands && s.offersConsidered ≥ maxOffersToConsider)
  match s.best with
  | none => ({ st with sb := removeOffers L st.sb s.ofrsToRm }, shouldBreak)
  | some best =>
    let savedIns := best.in ::ₘ st.savedIns
    let savedOuts := best.out ::ₘ st.savedOuts
    ({ st with
      active       := match s.markInactiveOnUse with
        | none   => st.active
        | some i => st.active.removeIndex i
      savedIns
      savedOuts
      remainingOut := outReq - savedOuts.sum
      remainingIn := match sendMax with
        | none => st.remainingIn
        | some m => some (m - savedIns.sum)
      sb := removeOffers L (L.apply best.sb st.sb) s.ofrsToRm }, shouldBreak)

-- The passes of a payment. The fuel is there for the recursion only.
def passes : Nat → State T V I O R → Option (Except (State T V I O R) (State T V I O R))
  | 0, _ => none
  | fuel + 1, st =>
    if st.remainingOut > 0 ∧ st.remainingIn.all (0 < ·) then
      let st := { st with curTry := st.curTry + 1 }
      if st.curTry ≥ maxTries then
        some (.error st)
      else
        let (st, shouldBreak) :=
          pass L sortStrands offerCrossing limitQuality sendMax outReq st
        if shouldBreak then some (.ok st) else passes fuel st
    else
      some (.ok st)

-- What the amounts that the passes moved make of the payment.
def finish (partialPayment : Bool) (st : State T V I O R) : FlowResult V I O R :=
  let actualOut := st.savedOuts.sum
  let actualIn := st.savedIns.sum
  if actualOut > outReq then
    ⟨0, 0, none, st.ofrsToRmOnFail, tefEXCEPTION⟩
  else if actualOut ≠ outReq ∧ !partialPayment ∧ !offerCrossing then
    ⟨actualIn, actualOut, none, st.ofrsToRmOnFail, tecPATH_PARTIAL⟩
  else if actualOut ≠ outReq ∧ partialPayment ∧ actualOut = 0 then
    ⟨0, 0, none, st.ofrsToRmOnFail, tecPATH_DRY⟩
  -- A fill or kill offer has to consume all of its input.
  else if offerCrossing ∧ !partialPayment ∧ st.remainingIn.any (· ≠ 0) then
    ⟨actualIn, actualOut, none, st.ofrsToRmOnFail, tecPATH_PARTIAL⟩
  else
    ⟨actualIn, actualOut, some st.sb, st.ofrsToRmOnFail, tesSUCCESS⟩

-- A negative maximum is none.
def maxOf (sendMaxST : Option I) : Option I :=
  sendMaxST.filter (0 ≤ ·)

def start (baseView : V) (strands : List T) (sendMaxST : Option I) : State T V I O R where
  curTry := 0
  offersConsidered := 0
  remainingIn := maxOf sendMaxST
  remainingOut := outReq
  sb := baseView
  active := ⟨[], strands⟩
  savedIns := 0
  savedOuts := 0
  ofrsToRmOnFail := ∅

def flow (baseView : V) (strands : List T) (partialPayment : Bool) (sendMaxST : Option I) :
    Option (FlowResult V I O R) :=
  (passes L sortStrands offerCrossing limitQuality (maxOf sendMaxST) outReq maxTries
    (start outReq baseView strands sendMaxST)).map fun
      | .error st => ⟨0, 0, none, st.ofrsToRmOnFail, telFAILED_PROCESSING⟩
      | .ok st    => finish offerCrossing outReq partialPayment st

-- What a strand takes in and delivers stays within what remains.
def Bounded : Prop :=
  ∀ curTry i sb strand remainingIn remainingOut,
    (L.flow curTry i sb strand remainingIn remainingOut).success →
    (∀ m ∈ remainingIn, (L.flow curTry i sb strand remainingIn remainingOut).in ≤ m) ∧
    (L.flow curTry i sb strand remainingIn remainingOut).out ≤ remainingOut

-- A pass: the results of the strands it evaluated, and the one of them that it used.
structure Pass (B I O R : Type) where
  evaluated : List (StrandResult B I O (Finset R))
  used      : Option (StrandResult B I O (Finset R))

namespace Pass

def removed (p : Pass B I O R) : Finset R :=
  p.evaluated.foldl (fun s r => s ∪ r.ofrsToRm) ∅

def ins (p : Pass B I O R) : Multiset I :=
  p.used.elim 0 fun r => {r.in}

def outs (p : Pass B I O R) : Multiset O :=
  p.used.elim 0 fun r => {r.out}

-- The sandbox of the strand that was used is applied before the offers are removed.
def run (p : Pass B I O R) (sb : V) : V :=
  removeOffers L ((p.used.bind fun r => r.sandbox).elim sb fun b => L.apply b sb) p.removed

structure Valid (strands : List T) (sb : V) (ins : Multiset I) (outs : Multiset O)
    (p : Pass B I O R) : Prop where
  evaluated : ∀ r ∈ p.evaluated, ∃ strand ∈ strands, ∃ curTry i,
    r = L.flow curTry i sb strand (sendMax.map (· - ins.sum)) (outReq - outs.sum)
  used      : ∀ r ∈ p.used, r ∈ p.evaluated ∧ r.success ∧ r.sandbox.isSome ∧
    ∀ limit ∈ limitQuality, limit ≤ L.quality r.out r.in

end Pass

-- The offers that the strands of some passes reported for removal.
def removable (s : Finset R) (ps : List (Pass B I O R)) : Finset R :=
  ps.foldl (fun s p => s ∪ p.removed) s

-- A sequence of passes, from the view and the amounts moved before it to those after it.
inductive Passes (strands : List T) : V → Multiset I → Multiset O → List (Pass B I O R) →
    V → Multiset I → Multiset O → Prop
  | nil : Passes strands sb ins outs [] sb ins outs
  | cons : p.Valid L limitQuality sendMax outReq strands sb ins outs →
    Passes strands (p.run L sb) (p.ins + ins) (p.outs + outs) ps sb' ins' outs' →
    Passes strands sb ins outs (p :: ps) sb' ins' outs'

-- What a payment returns, as against the passes that it made.
structure Respects (baseView : V) (strands : List T) (partialPayment : Bool)
    (r : FlowResult V I O R) (ps : List (Pass B I O R)) (sb : V) (ins : Multiset I)
    (outs : Multiset O) : Prop where
  passes   : Passes L limitQuality sendMax outReq strands baseView 0 0 ps sb ins outs
  tries    : ps.length < 1000
  failed   : r.ter ≠ tesSUCCESS → r.sandbox = none
  sandbox  : ∀ v ∈ r.sandbox, v = sb ∧ r.in = ins.sum ∧ r.out = outs.sum
  out_le   : r.sandbox.isSome → r.out ≤ outReq
  in_le    : r.sandbox.isSome → ∀ m ∈ sendMax, r.in ≤ m
  full     : r.sandbox.isSome → !partialPayment → !offerCrossing → r.out = outReq
  consumed : r.sandbox.isSome → !partialPayment → offerCrossing → ∀ m ∈ sendMax, r.in = m

end Flow
