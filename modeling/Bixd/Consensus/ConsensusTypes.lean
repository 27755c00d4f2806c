import Bixd.Lib.HashMap

-- Times of the network clock are seconds in a `std::uint32_t`, durations of the internal clock are
-- signed milliseconds.

structure ConsensusParms where
  proposeFRESHNESS : Nat := 20
  proposeINTERVAL : Nat := 12
  minCONSENSUS_PCT : Nat := 80
  ledgerIDLE_INTERVAL : Int := 15000
  ledgerMIN_CONSENSUS : Int := 1950
  ledgerMAX_CONSENSUS : Int := 10000
  ledgerMIN_CLOSE : Int := 2000
  avMIN_CONSENSUS_TIME : Int := 5000
  avINIT_CONSENSUS_PCT : Nat := 50
  avMID_CONSENSUS_TIME : Nat := 50
  avMID_CONSENSUS_PCT : Nat := 65
  avLATE_CONSENSUS_TIME : Nat := 85
  avLATE_CONSENSUS_PCT : Nat := 70
  avSTUCK_CONSENSUS_TIME : Nat := 200
  avSTUCK_CONSENSUS_PCT : Nat := 95
  avCT_CONSENSUS_PCT : Nat := 75

-- How an `int` compares with a `std::size_t`.
def toSize (i : Int) : Nat :=
  (i % 2 ^ 64).toNat

-- The percentage that is needed to change a vote, which grows over time.
def ConsensusParms.neededWeight (p : ConsensusParms) (percentTime : Int) : Nat :=
  if toSize percentTime < p.avMID_CONSENSUS_TIME then p.avINIT_CONSENSUS_PCT
  else if toSize percentTime < p.avLATE_CONSENSUS_TIME then p.avMID_CONSENSUS_PCT
  else if toSize percentTime < p.avSTUCK_CONSENSUS_TIME then p.avLATE_CONSENSUS_PCT
  else p.avSTUCK_CONSENSUS_PCT

inductive ConsensusMode where
  | proposing
  | observing
  | wrongLedger
  | switchedLedger
deriving DecidableEq

inductive ConsensusPhase where
  | «open»
  | establish
  | accepted
deriving DecidableEq

inductive ConsensusState where
  | no
  | movedOn
  | yes
deriving DecidableEq

-- The clock is read in nanoseconds.
structure ConsensusTimer where
  start : Int := 0
  dur   : Int := 0

namespace ConsensusTimer

def read (t : ConsensusTimer) : Int :=
  t.dur

def tickFixed (t : ConsensusTimer) (fixed : Int) : ConsensusTimer :=
  { t with dur := t.dur + fixed }

def reset (_ : ConsensusTimer) (tp : Int) : ConsensusTimer :=
  { start := tp, dur := 0 }

def tick (t : ConsensusTimer) (tp : Int) : ConsensusTimer :=
  { t with dur := (tp - t.start).tdiv 1000000 }

end ConsensusTimer

-- A count for each time, in the order of the times.
abbrev TimeVotes := List (Nat × Nat)

def TimeVotes.inc (t : Nat) : TimeVotes → TimeVotes
  | [] => [(t, 1)]
  | (u, v) :: vs =>
    if t < u then (t, 1) :: (u, v) :: vs
    else if t = u then (u, v + 1) :: vs
    else (u, v) :: inc t vs

structure ConsensusCloseTimes where
  peers : TimeVotes := []
  self  : Nat := 0

structure ConsensusProposal (N I P : Type) where
  previousLedger : I
  position : P
  closeTime : Nat
  time : Nat
  proposeSeq : Nat
  nodeID : N

namespace ConsensusProposal

variable {N I P : Type}

def seqJoin : Nat := 0

def seqLeave : Nat := 0xffffffff

def isInitial (p : ConsensusProposal N I P) : Bool :=
  p.proposeSeq == seqJoin

def isBowOut (p : ConsensusProposal N I P) : Bool :=
  p.proposeSeq == seqLeave

def isStale (p : ConsensusProposal N I P) (cutoff : Nat) : Bool :=
  p.time ≤ cutoff

def changePosition (p : ConsensusProposal N I P) (newPosition : P) (newCloseTime now : Nat) :
    ConsensusProposal N I P :=
  { p with
    position   := newPosition
    closeTime  := newCloseTime
    time       := now
    proposeSeq := if p.proposeSeq = seqLeave then seqLeave else (p.proposeSeq + 1) % 2 ^ 32 }

def bowOut (p : ConsensusProposal N I P) (now : Nat) : ConsensusProposal N I P :=
  { p with time := now, proposeSeq := seqLeave }

end ConsensusProposal

def ledgerPossibleTimeResolutions : List Nat :=
  [10, 20, 30, 60, 90, 120]

def ledgerDefaultTimeResolution : Nat := 30

def increaseLedgerTimeResolutionEvery : Nat := 8

def decreaseLedgerTimeResolutionEvery : Nat := 1

def getNextLedgerTimeResolution (previousResolution : Nat) (previousAgree : Bool)
    (ledgerSeq : Nat) : Nat :=
  match ledgerPossibleTimeResolutions.idxOf? previousResolution with
  | none   => previousResolution
  | some i =>
    if !previousAgree && ledgerSeq % decreaseLedgerTimeResolutionEvery == 0 then
      (ledgerPossibleTimeResolutions[i + 1]?).getD previousResolution
    else if previousAgree && ledgerSeq % increaseLedgerTimeResolutionEvery == 0 then
      if i = 0 then previousResolution
      else (ledgerPossibleTimeResolutions[i - 1]?).getD previousResolution
    else
      previousResolution

def roundCloseTime (closeTime closeResolution : Nat) : Nat :=
  if closeTime = 0 then
    closeTime
  else
    let closeTime := (closeTime + closeResolution / 2) % 2 ^ 32
    closeTime - closeTime % closeResolution

def shouldCloseLedger (anyTransactions : Bool)
    (prevProposers proposersClosed proposersValidated : Nat)
    (prevRoundTime timeSincePrevClose openTime idleInterval : Int) (parms : ConsensusParms) :
    Bool :=
  -- unexpected cases
  if prevRoundTime < -1000 ∨ prevRoundTime > 600000 ∨ timeSincePrevClose > 600000 then true
  -- more than half of the network has closed
  else if proposersClosed + proposersValidated > prevProposers / 2 then true
  else if !anyTransactions then decide (timeSincePrevClose ≥ idleInterval)
  else if openTime < parms.ledgerMIN_CLOSE then false
  -- not more than twice as fast as the previous ledger
  else if openTime < prevRoundTime.tdiv 2 then false
  else true

def checkConsensusReached (agreeing total : Nat) (countSelf : Bool) (minConsensusPct : Nat) :
    Bool :=
  if total = 0 then
    true
  else
    let (agreeing, total) := if countSelf then (agreeing + 1, total + 1) else (agreeing, total)
    decide (agreeing * 100 / total ≥ minConsensusPct)

def checkConsensus (prevProposers currentProposers currentAgree currentFinished : Nat)
    (previousAgreeTime currentAgreeTime : Int) (parms : ConsensusParms) (proposing : Bool) :
    ConsensusState :=
  if currentAgreeTime ≤ parms.ledgerMIN_CONSENSUS then .no
  else if currentProposers < prevProposers * 3 / 4 ∧
      currentAgreeTime < previousAgreeTime + parms.ledgerMIN_CONSENSUS then .no
  else if checkConsensusReached currentAgree currentProposers proposing parms.minCONSENSUS_PCT then
    .yes
  else if checkConsensusReached currentFinished currentProposers false parms.minCONSENSUS_PCT then
    .movedOn
  else
    .no

def participantsNeeded (participants percent : Nat) : Nat :=
  let result := (participants * percent + percent / 2) / 100
  if result = 0 then 1 else result
