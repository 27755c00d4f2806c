import Bixd.Consensus.DisputedTx

namespace Consensus

-- The types of an application with its transaction sets, as the header requires them: a set is
-- named by its id, and `compare` returns the transactions that are not common to two sets, with
-- whether the first one has it.
structure Traits where
  NodeID : Type
  LedgerID : Type
  Tx : Type
  TxID : Type
  TxSet : Type
  TxSetID : Type
  [decNodeID : DecidableEq NodeID]
  [decLedgerID : DecidableEq LedgerID]
  [decTxID : DecidableEq TxID]
  [decTxSetID : DecidableEq TxSetID]
  txID : Tx → TxID
  setID : TxSet → TxSetID
  «exists» : TxSet → TxID → Bool
  find : TxSet → TxID → Option Tx
  insert : TxSet → Tx → TxSet
  erase : TxSet → TxID → TxSet
  compare : TxSet → TxSet → List (TxID × Bool)
  exists_of_id : ∀ {s o}, setID s = setID o → «exists» s = «exists» o
  find_exists : ∀ s t, (find s t).isSome = «exists» s t
  find_id : ∀ {s t x}, find s t = some x → txID x = t
  exists_insert : ∀ s x t, «exists» (insert s x) t = (decide (t = txID x) || «exists» s t)
  exists_erase : ∀ s u t, «exists» (erase s u) t = (decide (t ≠ u) && «exists» s t)
  mem_compare : ∀ {s o t b}, (t, b) ∈ compare s o ↔ «exists» s t ≠ «exists» o t ∧ b = «exists» s t

attribute [instance] Traits.decNodeID Traits.decLedgerID Traits.decTxID Traits.decTxSetID

variable (τ : Traits)

-- What consensus reads of a ledger.
structure Ledger where
  id : τ.LedgerID
  seq : Nat
  closeTimeResolution : Nat
  closeAgree : Bool
  closeTime : Nat
  parentCloseTime : Nat

-- The position of a peer is its proposal.
abbrev Proposal := ConsensusProposal τ.NodeID τ.LedgerID τ.TxSetID

abbrev Dispute := DisputedTx τ.Tx τ.NodeID

structure Result where
  txns      : τ.TxSet
  position  : Proposal τ
  disputes  : HashMap τ.TxID (Dispute τ) := ∅
  compares  : List τ.TxSetID := []
  roundTime : ConsensusTimer := {}
  state     : ConsensusState := .no
  proposers : Nat := 0

-- The calls on the adaptor that return nothing.
inductive Event where
  | onModeChange (before after : ConsensusMode)
  | sharePosition (pos : Proposal τ)
  | shareTx (tx : τ.Tx)
  | shareTxSet (set : τ.TxSet)
  | propose (pos : Proposal τ)
  | updateOperatingMode (positions : Nat)
  | onAccept (result : Result τ) (prevLedger : Ledger τ) (closeResolution : Nat)
    (rawCloseTimes : ConsensusCloseTimes) (mode : ConsensusMode)
  | onForceAccept (result : Result τ) (prevLedger : Ledger τ) (closeResolution : Nat)
    (rawCloseTimes : ConsensusCloseTimes) (mode : ConsensusMode)

-- What consensus asks of its surroundings: the adaptor, the internal clock, and the order in which
-- a hash container is iterated. An answer may depend on everything asked before. The position of a
-- closed ledger is the one of its transactions, as the constructor of the result asserts.
class Adaptor (A : Type) where
  parms : A → ConsensusParms
  clock : A → Int × A
  order : {α : Type} → A → List α → List α × A
  acquireLedger : A → τ.LedgerID → Option (Ledger τ) × A
  acquireTxSet : A → τ.TxSetID → Option τ.TxSet × A
  hasOpenTransactions : A → Bool × A
  proposersValidated : A → τ.LedgerID → Nat × A
  proposersFinished : A → Ledger τ → τ.LedgerID → Nat × A
  getPrevLedger : A → τ.LedgerID → Ledger τ → ConsensusMode → τ.LedgerID × A
  getValidLedgerIndex : A → Nat × A
  getQuorumKeys : A → (Nat × List Nat) × A
  laggards : A → Nat → List Nat → (Nat × List Nat) × A
  validator : A → Bool × A
  haveValidated : A → Bool × A
  onClose : A → Ledger τ → Nat → ConsensusMode → (τ.TxSet × Proposal τ) × A
  notify : A → Event τ → A
  order_perm : ∀ {α} a (l : List α), (order a l).1.Perm l
  onClose_position : ∀ {a l t m}, (onClose a l t m).1.2.position = τ.setID (onClose a l t m).1.1

end Consensus

open Consensus (Traits Ledger Proposal Dispute Result Event Adaptor)

structure Consensus (τ : Traits) (A : Type) where
  phase : ConsensusPhase := .accepted
  mode : ConsensusMode := .observing
  firstRound : Bool := true
  haveCloseTimeConsensus : Bool := false
  convergePercent : Int := 0
  openTime : ConsensusTimer := {}
  closeResolution : Nat := ledgerDefaultTimeResolution
  prevRoundTime : Int := 0
  now : Nat := 0
  prevCloseTime : Nat := 0
  prevLedgerID : τ.LedgerID
  previousLedger : Ledger τ
  acquired : HashMap τ.TxSetID τ.TxSet := ∅
  result : Option (Result τ) := none
  rawCloseTimes : ConsensusCloseTimes := {}
  currPeerPositions : HashMap τ.NodeID (Proposal τ) := ∅
  recentPeerPositions : HashMap τ.NodeID (List (Proposal τ)) := ∅
  prevProposers : Nat := 0
  deadNodes : List τ.NodeID := []
  adaptor : A

namespace Consensus

variable {τ : Traits} {A : Type}

-- `disputes.clear()` and `compares.clear()`
def Result.clear (r : Result τ) : Result τ :=
  { r with disputes := ∅, compares := [] }

def ask {β : Type} (s : Consensus τ A) (f : A → β × A) : β × Consensus τ A :=
  let (b, adaptor) := f s.adaptor
  (b, { s with adaptor })

variable [Adaptor τ A] (s : Consensus τ A)

def notify (e : Event τ) : Consensus τ A :=
  { s with adaptor := Adaptor.notify s.adaptor e }

def parms : ConsensusParms :=
  Adaptor.parms τ s.adaptor

def setMode (mode : ConsensusMode) : Consensus τ A :=
  { s.notify (.onModeChange s.mode mode) with mode }

-- The current positions of the peers in the order in which they are iterated.
def askPeers : List (τ.NodeID × Proposal τ) × Consensus τ A :=
  s.ask (Adaptor.order τ · s.currPeerPositions.toList)

def asCloseTime (raw : Nat) : Nat :=
  roundCloseTime raw s.closeResolution

-- The votes that a new dispute starts with: those of the peers whose set is known.
def peerVotes (txID : τ.TxID) (peers : List (τ.NodeID × Proposal τ)) (d : Dispute τ) :
    Dispute τ :=
  peers.foldl (fun d e =>
    match s.acquired.find? e.2.position with
    | some set => d.setVote e.1 (τ.exists set txID)
    | none     => d) d

-- The body of the loop of `createDisputes`.
def createDispute (o : τ.TxSet) (e : τ.TxID × Bool) : Consensus τ A :=
  match s.result with
  | none   => s
  | some r =>
    -- the set that has the transaction, by `compare`
    match if e.2 then τ.find r.txns e.1 else τ.find o e.1 with
    | none    => s
    | some tx =>
      let txID := τ.txID tx
      match r.disputes.find? txID with
      | some _ => s
      | none   =>
        let (peers, s) := s.askPeers
        let dtx := s.peerVotes txID peers (.init tx (τ.exists r.txns txID))
        let s := s.notify (.shareTx tx)
        { s with result := some { r with disputes := r.disputes.insert txID dtx } }

def createDisputes (o : τ.TxSet) : Consensus τ A :=
  match s.result with
  | none   => s
  | some r =>
    if τ.setID o ∈ r.compares then
      s
    else
      let s := { s with result := some { r with compares := τ.setID o :: r.compares } }
      if τ.setID r.txns = τ.setID o then
        s
      else
        (τ.compare r.txns o).foldl (fun s e => s.createDispute o e) s

-- Changes every dispute.
def mapDisputes (f : Dispute τ → Dispute τ) : Consensus τ A :=
  { s with result := s.result.map fun r => { r with disputes := r.disputes.mapVal f } }

def updateDisputes (node : τ.NodeID) (other : τ.TxSet) : Consensus τ A :=
  match s.result with
  | none   => s
  | some r =>
    let s := if τ.setID other ∈ r.compares then s else s.createDisputes other
    s.mapDisputes fun d => d.setVote node (τ.exists other (τ.txID d.tx))

def gotTxSet (now : Nat) (txSet : τ.TxSet) : Consensus τ A :=
  if s.phase = .accepted then
    s
  else
    let s := { s with now }
    let id := τ.setID txSet
    match s.acquired.find? id with
    | some _ => s
    | none   =>
      let s := { s with acquired := s.acquired.insert id txSet }
      match s.result with
      | none   => s
      | some _ =>
        let (peers, s) := s.askPeers
        peers.foldl (fun s e => if e.2.position = id then s.updateDisputes e.1 txSet else s) s

-- Stores the position of a peer, with its first estimate of the close time.
def recordPosition (newPeerPos : Proposal τ) : Consensus τ A :=
  { s with
    currPeerPositions := s.currPeerPositions.insert newPeerPos.nodeID newPeerPos
    rawCloseTimes     :=
      if newPeerPos.isInitial then
        { s.rawCloseTimes with peers := s.rawCloseTimes.peers.inc newPeerPos.closeTime }
      else
        s.rawCloseTimes }

-- The part of `peerProposalInternal` for a position that takes part.
def newPosition (newPeerPos : Proposal τ) : Consensus τ A :=
  let s := s.recordPosition newPeerPos
  match s.acquired.find? newPeerPos.position with
  | none =>
    match s.ask (Adaptor.acquireTxSet · newPeerPos.position) with
    | (some set, s) => s.gotTxSet s.now set
    | (none, s)     => s
  | some set =>
    match s.result with
    | some _ => s.updateDisputes newPeerPos.nodeID set
    | none   => s

-- The part of `peerProposalInternal` for a peer that leaves.
def bowsOut (peerID : τ.NodeID) : Consensus τ A :=
  let s := s.mapDisputes fun d => d.unVote peerID
  { s with
    currPeerPositions := s.currPeerPositions.erase peerID
    deadNodes := s.deadNodes.insert peerID }

-- Whether the peer has a position that is not older.
def superseded (newPeerPos : Proposal τ) : Bool :=
  match s.currPeerPositions.find? newPeerPos.nodeID with
  | some pos => decide (newPeerPos.proposeSeq ≤ pos.proposeSeq)
  | none     => false

def peerProposalInternal (now : Nat) (newPeerPos : Proposal τ) : Bool × Consensus τ A :=
  if s.phase = .accepted then
    (false, s)
  else
    let s := { s with now }
    if newPeerPos.previousLedger ≠ s.prevLedgerID then (false, s)
    else if newPeerPos.nodeID ∈ s.deadNodes then (false, s)
    else if s.superseded newPeerPos then (false, s)
    else if newPeerPos.isBowOut then (true, s.bowsOut newPeerPos.nodeID)
    else (true, s.newPosition newPeerPos)

def peerProposal (now : Nat) (newPeerPos : Proposal τ) : Bool × Consensus τ A :=
  let props := (s.recentPeerPositions.find? newPeerPos.nodeID).getD []
  let props := if props.length ≥ 10 then props.drop 1 else props
  let s := { s with
    recentPeerPositions :=
      s.recentPeerPositions.insert newPeerPos.nodeID (props ++ [newPeerPos]) }
  s.peerProposalInternal now newPeerPos

-- Handles a recent position again.
def playback (pos : Proposal τ) : Consensus τ A :=
  if pos.previousLedger = s.prevLedgerID then
    match s.peerProposalInternal s.now pos with
    | (true, s)  => s.notify (.sharePosition pos)
    | (false, s) => s
  else
    s

def playbackProposals : Consensus τ A :=
  let (entries, s) := s.ask (Adaptor.order τ · s.recentPeerPositions.toList)
  entries.foldl (fun s e => e.2.foldl playback s) s

-- `result_.emplace(adaptor_.onClose(..))` and the entry for our set.
def takePosition : Consensus τ A :=
  let ((txns, position), s) := s.ask (Adaptor.onClose · s.previousLedger s.now s.mode)
  let (tp, s) := s.ask (Adaptor.clock τ)
  let s := { s with result := some { txns, position, roundTime := ({} : ConsensusTimer).reset tp } }
  match s.acquired.find? (τ.setID txns) with
  | some _ => s
  | none   => { s with acquired := s.acquired.insert (τ.setID txns) txns }.notify (.shareTxSet txns)

-- Tells the peers our position if we propose.
def proposePosition : Consensus τ A :=
  match s.result with
  | some r => if s.mode = .proposing then s.notify (.propose r.position) else s
  | none   => s

-- The body of the loop of `closeLedger`.
def compareWith (e : τ.NodeID × Proposal τ) : Consensus τ A :=
  match s.acquired.find? e.2.position with
  | some set => s.createDisputes set
  | none     => s

def closeLedger : Consensus τ A :=
  let s := { s with
    phase := .establish
    rawCloseTimes := { s.rawCloseTimes with self := s.now } }
  let s := s.takePosition.proposePosition
  let (peers, s) := s.askPeers
  peers.foldl compareWith s

-- The time since the close of the previous ledger.
def sinceClose : Int :=
  let l := s.previousLedger
  let previousCloseCorrect :=
    s.mode ≠ .wrongLedger ∧ l.closeAgree ∧ l.closeTime ≠ l.parentCloseTime + 1
  let lastCloseTime := if previousCloseCorrect then l.closeTime else s.prevCloseTime
  ((s.now : Int) - lastCloseTime) * 1000

def phaseOpen : Consensus τ A :=
  let (anyTransactions, s) := s.ask (Adaptor.hasOpenTransactions τ)
  let proposersClosed := s.currPeerPositions.size
  let (proposersValidated, s) := s.ask (Adaptor.proposersValidated · s.prevLedgerID)
  let (tp, s) := s.ask (Adaptor.clock τ)
  let s := { s with openTime := s.openTime.tick tp }
  let idleInterval : Int :=
    max s.parms.ledgerIDLE_INTERVAL (2 * s.previousLedger.closeTimeResolution % 2 ^ 32 * 1000)
  if shouldCloseLedger anyTransactions s.prevProposers proposersClosed proposersValidated
      s.prevRoundTime s.sinceClose s.openTime.read idleInterval s.parms then
    s.closeLedger
  else
    s

-- Removes a stale position, or counts its close time.
def checkFresh (peerCutoff : Nat) (r : TimeVotes × Consensus τ A)
    (e : τ.NodeID × Proposal τ) : TimeVotes × Consensus τ A :=
  let (votes, s) := r
  if e.2.isStale peerCutoff then
    let s := s.mapDisputes fun d => d.unVote e.2.nodeID
    (votes, { s with currPeerPositions := s.currPeerPositions.erase e.1 })
  else
    (votes.inc (s.asCloseTime e.2.closeTime), s)

def removeStale : TimeVotes × Consensus τ A :=
  let peerCutoff := ((s.now : Int) - s.parms.proposeFRESHNESS) % 2 ^ 32 |>.toNat
  let (peers, s) := s.askPeers
  peers.foldl (checkFresh peerCutoff) ([], s)

-- The disputes and our set, if it changed, after our vote on a dispute is updated.
def updateVoteOn (r : HashMap τ.TxID (Dispute τ) × Option τ.TxSet) (txns : τ.TxSet)
    (percentTime : Int) (proposing : Bool) (p : ConsensusParms) (txID : τ.TxID) :
    HashMap τ.TxID (Dispute τ) × Option τ.TxSet :=
  match r.1.find? txID with
  | none   => r
  | some d =>
    match d.updateVote percentTime proposing p with
    | (false, _) => r
    | (true, d)  =>
      let set := r.2.getD txns
      (r.1.insert txID d, if d.ourVote then τ.insert set d.tx else τ.erase set txID)

-- Updates our votes on all disputes. Returns our new set if it changed.
def updateVotes (r : Result τ) : Option τ.TxSet × Consensus τ A :=
  let (txIDs, s) := s.ask (Adaptor.order τ · r.disputes.keys)
  let (disputes, ourNewSet) := txIDs.foldl (fun acc txID =>
    updateVoteOn acc r.txns s.convergePercent (s.mode = .proposing) s.parms txID)
    (r.disputes, none)
  (ourNewSet, { s with result := some { r with disputes } })

-- The close time that has the most votes, and whether it has enough for consensus.
def closeTimeConsensus (votes : TimeVotes) (threshVote threshConsensus : Nat) : Nat × Bool :=
  let (_, r) := votes.foldl (fun (threshVote, time, have') (t, v) =>
    if v ≥ threshVote then (v, t, have' || decide (v ≥ threshConsensus))
    else (threshVote, time, have')) (threshVote, 0, false)
  r

-- The close time we want, and whether there is consensus on it.
def consensusCloseTime (closeTimeVotes : TimeVotes) (r : Result τ) : Nat × Bool :=
  let ours := s.asCloseTime r.position.closeTime
  if s.currPeerPositions.size = 0 then
    (ours, true)
  else
    let participants := s.currPeerPositions.size
    let (votes, participants) :=
      if s.mode = .proposing then (closeTimeVotes.inc ours, participants + 1)
      else (closeTimeVotes, participants)
    closeTimeConsensus votes
      (participantsNeeded participants (s.parms.neededWeight s.convergePercent))
      (participantsNeeded participants s.parms.avCT_CONSENSUS_PCT)

-- Takes a new position.
def changePosition (r : Result τ) (ourNewSet : τ.TxSet) (closeTime : Nat) : Consensus τ A :=
  let newID := τ.setID ourNewSet
  let r := { r with
    txns     := ourNewSet
    position := r.position.changePosition newID closeTime s.now }
  let s := { s with result := some r }
  let s :=
    match s.acquired.find? newID with
    | some _ => s
    | none   =>
      let s := { s with acquired := s.acquired.insert newID ourNewSet }
      let s := if r.position.isBowOut then s else s.notify (.shareTxSet ourNewSet)
      let (peers, s) := s.askPeers
      peers.foldl (fun s e => if e.2.position = newID then s.updateDisputes e.1 ourNewSet else s) s
  if r.position.isBowOut then s else s.proposePosition

def updateOurPositions : Consensus τ A :=
  let (closeTimeVotes, s) := s.removeStale
  match s.result with
  | none   => s
  | some r =>
    let (ourNewSet, s) := s.updateVotes r
    match s.result with
    | none   => s
    | some r =>
      let (closeTime, haveCloseTimeConsensus) := s.consensusCloseTime closeTimeVotes r
      let s := { s with haveCloseTimeConsensus }
      let ourCutoff := ((s.now : Int) - s.parms.proposeINTERVAL) % 2 ^ 32 |>.toNat
      match ourNewSet with
      | some set => s.changePosition r set closeTime
      | none     =>
        -- the close time changed or our position is stale
        if closeTime ≠ s.asCloseTime r.position.closeTime ∨ r.position.isStale ourCutoff then
          s.changePosition r r.txns closeTime
        else
          s

-- Subtraction of `std::size_t`.
def subSize (a b : Nat) : Nat :=
  toSize ((a : Int) - b)

-- Whether too many validators lag behind in the given phase of pausing.
def willPause (phase totalValidators quorum laggards offline : Nat) : Bool :=
  if phase = 0 then
    decide (laggards + offline > subSize totalValidators quorum)
  else if phase = 4 then
    true
  else
    let total := Float32.ofNat totalValidators
    let nonLaggards := Float32.ofNat (subSize totalValidators (laggards + offline))
    let quorumRatio := Float32.ofNat quorum / total
    let allowedDissent := 1.0 - quorumRatio
    let phaseFactor := Float32.ofNat phase / 4.0
    decide (nonLaggards / total < quorumRatio + allowedDissent * phaseFactor)

def shouldPause (roundTime : Int) : Bool × Consensus τ A :=
  let seq := s.previousLedger.seq
  let (valid, s) := s.ask (Adaptor.getValidLedgerIndex τ)
  let ahead := seq - min valid seq
  let ((quorum, trustedKeys), s) := s.ask (Adaptor.getQuorumKeys τ)
  let totalValidators := trustedKeys.length
  let ((laggards, trustedKeys), s) := s.ask (Adaptor.laggards τ · seq trustedKeys)
  let offline := trustedKeys.length
  let (validator, s) := s.ask (Adaptor.validator τ)
  let (haveValidated, s) := s.ask (Adaptor.haveValidated τ)
  if ahead = 0 ∨ laggards = 0 ∨ totalValidators = 0 ∨ !validator ∨ !haveValidated ∨
      roundTime > s.parms.ledgerMAX_CONSENSUS then
    (false, s)
  else
    (willPause ((ahead - 1) % 5) totalValidators quorum laggards offline, s)

def haveConsensus (r : Result τ) : Bool × Consensus τ A :=
  let (agree, disagree) :=
    s.currPeerPositions.toList.partition fun e => e.2.position = r.position.position
  let (currentFinished, s) :=
    s.ask (Adaptor.proposersFinished · s.previousLedger s.prevLedgerID)
  let state := checkConsensus s.prevProposers (agree.length + disagree.length) agree.length
    currentFinished s.prevRoundTime r.roundTime.read s.parms (s.mode = .proposing)
  (state ≠ .no, { s with result := some { r with state } })

-- The end of the establish phase.
def accept (r : Result τ) : Consensus τ A :=
  let s := s.notify (.updateOperatingMode s.currPeerPositions.size)
  let s := { s with
    prevProposers := s.currPeerPositions.size
    prevRoundTime := r.roundTime.read
    phase := .accepted }
  s.notify (.onAccept r s.previousLedger s.closeResolution s.rawCloseTimes s.mode)

-- The part of `phaseEstablish` after our position was updated.
def checkAccept : Consensus τ A :=
  match s.result with
  | none   => s
  | some r =>
    match s.shouldPause r.roundTime.read with
    | (true, s)  => s
    | (false, s) =>
      match s.haveConsensus r with
      | (false, s) => s
      | (true, s)  =>
        match s.result with
        | none   => s
        | some r => if s.haveCloseTimeConsensus then s.accept r else s

def phaseEstablish : Consensus τ A :=
  match s.result with
  | none   => s
  | some r =>
    let (tp, s) := s.ask (Adaptor.clock τ)
    let roundTime := r.roundTime.tick tp
    let s := { s with
      result := some { r with roundTime, proposers := s.currPeerPositions.size }
      convergePercent :=
        (roundTime.read * 100).tdiv (max s.prevRoundTime s.parms.avMIN_CONSENSUS_TIME) }
    if roundTime.read < s.parms.ledgerMIN_CONSENSUS then s
    else s.updateOurPositions.checkAccept

def leaveConsensus : Consensus τ A :=
  if s.mode = .proposing then
    let s :=
      match s.result with
      | some r =>
        if r.position.isBowOut then
          s
        else
          let position := r.position.bowOut s.now
          { s with result := some { r with position } }.notify (.propose position)
      | none => s
    s.setMode .observing
  else
    s

-- The functions below call each other through `timerEntry`, which is passed to them.
section Timer

variable (timerEntry : Consensus τ A → Nat → Option (Consensus τ A))

def startRoundInternal (now : Nat) (prevLedgerID : τ.LedgerID) (prevLedger : Ledger τ)
    (mode : ConsensusMode) : Option (Consensus τ A) :=
  let s := { s with phase := .open }.setMode mode
  let (tp, s) := s.ask (Adaptor.clock τ)
  let s := { s with
    now
    prevLedgerID
    previousLedger := prevLedger
    result := none
    convergePercent := 0
    haveCloseTimeConsensus := false
    openTime := s.openTime.reset tp
    currPeerPositions := ∅
    acquired := ∅
    rawCloseTimes := {}
    deadNodes := []
    closeResolution := getNextLedgerTimeResolution prevLedger.closeTimeResolution
                                prevLedger.closeAgree (prevLedger.seq + 1) }
  let s := s.playbackProposals
  -- we may be falling behind
  if s.currPeerPositions.size > s.prevProposers / 2 then timerEntry s s.now else some s

-- The part of `handleWrongLedger` that switches to the proposals for another ledger.
def switchLedgerID (lgrId : τ.LedgerID) : Consensus τ A :=
  if s.prevLedgerID ≠ lgrId then
    let s := { s with
      prevLedgerID := lgrId
      result := s.result.map Result.clear
      currPeerPositions := ∅
      rawCloseTimes := { s.rawCloseTimes with peers := [] }
      deadNodes := [] }
    s.playbackProposals
  else
    s

def handleWrongLedger (lgrId : τ.LedgerID) : Option (Consensus τ A) :=
  let s := s.leaveConsensus.switchLedgerID lgrId
  if s.previousLedger.id = s.prevLedgerID then
    some s
  else
    match s.ask (Adaptor.acquireLedger · s.prevLedgerID) with
    | (some newLedger, s) => s.startRoundInternal timerEntry s.now lgrId newLedger .switchedLedger
    | (none, s) => some (s.setMode .wrongLedger)

def checkLedger : Option (Consensus τ A) :=
  let (netLgr, s) := s.ask (Adaptor.getPrevLedger · s.prevLedgerID s.previousLedger s.mode)
  if netLgr ≠ s.prevLedgerID ∨ s.previousLedger.id ≠ s.prevLedgerID then
    s.handleWrongLedger timerEntry netLgr
  else
    some s

end Timer

-- The phase may have changed with the ledger.
def runPhase : Consensus τ A :=
  match s.phase with
  | .open      => s.phaseOpen
  | .establish => s.phaseEstablish
  | .accepted  => s

-- `none` stands for a call that is nested too deep.
def timerEntry : Nat → Consensus τ A → Nat → Option (Consensus τ A)
  | 0, _, _ => none
  | depth + 1, s, now =>
    if s.phase = .accepted then
      some s
    else
      ({ s with now }.checkLedger (timerEntry depth)).map runPhase

def startRound (depth now : Nat) (prevLedgerID : τ.LedgerID) (prevLedger : Ledger τ)
    (nowUntrusted : List τ.NodeID) (proposing : Bool) : Option (Consensus τ A) :=
  let s :=
    if s.firstRound then
      { s with
        prevRoundTime := s.parms.ledgerIDLE_INTERVAL
        prevCloseTime := prevLedger.closeTime
        firstRound    := false }
    else
      { s with prevCloseTime := s.rawCloseTimes.self }
  let s := { s with
    recentPeerPositions := nowUntrusted.foldl HashMap.erase s.recentPeerPositions }
  let startMode : ConsensusMode := if proposing then .proposing else .observing
  if prevLedger.id ≠ prevLedgerID then
    match s.ask (Adaptor.acquireLedger · prevLedgerID) with
    | (some newLedger, s) =>
      s.startRoundInternal (timerEntry depth) now prevLedgerID newLedger startMode
    | (none, s) => s.startRoundInternal (timerEntry depth) now prevLedgerID prevLedger .wrongLedger
  else
    s.startRoundInternal (timerEntry depth) now prevLedgerID prevLedger startMode

def simulate (now : Nat) (consensusDelay : Option Int) : Consensus τ A :=
  let s := { s with now }.closeLedger
  match s.result with
  | none   => s
  | some r =>
    let r := { r with
      roundTime := r.roundTime.tickFixed (consensusDelay.getD 100)
      proposers := s.currPeerPositions.size }
    let s := { s with
      result := some r
      prevProposers := s.currPeerPositions.size
      prevRoundTime := r.roundTime.read
      phase := .accepted }
    s.notify (.onForceAccept r s.previousLedger s.closeResolution s.rawCloseTimes s.mode)

end Consensus
