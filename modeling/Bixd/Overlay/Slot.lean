import Bixd.Basics.UInt256
import Bixd.Lib.HashMap

namespace ReduceRelay

-- Times are in nanoseconds.
def seconds (n : Nat) : Nat :=
  n * 1000000000

-- Durations of squelches in seconds.
def MIN_UNSQUELCH_EXPIRE : Nat := 300

def MAX_UNSQUELCH_EXPIRE_DEFAULT : Nat := 600

def SQUELCH_PER_PEER : Nat := 10

def MAX_UNSQUELCH_EXPIRE_PEERS : Nat := 3600

-- No message received threshold before identifying a peer as idled.
def IDLED : Nat := 8

def MIN_MESSAGE_THRESHOLD : Nat := 9

def MAX_MESSAGE_THRESHOLD : Nat := 10

def MAX_SELECTED_PEERS : Nat := 5

inductive PeerState
  | Counting
  | Selected
  | Squelched
  deriving DecidableEq, Repr

inductive SlotState
  | Counting
  | Selected
  deriving DecidableEq, Repr

-- A call of the squelch handler about a peer.
inductive Message
  | squelch (id duration : Nat)
  | unsquelch (id : Nat)
  deriving DecidableEq, Repr

-- The random numbers of a call: for the rounds of the selection, and for the peers to squelch.
structure Random where
  round : Nat → Nat
  peer  : Nat → Nat

structure PeerInfo where
  state       : PeerState
  count       : Nat
  expire      : Nat
  lastMessage : Nat

structure Slot where
  peers : HashMap Nat PeerInfo := ∅
  considered : List Nat := []
  reachedThreshold : UInt16 := 0
  lastSelected : Nat
  state : SlotState := .Counting

namespace Slot

def resetCounts (s : Slot) : Slot :=
  { s with peers := s.peers.mapVal fun peer => { peer with count := 0 } }

def initCounting (s : Slot) : Slot :=
  { s with state := .Counting, considered := [], reachedThreshold := 0 }.resetCounts

def setPeer (s : Slot) (id : Nat) (peer : PeerInfo) : Slot :=
  { s with peers := s.peers.insert id peer }

def getSquelchDuration (npeers random : Nat) : Nat :=
  let m := min (max MAX_UNSQUELCH_EXPIRE_DEFAULT (SQUELCH_PER_PEER * npeers))
    MAX_UNSQUELCH_EXPIRE_PEERS
  MIN_UNSQUELCH_EXPIRE + random % (m - MIN_UNSQUELCH_EXPIRE + 1)

-- The loop that selects peers from the considered ones, excluding those that have been idling. It is
-- run for as many rounds as there are considered peers.
def update.select (peers : HashMap Nat PeerInfo) (now : Nat) (random : Nat → Nat) :
    Nat → List Nat → List Nat → List Nat
  | 0, _, selected => selected
  | rounds + 1, considered, selected =>
    if selected.length = MAX_SELECTED_PEERS then selected
    else
      match considered[random rounds % considered.length]? with
      | none    => selected
      | some id =>
        let considered := considered.erase id
        match peers.find? id with
        | none      => select peers now random rounds considered selected
        | some peer =>
          if now - peer.lastMessage < seconds IDLED then
            select peers now random rounds considered (id :: selected)
          else select peers now random rounds considered selected

-- What the selection does to a peer.
def update.assign (now npeers : Nat) (random : Nat → Nat) (selected : List Nat) (id : Nat)
    (peer : PeerInfo) : PeerInfo :=
  let peer := { peer with count := 0 }
  if id ∈ selected then { peer with state := .Selected }
  else if peer.state ≠ .Squelched then
    { peer with
      state := .Squelched
      expire := now + seconds (getSquelchDuration npeers (random id)) }
  else peer

-- The peers that are not selected and not already squelched.
def update.messages (npeers : Nat) (random : Nat → Nat) (selected : List Nat)
    (peers : HashMap Nat PeerInfo) : List Message :=
  (peers.toList.filter fun p => p.1 ∉ selected ∧ p.2.state ≠ .Squelched).map fun p =>
    .squelch p.1 (getSquelchDuration npeers (random p.1))

-- The selection, when enough peers have reached the threshold.
def update.selection (s : Slot) (now : Nat) (random : Random) : List Message × Slot :=
  let selected := update.select s.peers now random.round s.considered.length s.considered []
  if selected.length ≠ MAX_SELECTED_PEERS then ([], s.initCounting)
  else
    let npeers := s.peers.size - MAX_SELECTED_PEERS
    (update.messages npeers random.peer selected s.peers,
      { s with
        lastSelected := now
        peers := s.peers.mapKey (update.assign now npeers random.peer selected)
        considered := []
        reachedThreshold := 0
        state := .Selected })

-- Counts a message of a peer, which makes it considered or reach the threshold.
def update.consider (s : Slot) (now id : Nat) (peer : PeerInfo) : Slot :=
  let peer := { peer with lastMessage := now, count := peer.count + 1 }
  { s.setPeer id peer with
    considered :=
      if peer.count > MIN_MESSAGE_THRESHOLD then s.considered.insert id else s.considered
    reachedThreshold :=
      if peer.count = MAX_MESSAGE_THRESHOLD + 1 then s.reachedThreshold + 1
      else s.reachedThreshold }

def update.count (s : Slot) (now id : Nat) (peer : PeerInfo) (random : Random) :
    List Message × Slot :=
  let s := update.consider s now id peer
  if now - s.lastSelected > 2 * seconds MAX_UNSQUELCH_EXPIRE_DEFAULT then ([], s.initCounting)
  else if s.reachedThreshold.toNat = MAX_SELECTED_PEERS then update.selection s now random
  else ([], s)

def update (s : Slot) (now id : Nat) (random : Random) : List Message × Slot :=
  match s.peers.find? id with
  | none =>
    -- First message from this peer.
    let peer := { state := .Counting, count := 0, expire := now, lastMessage := now }
    ([], (s.setPeer id peer).initCounting)
  | some peer =>
    if peer.state = .Squelched ∧ now > peer.expire then
      -- Message from a peer with expired squelch.
      ([], (s.setPeer id { peer with state := .Counting, lastMessage := now }).initCounting)
    else if s.state ≠ .Counting ∨ peer.state = .Squelched then
      ([], s.setPeer id { peer with lastMessage := now })
    else update.count s now id peer random

-- A source of messages is gone: all peers are unsquelched and counted again.
def deletePeer.reset (s : Slot) (now : Nat) : List Message × Slot :=
  ((s.peers.toList.filter fun p => p.2.state = .Squelched).map fun p => .unsquelch p.1,
    { s with
      peers := s.peers.mapVal fun peer =>
        { peer with state := .Counting, count := 0, expire := now }
      considered := []
      reachedThreshold := 0
      state := .Counting })

def deletePeer.unconsider (s : Slot) (id : Nat) (peer : PeerInfo) : Slot :=
  if id ∈ s.considered then
    { s with
      reachedThreshold :=
        if peer.count > MAX_MESSAGE_THRESHOLD then s.reachedThreshold - 1 else s.reachedThreshold
      considered := s.considered.erase id }
  else s

-- The end of `deletePeer`: the peer is erased when it disconnects and not when it idles.
def deletePeer.leave (s : Slot) (now id : Nat) (erase : Bool) : Slot :=
  match s.peers.find? id with
  | none      => s
  | some peer =>
    if erase then { s with peers := s.peers.erase id }
    else s.setPeer id { peer with lastMessage := now, count := 0 }

def deletePeer (s : Slot) (now id : Nat) (erase : Bool) : List Message × Slot :=
  match s.peers.find? id with
  | none      => ([], s)
  | some peer =>
    if peer.state = .Selected then
      let (messages, s) := deletePeer.reset s now
      (messages, deletePeer.leave s now id erase)
    else ([], deletePeer.leave (deletePeer.unconsider s id peer) now id erase)

-- One round of the loop of `deleteIdlePeer`.
def deleteIdlePeer.round (now : Nat) (r : List Message × Slot) (id : Nat) : List Message × Slot :=
  match r.2.peers.find? id with
  | none      => r
  | some peer =>
    if now - peer.lastMessage > seconds IDLED then
      let (messages, s) := r.2.deletePeer now id false
      (r.1 ++ messages, s)
    else r

def deleteIdlePeer (s : Slot) (now : Nat) : List Message × Slot :=
  s.peers.keys.foldl (deleteIdlePeer.round now) ([], s)

end Slot

-- `K` is the type of the public keys of validators. The messages that were seen are in the order of
-- their times.
structure Slots (K : Type) where
  slots : HashMap K Slot := ∅
  peersWithMessage : List (Nat × UInt256 × List Nat) := []

namespace Slots

variable {K : Type}

-- A message is aged after `IDLED` seconds.
def expireMessages (s : Slots K) (now : Nat) : Slots K :=
  { s with peersWithMessage :=
      s.peersWithMessage.dropWhile fun m => m.1 + seconds IDLED ≤ now }

def addPeerMessage (s : Slots K) (now : Nat) (key : UInt256) (id : Nat) : Bool × Slots K :=
  let s := s.expireMessages now
  if key = 0 then (true, s)
  else
    match s.peersWithMessage.find? (·.2.1 = key) with
    | none => (true, { s with peersWithMessage := s.peersWithMessage ++ [(now, key, [id])] })
    | some m =>
      if id ∈ m.2.2 then (false, s)
      else
        (true, { s with peersWithMessage := s.peersWithMessage.map fun m =>
          if m.2.1 = key then (m.1, key, id :: m.2.2) else m })

variable [DecidableEq K]

def updateSlotAndSquelch (s : Slots K) (now : Nat) (key : UInt256) (validator : K) (id : Nat)
    (random : Random) : List (K × Message) × Slots K :=
  let added := s.addPeerMessage now key id
  if added.1 then
    let slot := (added.2.slots.find? validator).getD { lastSelected := now }
    let updated := slot.update now id random
    (updated.1.map ((validator, ·)),
      { added.2 with slots := added.2.slots.insert validator updated.2 })
  else ([], added.2)

def deletePeer (s : Slots K) (now id : Nat) (erase : Bool) : List (K × Message) × Slots K :=
  (s.slots.toList.flatMap fun p => (p.2.deletePeer now id erase).1.map ((p.1, ·)),
    { s with slots := s.slots.mapVal fun slot => (slot.deletePeer now id erase).2 })

-- Whether a slot is deleted because of the time of its last selection.
def aged (now : Nat) (slot : Slot) : Bool :=
  now - slot.lastSelected > seconds MAX_UNSQUELCH_EXPIRE_DEFAULT

-- One round of the loop of `deleteIdlePeers`.
def deleteIdlePeers.round (now : Nat) (r : List (K × Message) × Slots K) (validator : K) :
    List (K × Message) × Slots K :=
  match r.2.slots.find? validator with
  | none      => r
  | some slot =>
    let deleted := slot.deleteIdlePeer now
    (r.1 ++ deleted.1.map ((validator, ·)),
      { r.2 with slots :=
          if aged now deleted.2 then r.2.slots.erase validator
          else r.2.slots.insert validator deleted.2 })

def deleteIdlePeers (s : Slots K) (now : Nat) : List (K × Message) × Slots K :=
  s.slots.keys.foldl (deleteIdlePeers.round now) ([], s)

end Slots

-- The calls on the slots.
inductive Call (K : Type) where
  | updateSlotAndSquelch (key : UInt256) (validator : K) (id : Nat) (random : Random)
  | deletePeer (id : Nat) (erase : Bool)
  | deleteIdlePeers

-- The slots, the time of the clock, and until when each connected peer was told not to relay the
-- messages of a validator.
structure System (K : Type) where
  slots     : Slots K := {}
  now       : Nat := 0
  squelched : K → Nat → Option Nat := fun _ _ => none

namespace System

variable {K : Type} [DecidableEq K]

-- What a message does to the squelches of the peers for one validator.
def receive (now : Nat) (squelched : Nat → Option Nat) : Message → Nat → Option Nat
  | .squelch id duration => Function.update squelched id (some (now + seconds duration))
  | .unsquelch id => Function.update squelched id none

def send (now : Nat) (squelched : K → Nat → Option Nat) (m : K × Message) : K → Nat → Option Nat :=
  Function.update squelched m.1 (receive now (squelched m.1) m.2)

def call (s : System K) : Call K → List (K × Message) × Slots K
  | .updateSlotAndSquelch key validator id random =>
    s.slots.updateSlotAndSquelch s.now key validator id random
  | .deletePeer id erase => s.slots.deletePeer s.now id erase
  | .deleteIdlePeers     => s.slots.deleteIdlePeers s.now

-- A peer that disconnects is not squelched any more.
def disconnect (squelched : K → Nat → Option Nat) : Call K → K → Nat → Option Nat
  | .deletePeer id true => fun validator => Function.update (squelched validator) id none
  | _ => squelched

def exec (s : System K) (c : Call K) : System K :=
  let r := s.call c
  { s with slots := r.2, squelched := disconnect (r.1.foldl (send s.now) s.squelched) c }

-- The states that are reached under a clock that does not decrease, by calls that meet a condition.
inductive Reachable (ok : System K → Call K → Prop) : System K → Prop
  | init (now : Nat) : Reachable ok { now }
  | step {s : System K} (now : Nat) (c : Call K) :
    Reachable ok s → s.now ≤ now → ok { s with now } c → Reachable ok ({ s with now }.exec c)

-- A slot that is deleted because of its age has no peer whose squelch has not expired.
def AgedWithoutSquelch (s : System K) : Call K → Prop
  | .deleteIdlePeers => ∀ validator slot, s.slots.slots.find? validator = some slot →
    Slots.aged s.now (slot.deleteIdlePeer s.now).2 → ∀ id peer,
    (slot.deleteIdlePeer s.now).2.peers.find? id = some peer → peer.state = .Squelched →
    peer.expire < s.now
  | _ => True

-- Every peer whose squelch has not expired is recorded as squelched, so that it is unsquelched when
-- a source of the messages of the validator disconnects or idles.
structure Remembers (s : System K) : Prop where
  recorded : ∀ {validator id time}, s.squelched validator id = some time → s.now ≤ time →
    ∃ slot peer, s.slots.slots.find? validator = some slot ∧ slot.peers.find? id = some peer ∧
      peer.state = .Squelched
  unsquelched : ∀ {validator slot source peer now}, s.now ≤ now →
    s.slots.slots.find? validator = some slot → slot.peers.find? source = some peer →
    peer.state = .Selected → ∀ {id time}, s.squelched validator id = some time → now ≤ time →
    (∀ erase, (validator, .unsquelch id) ∈ (s.slots.deletePeer now source erase).1) ∧
    (now - peer.lastMessage > seconds IDLED →
      (validator, .unsquelch id) ∈ (s.slots.deleteIdlePeers now).1)

end System

end ReduceRelay
