import Bixd.Ledger.ReadView
import Bixd.Protocol.Indexes
import Bixd.Protocol.STTx

-- What a ledger does by itself when it is built.

def FLAG_LEDGER_INTERVAL : UInt32 := 256

def isFlagLedger (seq : UInt32) : Bool :=
  seq % FLAG_LEDGER_INTERVAL = 0

namespace ReadView.Ledger

-- A new ledger that follows this one. Its hash and its close time are provisional.
def next (prevLedger : Ledger) (closeTime : UInt32) : Ledger where
  info := {
    seq := prevLedger.info.seq + 1
    drops := prevLedger.info.drops
    hash := prevLedger.info.hash + 1
    parentHash := prevLedger.info.hash
    parentCloseTime := prevLedger.info.closeTime
    closeTime := closeTime }
  isOpen := prevLedger.isOpen
  rules := prevLedger.rules
  stateMap := prevLedger.stateMap
  txMap := ∅
  keyed := prevLedger.keyed
  nonzero := prevLedger.nonzero

def peek (l : Ledger) (k : Keylet) : Option SLE :=
  (l.stateMap.find? k.key).filter k.check

def txExists (l : Ledger) (key : UInt256) : Bool :=
  (l.txMap.find? key).isSome

-- A raw change with an entry of its own.
def replaceSLE (l : Ledger) (sle : SLE) : Except String Ledger :=
  l.rawReplace ⟨0, sle⟩

variable [Digest]

def updateNegativeUNL.disabledValidator (validator : Blob) (seq : UInt32) : SField × STObject :=
  (sfDisabledValidator,
    .ofList [(sfPublicKey, .vl validator), (sfFirstLedgerSequence, .uint32 seq)])

-- The entry without what is pending, or nothing if it is not needed any more.
def updateNegativeUNL.edit (sle : SLE) (seq : UInt32) : Option SLE :=
  let hasToDisable := sle.isFieldPresent sfValidatorToDisable
  let hasToReEnable := sle.isFieldPresent sfValidatorToReEnable
  let kept := (sle.getFieldArray sfDisabledValidators).filter fun v =>
    !(hasToReEnable ∧ v.2.isFieldPresent sfPublicKey ∧
      v.2.getFieldVL sfPublicKey = sle.getFieldVL sfValidatorToReEnable)
  let newNUnl :=
    if hasToDisable then
      kept ++ [disabledValidator (sle.getFieldVL sfValidatorToDisable) seq]
    else
      kept
  if !newNUnl.isEmpty then
    let sle := sle.set sfDisabledValidators (.array (.ofList newNUnl))
    let sle := if hasToReEnable then sle.makeFieldAbsent sfValidatorToReEnable else sle
    some (if hasToDisable then sle.makeFieldAbsent sfValidatorToDisable else sle)
  else
    none

def updateNegativeUNL (l : Ledger) : Except String Ledger :=
  match l.peek .negativeUNL with
  | none     => .ok l
  | some sle =>
    if !sle.isFieldPresent sfValidatorToDisable ∧ !sle.isFieldPresent sfValidatorToReEnable then
      .ok l
    else
      match updateNegativeUNL.edit sle l.info.seq with
      | some sle' => l.replaceSLE sle'
      | none      => l.rawErase ⟨0, sle⟩

-- The parent's hash is added to the hashes that the entry has.
def updateSkipList.push (l : Ledger) (k : Keylet) (hashes : List UInt256 → List UInt256)
    (prevIndex : UInt32) : Except String Ledger :=
  let set (sle : SLE) (hashes : List UInt256) : SLEPtr :=
    ⟨0, (sle.set sfHashes (.vector256 hashes)).set sfLastLedgerSequence (.uint32 prevIndex)⟩
  match l.peek k with
  | none     => l.rawInsert (set (.make k.type k.key) (hashes []))
  | some sle => l.rawReplace (set sle (hashes (sle.getFieldV256 sfHashes)))

-- Update the record of every 256th ledger.
def updateSkipList.every256th (l : Ledger) (prevIndex : UInt32) : Except String Ledger :=
  if prevIndex &&& 0xff = 0 then
    updateSkipList.push l (.skipPage prevIndex) (· ++ [l.info.parentHash]) prevIndex
  else
    .ok l

-- Update the record of the past 256 ledgers.
def updateSkipList.past256 (l : Ledger) (prevIndex : UInt32) : Except String Ledger :=
  updateSkipList.push l .skip (fun hashes =>
    (if hashes.length = 256 then hashes.drop 1 else hashes) ++ [l.info.parentHash]) prevIndex

def updateSkipList (l : Ledger) : Except String Ledger :=
  if l.info.seq = 0 then
    -- The genesis ledger has no previous ledger.
    .ok l
  else do
    let prevIndex := l.info.seq - 1
    let l ← updateSkipList.every256th l prevIndex
    updateSkipList.past256 l prevIndex

end ReadView.Ledger

-- The hash of a ledger that comes before, if the ledger has it.
def hashOfSeq [Digest] (ledger : ReadView) (seq : UInt32) : Option UInt256 :=
  if seq > ledger.info.seq then
    none
  else if seq = ledger.info.seq then
    some ledger.info.hash
  else if seq = ledger.info.seq - 1 then
    some ledger.info.parentHash
  else
    -- The difference is an `int`, which is converted when it is compared with a size.
    let diff := (ledger.info.seq - seq).toInt32
    let near :=
      if diff ≤ 256 then
        (ledger.read .skip).bind fun hashIndex =>
          let vec := hashIndex.getFieldV256 sfHashes
          let diff := diff.toInt64.toUInt64.toNat
          if vec.length ≥ diff then vec[vec.length - diff]? else none
      else
        none
    match near with
    | some hash => some hash
    | none      =>
      if seq &&& 0xff ≠ 0 then
        none
      else
        (ledger.read (.skipPage seq)).bind fun hashIndex =>
          let lastSeq := hashIndex.getFieldU32 sfLastLedgerSequence
          let diff := ((lastSeq - seq) >>> 8).toNat
          let vec := hashIndex.getFieldV256 sfHashes
          if vec.length > diff then vec[vec.length - diff - 1]? else none
