import Bixd.Lib.Heap
import Bixd.Lib.OrderedMap
import Bixd.Protocol.STLedgerEntry

open OrderedMap

inductive Feature
  | featureDeletableAccounts
  | featureTicketBatch
  | featureMultiSignReserve
  | fixMasterKeyAsRegularKey
  | fixCheckThreading
  | fixAmendmentMajorityCalc
  | featureNegativeUNL
  | featureDepositAuth
  | fixPayChanRecipientOwnerDir
  | fix1543
  | fix1578
  deriving DecidableEq

-- Which features are enabled.
abbrev Rules := Feature → Bool

structure LedgerInfo where
  seq : UInt32
  drops : Int
  hash : UInt256 := 0
  parentHash : UInt256 := 0
  -- Times are counted in seconds.
  parentCloseTime : UInt32 := 0
  closeTime : UInt32 := 0

-- What a view of a ledger can be asked for.
structure ReadView where
  info    : LedgerInfo
  isOpen  : Bool
  rules   : Rules
  exists_ : Keylet → Bool
  succ    : UInt256 → Option UInt256 → Option UInt256
  read    : Keylet → Option SLE

-- A `shared_ptr` to an entry, which is compared by its address.
structure SLEPtr where
  addr : Addr
  sle  : SLE

namespace SLEPtr

def key (p : SLEPtr) : UInt256 :=
  p.sle.key

def set (p : SLEPtr) (f : SField) (v : STVar) : SLEPtr :=
  { p with sle := p.sle.set f v }

def makeFieldAbsent (p : SLEPtr) (f : SField) : SLEPtr :=
  { p with sle := p.sle.makeFieldAbsent f }

end SLEPtr

-- A view whose entries can be changed by themselves. A `LogicError` ends the program.
class RawView (V : Type) where
  rawErase : V → SLEPtr → Except String V
  rawInsert : V → SLEPtr → Except String V
  rawReplace : V → SLEPtr → Except String V
  rawDestroyBIXRP : V → Int → V

-- A transaction and its metadata, which there is for closed ledgers only.
structure TxData where
  txn      : Blob
  metaData : Option Blob

class TxsRawView (V : Type) extends RawView V where
  rawTxInsert : V → UInt256 → TxData → Except String V

-- What a view is about: the entries by their keys, the drops that are left and the transactions.
structure Contents where
  state : UInt256 → Option SLE
  drops : Int
  txs   : UInt256 → Option TxData

namespace Contents

def put (c : Contents) (k : UInt256) (x : Option SLE) : Contents :=
  { c with state := Function.update c.state k x }

end Contents

namespace ReadView

-- A ledger. Its maps are ordered maps, and an entry is stored under its own key, which is not zero.
structure Ledger where
  info     : LedgerInfo
  isOpen   : Bool
  rules    : Rules
  stateMap : OrderedMap UInt256 SLE
  txMap    : OrderedMap UInt256 TxData
  keyed    : ∀ k s, stateMap.find? k = some s → s.key = k
  nonzero  : stateMap.find? 0 = none

namespace Ledger

-- A closed ledger without entries and transactions.
def blank (info : LedgerInfo) (rules : Rules) : Ledger where
  info     := info
  isOpen   := false
  rules    := rules
  stateMap := ∅
  txMap    := ∅
  keyed    := fun _ _ h => nomatch h
  nonzero  := rfl

-- The type of the keylet is not looked at.
def exists_ (l : Ledger) (k : Keylet) : Bool :=
  (l.stateMap.find? k.key).isSome

def succ (l : Ledger) (key : UInt256) (last : Option UInt256) : Option UInt256 :=
  match l.stateMap.firstAbove key (fun _ => true), last with
  | some next, some last => if last ≤ next then none else some next
  | next, _ => next

def read (l : Ledger) (k : Keylet) : Option SLE :=
  if k.key = 0 then none else (l.stateMap.find? k.key).filter k.check

def view (l : Ledger) : ReadView where
  info    := l.info
  isOpen  := l.isOpen
  rules   := l.rules
  exists_ := l.exists_
  succ    := l.succ
  read    := l.read

def contents (l : Ledger) : Contents where
  state := l.stateMap.find?
  drops := l.info.drops
  txs   := l.txMap.find?

def rawErase (l : Ledger) (p : SLEPtr) : Except String Ledger :=
  if (l.stateMap.find? p.key).isSome then
    .ok { l with
      stateMap := l.stateMap.erase p.key
      keyed    := fun k s h => by
        rw [find?_erase] at h
        split at h
        case isTrue => cases h
        case isFalse => exact l.keyed k s h
      nonzero  := by rw [find?_erase, l.nonzero, ite_self] }
  else
    .error "Ledger::rawErase: key not found"

-- The entry is stored under its key. There are no entries with the key zero.
def store (l : Ledger) (p : SLEPtr) (h : p.key ≠ 0) : Ledger :=
  { l with
    stateMap := l.stateMap.insert p.key p.sle
    keyed    := fun k s h => by
      rw [find?_insert] at h
      split at h
      case isTrue hk => cases h; exact hk.symm
      case isFalse => exact l.keyed k s h
    nonzero  := by rw [find?_insert, if_neg h.symm, l.nonzero] }

def rawInsert (l : Ledger) (p : SLEPtr) : Except String Ledger :=
  if (l.stateMap.find? p.key).isSome then
    .error "Ledger::rawInsert: key already exists"
  else if h : p.key ≠ 0 then
    .ok (l.store p h)
  else
    .error "Invalid AS node"

def rawReplace (l : Ledger) (p : SLEPtr) : Except String Ledger :=
  if (l.stateMap.find? p.key).isSome then
    if h : p.key ≠ 0 then .ok (l.store p h) else .error "Invalid AS node"
  else
    .error "Ledger::rawReplace: key not found"

def rawDestroyBIXRP (l : Ledger) (fee : Int) : Ledger :=
  { l with info.drops := l.info.drops - fee }

def rawTxInsert (l : Ledger) (key : UInt256) (tx : TxData) : Except String Ledger :=
  if tx.metaData.isNone then
    .error "assert(metaData)"
  else if (l.txMap.find? key).isSome then
    .error "duplicate_tx"
  else
    .ok { l with txMap := l.txMap.insert key tx }

instance : TxsRawView Ledger where
  rawErase := rawErase
  rawInsert := rawInsert
  rawReplace := rawReplace
  rawDestroyBIXRP := rawDestroyBIXRP
  rawTxInsert := rawTxInsert

end Ledger
end ReadView
