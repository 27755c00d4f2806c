import Bixd.Ledger.StateTable

-- A view that collects transactions and the changes they make.
structure OpenView where
  base : ReadView
  info : LedgerInfo
  isOpen : Bool
  rules : Rules
  items : RawStateTable := {}
  txs : OrderedMap UInt256 TxData := ∅

namespace OpenView

-- The view of an open ledger on top of a closed one.
def openLedger (base : ReadView) (rules : Rules) : OpenView where
  base   := base
  info   := { base.info with seq := base.info.seq + 1 }
  isOpen := true
  rules  := rules

def make (base : ReadView) : OpenView where
  base   := base
  info   := base.info
  isOpen := base.isOpen
  rules  := base.rules

def view (v : OpenView) : ReadView where
  info    := v.info
  isOpen  := v.isOpen
  rules   := v.rules
  exists_ := v.items.exists_ v.base
  succ    := v.items.succ v.base
  read    := v.items.read v.base

def rawErase (v : OpenView) (p : SLEPtr) : Except String OpenView :=
  return { v with items := ← v.items.erase p }

def rawInsert (v : OpenView) (p : SLEPtr) : Except String OpenView :=
  return { v with items := ← v.items.insert p }

def rawReplace (v : OpenView) (p : SLEPtr) : Except String OpenView :=
  return { v with items := ← v.items.replace p }

def rawDestroyBIXRP (v : OpenView) (fee : Int) : OpenView :=
  { v with items := v.items.destroyBIXRP fee }

def rawTxInsert (v : OpenView) (key : UInt256) (tx : TxData) : Except String OpenView :=
  if (v.txs.find? key).isSome then
    .error "rawTxInsert: duplicate TX id"
  else
    .ok { v with txs := v.txs.insert key tx }

instance : TxsRawView OpenView where
  rawErase := rawErase
  rawInsert := rawInsert
  rawReplace := rawReplace
  rawDestroyBIXRP := rawDestroyBIXRP
  rawTxInsert := rawTxInsert

def apply {V : Type} [TxsRawView V] (v : OpenView) (target : V) : Except String V := do
  let target ← v.items.apply target
  v.txs.toList.foldlM (fun target e => TxsRawView.rawTxInsert target e.1 e.2) target

end OpenView

-- How a transaction is applied.
abbrev ApplyFlags := UInt32

def tapNONE      : ApplyFlags := 0x00
def tapFAIL_HARD : ApplyFlags := 0x10
def tapRETRY     : ApplyFlags := 0x20

-- `ApplyViewBase`, which the sandboxes and the view of a transaction are.
structure ApplyView where
  base  : ReadView
  items : ApplyStateTable := {}

namespace ApplyView

def view (v : ApplyView) : ReadView where
  info    := v.base.info
  isOpen  := v.base.isOpen
  rules   := v.base.rules
  exists_ := v.items.exists_ v.base
  succ    := v.items.succ v.base
  read    := v.items.read v.base

def peek (v : ApplyView) (k : Keylet) : Option SLEPtr × ApplyView :=
  let (p, items) := v.items.peek v.base k
  (p, { v with items := items })

def erase (v : ApplyView) (p : SLEPtr) : Except String ApplyView :=
  return { v with items := ← v.items.erase p }

def insert (v : ApplyView) (p : SLEPtr) : Except String ApplyView :=
  return { v with items := ← v.items.insert p }

def update (v : ApplyView) (p : SLEPtr) : Except String ApplyView :=
  return { v with items := ← v.items.update p }

-- A new entry, which is not in the view yet.
def alloc (v : ApplyView) (sle : SLE) : SLEPtr × ApplyView :=
  (⟨v.items.next, sle⟩, { v with items := { v.items with next := v.items.next + 1 } })

-- The entry, or a new one without fields.
def peekOrInsert (v : ApplyView) (k : Keylet) : Except String (SLEPtr × ApplyView) :=
  match v.peek k with
  | (some p, v) => .ok (p, v)
  | (none, v)   => do
    let (p, v) := v.alloc (.make k.type k.key)
    return (p, ← v.insert p)

-- The entry, which has to be there.
def peekOrError (v : ApplyView) (k : Keylet) (error : String) :
    Except String (SLEPtr × ApplyView) :=
  match v.peek k with
  | (some p, v) => .ok (p, v)
  | (none, _)   => .error error

def rawErase (v : ApplyView) (p : SLEPtr) : Except String ApplyView :=
  return { v with items := ← v.items.rawErase p }

def rawReplace (v : ApplyView) (p : SLEPtr) : Except String ApplyView :=
  return { v with items := ← v.items.replace p }

def rawDestroyBIXRP (v : ApplyView) (fee : Int) : ApplyView :=
  { v with items := v.items.destroyBIXRP fee }

instance : RawView ApplyView where
  rawErase := rawErase
  rawInsert := insert
  rawReplace := rawReplace
  rawDestroyBIXRP := rawDestroyBIXRP

def apply {V : Type} [RawView V] (v : ApplyView) (target : V) : Except String V :=
  v.items.apply target

end ApplyView
