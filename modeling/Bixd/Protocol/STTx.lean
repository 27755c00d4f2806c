import Bixd.Protocol.STLedgerEntry

open STVar

inductive TxType
  | ttPAYMENT
  | ttESCROW_CREATE
  | ttESCROW_FINISH
  | ttACCOUNT_SET
  | ttESCROW_CANCEL
  | ttREGULAR_KEY_SET
  | ttNICKNAME_SET
  | ttOFFER_CREATE
  | ttOFFER_CANCEL
  | ttTICKET_CREATE
  | ttSIGNER_LIST_SET
  | ttPAYCHAN_CREATE
  | ttPAYCHAN_FUND
  | ttPAYCHAN_CLAIM
  | ttCHECK_CREATE
  | ttCHECK_CASH
  | ttCHECK_CANCEL
  | ttDEPOSIT_PREAUTH
  | ttTRUST_SET
  | ttACCOUNT_DELETE
  | ttHOOK_SET
  | ttAMENDMENT
  | ttFEE
  | ttUNL_MODIFY
  deriving DecidableEq

namespace STVar

-- What a getter has for a field that may not be there.

def asUInt8 : Option STVar → UInt8
  | some (.uint8 v) => v
  | _ => 0

def asUInt16 : Option STVar → UInt16
  | some (.uint16 v) => v
  | _ => 0

def asUInt32 : Option STVar → UInt32
  | some (.uint32 v) => v
  | _ => 0

def asHash128 : Option STVar → BitVec 128
  | some (.hash128 v) => v
  | _ => 0

def asHash256 : Option STVar → UInt256
  | some (.hash256 v) => v
  | _ => 0

def asAmount : Option STVar → STAmount
  | some (.amount v) => v
  | _ => .ofDrops 0

def asAccountID : Option STVar → AccountID
  | some (.account (some v)) => v
  | _ => 0

def asVL : Option STVar → Blob
  | some (.vl v) => v
  | _ => []

def asArray : Option STVar → List (SField × STObject)
  | some (.array v) => v.toList
  | _ => []

end STVar

namespace STObject

def isFieldPresent (o : STObject) (f : SField) : Bool :=
  (o.find f).isSome

def getFieldU16 (o : STObject) (f : SField) : UInt16 :=
  asUInt16 (o.find f)

def getFieldU32 (o : STObject) (f : SField) : UInt32 :=
  asUInt32 (o.find f)

def getFieldH256 (o : STObject) (f : SField) : UInt256 :=
  asHash256 (o.find f)

def getFieldVL (o : STObject) (f : SField) : Blob :=
  asVL (o.find f)

def getAccountID (o : STObject) (f : SField) : AccountID :=
  asAccountID (o.find f)

end STObject

-- A transaction. A field that is not there has the default value.
structure STTx where
  txID   : UInt256
  type   : TxType
  fields : SField → Option STVar

namespace STTx

def isFieldPresent (tx : STTx) (f : SField) : Bool :=
  (tx.fields f).isSome

def getFieldU8 (tx : STTx) (f : SField) : UInt8 :=
  asUInt8 (tx.fields f)

def getFieldU32 (tx : STTx) (f : SField) : UInt32 :=
  asUInt32 (tx.fields f)

def getFieldH128 (tx : STTx) (f : SField) : BitVec 128 :=
  asHash128 (tx.fields f)

def getFieldH256 (tx : STTx) (f : SField) : UInt256 :=
  asHash256 (tx.fields f)

def getFieldAmount (tx : STTx) (f : SField) : STAmount :=
  asAmount (tx.fields f)

def getAccountID (tx : STTx) (f : SField) : AccountID :=
  asAccountID (tx.fields f)

def getFieldVL (tx : STTx) (f : SField) : Blob :=
  asVL (tx.fields f)

def getFieldArray (tx : STTx) (f : SField) : List (SField × STObject) :=
  asArray (tx.fields f)

-- Fields that may not be there.

def optVL (tx : STTx) (f : SField) : Option Blob :=
  match tx.fields f with
  | some (.vl v) => some v
  | _ => none

def getFlags (tx : STTx) : UInt32 :=
  tx.getFieldU32 sfFlags

end STTx

def tfFullyCanonicalSig : UInt32 := 0x80000000
def tfUniversal : UInt32 := tfFullyCanonicalSig
def tfUniversalMask : UInt32 := ~~~tfUniversal
def tfRequireDestTag : UInt32 := 0x00010000
def tfOptionalDestTag : UInt32 := 0x00020000
def tfRequireAuth : UInt32 := 0x00040000
def tfOptionalAuth : UInt32 := 0x00080000
def tfDisallowBIXRP : UInt32 := 0x00100000
def tfAllowBIXRP : UInt32 := 0x00200000
def tfAccountSetMask : UInt32 :=
  ~~~(tfUniversal ||| tfRequireDestTag ||| tfOptionalDestTag ||| tfRequireAuth |||
    tfOptionalAuth ||| tfDisallowBIXRP ||| tfAllowBIXRP)
def asfRequireDest : UInt32 := 1
def asfRequireAuth : UInt32 := 2
def asfDisallowBIXRP : UInt32 := 3
def asfDisableMaster : UInt32 := 4
def asfAccountTxnID : UInt32 := 5
def asfNoFreeze : UInt32 := 6
def asfGlobalFreeze : UInt32 := 7
def asfDefaultBixd : UInt32 := 8
def asfDepositAuth : UInt32 := 9
def tfGotMajority : UInt32 := 0x00010000
def tfLostMajority : UInt32 := 0x00020000
