import Bixd.Protocol.SField
import Bixd.Protocol.STAmount

open SerializedTypeID SerialIter Serializer SField

structure STPathElement where
  mType       : UInt8
  mAccountID  : AccountID
  mCurrencyID : Currency
  mIssuerID   : AccountID
  deriving DecidableEq

namespace STPathElement

def typeNone     : UInt8 := 0x00
def typeAccount  : UInt8 := 0x01
def typeCurrency : UInt8 := 0x10
def typeIssuer   : UInt8 := 0x20
def typeBoundary : UInt8 := 0xFF
def typeAll      : UInt8 := typeAccount ||| typeCurrency ||| typeIssuer

-- The constructor that derives the type from the values.
def ofValues (account : AccountID) (currency : Currency) (issuer : AccountID)
    (forceCurrency : Bool) : STPathElement where
  mType :=
    (if account ≠ 0 then typeAccount else 0) |||
    (if forceCurrency ∨ currency ≠ 0 then typeCurrency else 0) |||
    (if issuer ≠ 0 then typeIssuer else 0)
  mAccountID  := account
  mCurrencyID := currency
  mIssuerID   := issuer

-- The values that an element of type `iType` is followed by.
def ofSerialIter (iType : UInt8) : SerialIter STPathElement := fun s => do
  let (account, s) ← optional (iType &&& typeAccount ≠ 0) s
  let (currency, s) ← optional (iType &&& typeCurrency ≠ 0) s
  let (issuer, s) ← optional (iType &&& typeIssuer ≠ 0) s
  return (ofValues account currency issuer (iType &&& typeCurrency ≠ 0), s)
where
  optional (present : Bool) : SerialIter (BitVec 160) := fun s =>
    if present then getBitString 160 s else .ok (0, s)

def add (e : STPathElement) : Blob :=
  add8 e.mType ++
  (if e.mType &&& typeAccount ≠ 0 then addBitString e.mAccountID else []) ++
  (if e.mType &&& typeCurrency ≠ 0 then addBitString e.mCurrencyID else []) ++
  (if e.mType &&& typeIssuer ≠ 0 then addBitString e.mIssuerID else [])

end STPathElement

abbrev STPath := List STPathElement

namespace STPathSet

open STPathElement

-- The constructor's loop with the path that is being read. Each round reads a byte at least.
def ofSerialIter.loop : Nat → STPath → SerialIter (List STPath)
  | 0, _, _ => .error "invalid SerialIter get8"
  | n + 1, path, s => do
    let (iType, s) ← get8 s
    if iType = typeNone ∨ iType = typeBoundary then
      if path.isEmpty then
        .error "empty path"
      else if iType = typeNone then
        .ok ([path], s)
      else do
        let (value, s) ← loop n [] s
        return (path :: value, s)
    else if iType &&& ~~~typeAll ≠ 0 then
      .error "bad path element"
    else do
      let (e, s) ← STPathElement.ofSerialIter iType s
      loop n (path ++ [e]) s

def ofSerialIter : SerialIter (List STPath) := fun s => ofSerialIter.loop (s.length + 1) [] s

def add.loop (first : Bool) : List STPath → Blob
  | [] => add8 typeNone
  | path :: value =>
    (if first then [] else add8 typeBoundary) ++ path.flatMap STPathElement.add ++
    loop false value

def add : List STPath → Blob :=
  add.loop true

end STPathSet

namespace STVector256

def ofBlob (data : Blob) : List (BitVec 256) :=
  (List.range (data.length / 32)).map fun i =>
    BitVec.ofNat 256 (Bytes.toNat ((data.drop (32 * i)).take 32))

def ofSerialIter : SerialIter (List (BitVec 256)) := fun s => do
  let (data, s) ← getVL s
  return (ofBlob data, s)

def add (v : List (BitVec 256)) : Except String Blob :=
  addVL (v.flatMap addBitString)

end STVector256

namespace STAccount

-- A default account has no value.
def ofSerialIter : SerialIter (Option AccountID) := fun s => do
  let (v, s) ← getVL s
  if v.isEmpty then
    .ok (none, s)
  else if v.length ≠ 20 then
    .error "Invalid STAccount size"
  else
    .ok (some (BitVec.ofNat 160 (Bytes.toNat v)), s)

def add : Option AccountID → Except String Blob
  | none   => addVL []
  | some a => addVL (addBitString a)

end STAccount

mutual

inductive STVar
  | uint8 (v : UInt8)
  | uint16 (v : UInt16)
  | uint32 (v : UInt32)
  | uint64 (v : UInt64)
  | hash128 (v : BitVec 128)
  | hash160 (v : BitVec 160)
  | hash256 (v : BitVec 256)
  | amount (v : STAmount)
  | vl (v : Blob)
  | account (v : Option AccountID)
  | pathset (v : List STPath)
  | vector256 (v : List (BitVec 256))
  | object (v : STObject)
  | array (v : STArray)

-- The fields that are present, in the order of the object's vector.
inductive STObject
  | nil
  | cons (f : SField) (v : STVar) (o : STObject)

inductive STArray
  | nil
  | cons (f : SField) (o : STObject) (a : STArray)

end

namespace STVar

def getSType : STVar → SerializedTypeID
  | uint8 _ => STI_UINT8
  | uint16 _ => STI_UINT16
  | uint32 _ => STI_UINT32
  | uint64 _ => STI_UINT64
  | hash128 _ => STI_HASH128
  | hash160 _ => STI_HASH160
  | hash256 _ => STI_HASH256
  | amount _ => STI_AMOUNT
  | vl _ => STI_VL
  | account _ => STI_ACCOUNT
  | pathset _ => STI_PATHSET
  | vector256 _ => STI_VECTOR256
  | object _ => STI_OBJECT
  | array _ => STI_ARRAY

def isDefault : STVar → Bool
  | uint8 v => v = 0
  | uint16 v => v = 0
  | uint32 v => v = 0
  | uint64 v => v = 0
  | hash128 v => v = 0
  | hash160 v => v = 0
  | hash256 v => v = 0
  | amount v => v.isDefault
  | vl v => v.isEmpty
  | account v => v.isNone
  | pathset v => v.isEmpty
  | vector256 v => v.isEmpty
  | object .nil => true
  | object _ => false
  | array .nil => true
  | array _ => false

end STVar

namespace STObject

def toList : STObject → List (SField × STVar)
  | nil => []
  | cons f v o => (f, v) :: o.toList

def ofList : List (SField × STVar) → STObject
  | [] => nil
  | (f, v) :: l => cons f v (ofList l)

def find (f : SField) : STObject → Option STVar
  | nil => none
  | cons f' v o => if f' = f then some v else o.find f

def erase (f : SField) : STObject → STObject
  | nil => nil
  | cons f' v o => if f' = f then o else cons f' v (o.erase f)

end STObject

-- Fields are sorted by their codes.
def SField.codeLE {α : Type} (x y : SField × α) : Prop :=
  x.fst.fieldCode ≤ y.fst.fieldCode

instance {α : Type} : DecidableRel (@SField.codeLE α) :=
  fun x y => inferInstanceAs (Decidable (x.fst.fieldCode ≤ y.fst.fieldCode))

namespace STObject

def getSortedFields (o : STObject) (withSigningField : Bool) : List (SField × STVar) :=
  (o.toList.filter (·.fst.shouldInclude withSigningField)).insertionSort codeLE

-- A field's identifier and data. The end of an object or of an array is marked.
def addField (f : SField) (v : STVar) (data : Blob) : Blob :=
  addFieldID f.fieldType.code f.fieldValue ++ data ++
  (if v.getSType = STI_ARRAY ∨ v.getSType = STI_OBJECT then
    addFieldID v.getSType.code 1
  else
    [])

end STObject

mutual

def STVar.add : STVar → Except String Blob
  | .uint8 v => .ok (add8 v)
  | .uint16 v => .ok (add16 v)
  | .uint32 v => .ok (add32 v)
  | .uint64 v => .ok (add64 v)
  | .hash128 v => .ok (addBitString v)
  | .hash160 v => .ok (addBitString v)
  | .hash256 v => .ok (addBitString v)
  | .amount v => .ok v.add
  | .vl v => addVL v
  | .account v => STAccount.add v
  | .pathset v => .ok (STPathSet.add v)
  | .vector256 v => STVector256.add v
  | .object v => do
    let fields ← v.addEach true
    return (fields.insertionSort codeLE).flatMap Prod.snd
  | .array v => v.add

-- The serialized fields, each with the field it comes from.
def STObject.addEach (withSigningField : Bool) : STObject → Except String (List (SField × Blob))
  | .nil => .ok []
  | .cons f v o =>
    if f.shouldInclude withSigningField then do
      let data ← v.add
      let fields ← o.addEach withSigningField
      return (f, STObject.addField f v data) :: fields
    else
      o.addEach withSigningField

def STArray.add : STArray → Except String Blob
  | .nil => .ok []
  | .cons f o a => do
    let fields ← o.addEach true
    let rest ← a.add
    return addFieldID f.fieldType.code f.fieldValue ++
      (fields.insertionSort codeLE).flatMap Prod.snd ++
      addFieldID STI_OBJECT.code 1 ++ rest

end

-- The serialization of the fields in the order of their codes.
def STObject.add (o : STObject) (withSigningField : Bool) : Except String Blob := do
  let fields ← o.addEach withSigningField
  return (fields.insertionSort codeLE).flatMap Prod.snd

inductive SOEStyle
  | soeREQUIRED
  | soeOPTIONAL
  | soeDEFAULT
  deriving DecidableEq

abbrev SOTemplate := List (SField × SOEStyle)

namespace STObject

open SOEStyle

def fieldErr {α : Type} (f : SField) (description : String) : Except String α :=
  .error ("Field '" ++ f.fieldName ++ "' " ++ description)

def applyTemplate : SOTemplate → STObject → Except String STObject
  | [], o =>
    match o.toList.find? (fun e => !e.fst.isDiscardable) with
    | some (f, _) => fieldErr f "found in disallowed location."
    | none => .ok nil
  | (f, style) :: type, o =>
    match o.find f with
    | some v =>
      if style = soeDEFAULT ∧ v.isDefault then
        fieldErr f "may not be explicitly set to default."
      else do
        let o ← applyTemplate type (o.erase f)
        return cons f v o
    | none =>
      if style = soeREQUIRED then
        fieldErr f "is required but missing."
      else
        applyTemplate type o

-- `InnerObjectFormats`
def findSOTemplateBySField (f : SField) : Option SOTemplate :=
  if f = sfSignerEntry then
    some [(sfAccount, soeREQUIRED), (sfSignerWeight, soeREQUIRED)]
  else if f = sfSigner then
    some [(sfAccount, soeREQUIRED), (sfSigningPubKey, soeREQUIRED), (sfTxnSignature, soeREQUIRED)]
  else if f = sfMajority then
    some [(sfAmendment, soeREQUIRED), (sfCloseTime, soeREQUIRED)]
  else if f = sfDisabledValidator then
    some [(sfPublicKey, soeREQUIRED), (sfFirstLedgerSequence, soeREQUIRED)]
  else
    none

def applyTemplateFromSField (f : SField) (o : STObject) : Except String STObject :=
  match findSOTemplateBySField f with
  | some elements => applyTemplate elements o
  | none => .ok o

-- Whether two fields that follow each other are the same one.
def adjacentFind : List (SField × STVar) → Bool
  | x :: y :: l => x.fst = y.fst || adjacentFind (y :: l)
  | _ => false

def checkDuplicates (o : STObject) : Except String STObject :=
  if adjacentFind (o.getSortedFields true) then .error "Duplicate field detected" else .ok o

end STObject

def STVar.applyTemplateFromSField (f : SField) : STVar → Except String STVar
  | .object o => do return .object (← o.applyTemplateFromSField f)
  | v => .ok v

-- The constructors from a `SerialIter`. A field that is read takes one byte at least and two calls, so
-- that the first argument bounds the number of nested calls.
mutual

-- The loop of `STObject::set`.
def STObject.setFields : Nat → Nat → SerialIter STObject
  | 0, _, _ => .error "Maximum nesting depth of STObject exceeded"
  | n + 1, depth, s =>
    if s.isEmpty then
      .ok (.nil, s)
    else do
      let ((type, field), s) ← getFieldID s
      if type = STI_OBJECT.code ∧ field = 1 then
        .ok (.nil, s)
      else if type = STI_ARRAY.code ∧ field = 1 then
        .error "Illegal end-of-array marker in object"
      else
        match getField type field with
        | none   => .error "Unknown field"
        | some f => do
          let (v, s) ← STVar.ofSerialIter n f (depth + 1) s
          let v ← v.applyTemplateFromSField f
          let (o, s) ← STObject.setFields n depth s
          return (.cons f v o, s)

def STVar.ofSerialIter : Nat → SField → Nat → SerialIter STVar
  | 0, _, _, _ => .error "Maximum nesting depth of STVar exceeded"
  | n + 1, f, depth, s =>
    if depth > 10 then
      .error "Maximum nesting depth of STVar exceeded"
    else
      match f.fieldType with
      | STI_UINT8 => do let (v, s) ← get8 s; return (.uint8 v, s)
      | STI_UINT16 => do let (v, s) ← get16 s; return (.uint16 v, s)
      | STI_UINT32 => do let (v, s) ← get32 s; return (.uint32 v, s)
      | STI_UINT64 => do let (v, s) ← get64 s; return (.uint64 v, s)
      | STI_AMOUNT => do let (v, s) ← STAmount.ofSerialIter s; return (.amount v, s)
      | STI_HASH128 => do let (v, s) ← getBitString 128 s; return (.hash128 v, s)
      | STI_HASH160 => do let (v, s) ← getBitString 160 s; return (.hash160 v, s)
      | STI_HASH256 => do let (v, s) ← getBitString 256 s; return (.hash256 v, s)
      | STI_VECTOR256 => do let (v, s) ← STVector256.ofSerialIter s; return (.vector256 v, s)
      | STI_VL => do let (v, s) ← getVL s; return (.vl v, s)
      | STI_ACCOUNT => do let (v, s) ← STAccount.ofSerialIter s; return (.account v, s)
      | STI_PATHSET => do let (v, s) ← STPathSet.ofSerialIter s; return (.pathset v, s)
      | STI_OBJECT => do
        let (o, s) ← STObject.setFields n depth s
        return (.object (← o.checkDuplicates), s)
      | STI_ARRAY => do
        let (a, s) ← STArray.ofSerialIter n depth s
        return (.array a, s)

def STArray.ofSerialIter : Nat → Nat → SerialIter STArray
  | 0, _, _ => .error "Maximum nesting depth of STObject exceeded"
  | n + 1, depth, s =>
    if s.isEmpty then
      .ok (.nil, s)
    else do
      let ((type, field), s) ← getFieldID s
      if type = STI_ARRAY.code ∧ field = 1 then
        .ok (.nil, s)
      else if type = STI_OBJECT.code ∧ field = 1 then
        .error "Illegal terminator in array"
      else
        match getField type field with
        | none   => .error "Unknown field"
        | some f =>
          if f.fieldType ≠ STI_OBJECT then
            .error "Non-object in array"
          else if depth + 1 > 10 then
            .error "Maximum nesting depth of STObject exceeded"
          else do
            let (o, s) ← STObject.setFields n (depth + 1) s
            let o ← o.checkDuplicates
            let o ← o.applyTemplateFromSField f
            let (a, s) ← STArray.ofSerialIter n depth s
            return (.cons f o a, s)

end

-- The constructor of a whole object, at depth 0.
def STObject.ofSerialIter : SerialIter STObject := fun s => do
  let (o, s) ← STObject.setFields (2 * s.length + 1) 0 s
  return (← o.checkDuplicates, s)
