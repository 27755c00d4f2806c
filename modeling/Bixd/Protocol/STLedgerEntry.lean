import Bixd.Basics.UInt256
import Bixd.Protocol.STObject

open Function

namespace STArray

-- The objects with their names.
def toList : STArray → List (SField × STObject)
  | nil => []
  | cons f o a => (f, o) :: a.toList

def ofList : List (SField × STObject) → STArray
  | [] => nil
  | (f, o) :: l => cons f o (ofList l)

@[simp]
theorem toList_ofList (l : List (SField × STObject)) : (ofList l).toList = l := by
  induction l
  case nil => rfl
  case cons e l hi => exact congrArg (e :: ·) hi

end STArray

inductive LedgerEntryType
  -- Special types of keylets: anything, and anything but a directory.
  | ltANY
  | ltCHILD
  | ltINVALID
  | ltACCOUNT_ROOT
  | ltDIR_NODE
  | ltBIXD_STATE
  | ltTICKET
  | ltSIGNER_LIST
  | ltOFFER
  | ltLEDGER_HASHES
  | ltAMENDMENTS
  | ltFEE_SETTINGS
  | ltESCROW
  | ltPAYCHAN
  | ltCHECK
  | ltDEPOSIT_PREAUTH
  | ltNEGATIVE_UNL
  | ltNICKNAME
  | ltNotUsed01
  deriving DecidableEq

-- A ledger entry. A field that is not there has the default value.
structure SLE where
  key    : UInt256
  type   : LedgerEntryType
  fields : SField → Option STVar

namespace SLE

variable {s : SLE}

-- An entry of this type without any fields.
def make (type : LedgerEntryType) (key : UInt256) : SLE :=
  ⟨key, type, fun _ => none⟩

def isFieldPresent (s : SLE) (f : SField) : Bool :=
  (s.fields f).isSome

def getFieldU32 (s : SLE) (f : SField) : UInt32 :=
  match s.fields f with
  | some (.uint32 v) => v
  | _ => 0

def getFieldU64 (s : SLE) (f : SField) : UInt64 :=
  match s.fields f with
  | some (.uint64 v) => v
  | _ => 0

def getFieldH256 (s : SLE) (f : SField) : UInt256 :=
  match s.fields f with
  | some (.hash256 v) => v
  | _ => 0

def getFieldAmount (s : SLE) (f : SField) : STAmount :=
  match s.fields f with
  | some (.amount v) => v
  | _ => .ofDrops 0

def getAccountID (s : SLE) (f : SField) : AccountID :=
  match s.fields f with
  | some (.account (some v)) => v
  | _ => 0

def getFieldV256 (s : SLE) (f : SField) : List UInt256 :=
  match s.fields f with
  | some (.vector256 v) => v
  | _ => []

def getFieldVL (s : SLE) (f : SField) : Blob :=
  match s.fields f with
  | some (.vl v) => v
  | _ => []

-- Fields that may not be there.

def optU32 (s : SLE) (f : SField) : Option UInt32 :=
  match s.fields f with
  | some (.uint32 v) => some v
  | _ => none

def optAccountID (s : SLE) (f : SField) : Option AccountID :=
  match s.fields f with
  | some (.account v) => some (v.getD 0)
  | _ => none

def getFieldArray (s : SLE) (f : SField) : List (SField × STObject) :=
  match s.fields f with
  | some (.array v) => v.toList
  | _ => []

def set (s : SLE) (f : SField) (v : STVar) : SLE :=
  { s with fields := Function.update s.fields f (some v) }

-- The field is set, or not there if there is no value.
def setOptU32 (s : SLE) (f : SField) (v : Option UInt32) : SLE :=
  { s with fields := Function.update s.fields f (v.map .uint32) }

def makeFieldAbsent (s : SLE) (f : SField) : SLE :=
  { s with fields := Function.update s.fields f none }

@[simp]
theorem key_set : (s.set f v).key = s.key :=
  rfl

@[simp]
theorem type_set : (s.set f v).type = s.type :=
  rfl

@[simp]
theorem fields_set_self : (s.set f v).fields f = some v :=
  update_self ..

theorem fields_set_of_ne (h : g ≠ f) : (s.set f v).fields g = s.fields g :=
  update_of_ne h ..

-- Getters of fields that are set.

@[simp]
theorem getFieldU32_set_self {v : UInt32} : (s.set f (.uint32 v)).getFieldU32 f = v := by
  rw [getFieldU32, fields_set_self]

@[simp]
theorem getFieldU64_set_self {v : UInt64} : (s.set f (.uint64 v)).getFieldU64 f = v := by
  rw [getFieldU64, fields_set_self]

theorem getFieldU64_set_of_ne (h : g ≠ f) : (s.set f v).getFieldU64 g = s.getFieldU64 g := by
  rw [getFieldU64, fields_set_of_ne h]
  rfl

@[simp]
theorem getFieldV256_set_self {v : List UInt256} :
    (s.set f (.vector256 v)).getFieldV256 f = v := by
  rw [getFieldV256, fields_set_self]

theorem getFieldV256_set_of_ne (h : g ≠ f) : (s.set f v).getFieldV256 g = s.getFieldV256 g := by
  rw [getFieldV256, fields_set_of_ne h]
  rfl

-- Getters of fields other than one that is set or not there.

theorem fields_setOptU32_of_ne (h : g ≠ f) : (s.setOptU32 f o).fields g = s.fields g :=
  update_of_ne h ..

theorem getFieldU32_setOptU32_of_ne (h : g ≠ f) :
    (s.setOptU32 f o).getFieldU32 g = s.getFieldU32 g := by
  rw [getFieldU32, fields_setOptU32_of_ne h]
  rfl

theorem makeFieldAbsent_eq : s.makeFieldAbsent f = s.setOptU32 f none :=
  rfl

@[simp]
theorem fields_makeFieldAbsent_self : (s.makeFieldAbsent f).fields f = none :=
  update_self ..

theorem fields_makeFieldAbsent_of_ne (h : g ≠ f) : (s.makeFieldAbsent f).fields g = s.fields g :=
  update_of_ne h ..

end SLE

structure Keylet where
  type : LedgerEntryType
  key  : UInt256
  deriving DecidableEq

namespace Keylet

open LedgerEntryType

def check (k : Keylet) (sle : SLE) : Bool :=
  match k.type with
  | ltANY     => true
  | ltINVALID => false
  | ltCHILD   => sle.type ≠ ltDIR_NODE
  | type      => sle.type = type

-- Any type will do.
def unchecked (key : UInt256) : Keylet :=
  ⟨ltANY, key⟩

@[simp]
theorem check_unchecked {key : UInt256} : (unchecked key).check sle = true :=
  rfl

end Keylet
