import Bixd.Protocol.Serializer

open Serializer

abbrev AccountID := BitVec 160
abbrev Currency  := BitVec 160

-- A currency issued by an account.
structure Issue where
  currency : Currency
  account  : AccountID
  deriving DecidableEq

def bixrpIssue : Issue := ⟨0, 0⟩

-- The comparison of issues, where the account does not count for the native currency.
def Issue.eq (i i' : Issue) : Bool :=
  i.currency = i'.currency && (i.currency = 0 || i.account = i'.account)

-- The amount is `mValue * 10 ^ mOffset`.
structure STAmount where
  mIssue      : Issue
  mValue      : UInt64
  mOffset     : Int
  mIsNative   : Bool
  mIsNegative : Bool
  deriving DecidableEq

namespace STAmount

def cMinOffset  : Int    := -96
def cMaxOffset  : Int    := 80
def cMinValue   : UInt64 := 1000000000000000
def cMaxValue   : UInt64 := 9999999999999999
def cMaxNativeN : UInt64 := 100000000000000000
def cNotNative  : UInt64 := 0x8000000000000000
def cPosNative  : UInt64 := 0x4000000000000000

def isBIXRP (a : STAmount) : Bool :=
  a.mIssue.currency = 0

def isDefault (a : STAmount) : Bool :=
  (a.mValue = 0) && a.mIsNative

namespace canonicalize

-- The loops of `canonicalize`. A 64-bit mantissa has at most twenty digits.

def lowerNative : Nat → STAmount → STAmount
  | 0, a     => a
  | n + 1, a =>
    if a.mOffset < 0 then
      lowerNative n { a with mValue := a.mValue / 10, mOffset := a.mOffset + 1 }
    else
      a

def raiseNative : Nat → STAmount → Except String STAmount
  | 0, a     => .ok a
  | n + 1, a =>
    if a.mOffset > 0 then
      if a.mValue > cMaxNativeN then
        .error "Native currency amount out of range"
      else
        raiseNative n { a with mValue := a.mValue * 10, mOffset := a.mOffset - 1 }
    else
      .ok a

def raise : Nat → STAmount → STAmount
  | 0, a     => a
  | n + 1, a =>
    if a.mValue < cMinValue ∧ a.mOffset > cMinOffset then
      raise n { a with mValue := a.mValue * 10, mOffset := a.mOffset - 1 }
    else
      a

def lower : Nat → STAmount → Except String STAmount
  | 0, a     => .ok a
  | n + 1, a =>
    if a.mValue > cMaxValue then
      if a.mOffset ≥ cMaxOffset then
        .error "value overflow"
      else
        lower n { a with mValue := a.mValue / 10, mOffset := a.mOffset + 1 }
    else
      .ok a

def native (a : STAmount) : Except String STAmount := do
  let a := { a with mIsNative := true }
  if a.mValue = 0 ∨ a.mOffset ≤ -20 then
    .ok { a with mValue := 0, mOffset := 0, mIsNegative := false }
  else if a.mOffset > 17 then
    .error "Native currency amount out of range"
  else
    let a ← raiseNative 17 (lowerNative 20 a)
    if a.mValue > cMaxNativeN then
      .error "Native currency amount out of range"
    else
      .ok a

def issued (a : STAmount) : Except String STAmount := do
  let a := { a with mIsNative := false }
  if a.mValue = 0 then
    .ok { a with mOffset := -100, mIsNegative := false }
  else
    let a ← lower 20 (raise 20 a)
    if a.mOffset < cMinOffset ∨ a.mValue < cMinValue then
      .ok { a with mValue := 0, mIsNegative := false, mOffset := -100 }
    else if a.mOffset > cMaxOffset then
      .error "value overflow"
    else
      .ok a

end canonicalize

def canonicalize (a : STAmount) : Except String STAmount :=
  if a.isBIXRP then canonicalize.native a else canonicalize.issued a

-- The constructor from a `SerialIter`. The two highest bits say whether the amount is issued and
-- whether it is positive; in an issued amount, the eight bits that follow are the offset.
def ofSerialIter : SerialIter STAmount := fun s => do
  let (value, s) ← SerialIter.get64 s
  if value < cNotNative then
    if cPosNative ≤ value then
      .ok (⟨bixrpIssue, value - cPosNative, 0, true, false⟩, s)
    else if value = 0 then
      .error "negative zero is not canonical"
    else
      .ok (⟨bixrpIssue, value, 0, true, true⟩, s)
  else
    let (currency, s) ← SerialIter.getBitString 160 s
    if currency = 0 then
      .error "invalid native currency"
    else
      let (account, s) ← SerialIter.getBitString 160 s
      if account = 0 then
        .error "invalid native account"
      else
        return (← issued ⟨currency, account⟩ (value >>> 54).toNat (value % 2 ^ 54), s)
where
  issued (issue : Issue) (offset : Nat) (value : UInt64) : Except String STAmount :=
    if value ≠ 0 then
      let isNegative := offset / 256 % 2 = 0
      let offset : Int := offset % 256 - 97
      if value < cMinValue ∨ value > cMaxValue ∨ offset < cMinOffset ∨ offset > cMaxOffset then
        .error "invalid currency value"
      else
        canonicalize ⟨issue, value, offset, false, isNegative⟩
    else if offset ≠ 512 then
      .error "invalid currency value"
    else
      canonicalize ⟨issue, 0, 0, false, false⟩

def add (a : STAmount) : Blob :=
  if a.mIsNative then
    if a.mIsNegative then
      add64 a.mValue
    else
      add64 (a.mValue ||| cPosNative)
  else
    add64 (
      if a.mValue = 0 then
        cNotNative
      else if a.mIsNegative then
        a.mValue ||| (UInt64.ofInt (a.mOffset + 512 + 97) <<< 54)
      else
        a.mValue ||| (UInt64.ofInt (a.mOffset + 512 + 256 + 97) <<< 54)) ++
    addBitString a.mIssue.currency ++ addBitString a.mIssue.account

def signum (a : STAmount) : Int :=
  if a.mValue = 0 then 0 else if a.mIsNegative then -1 else 1

-- The drops of a native amount. The cast makes a number above the signed range negative.
def bixrp (a : STAmount) : Except String Int :=
  if a.mIsNative then
    let drops := a.mValue.toInt64.toInt
    .ok (if a.mIsNegative then -drops else drops)
  else
    .error "Cannot return non-native STAmount as BIXRPAmount"

def ofDrops (drops : Int) : STAmount where
  mIssue      := bixrpIssue
  mValue      := UInt64.ofNat drops.natAbs
  mOffset     := 0
  mIsNative   := true
  mIsNegative := drops < 0

def areComparable (v₁ v₂ : STAmount) : Bool :=
  v₁.mIsNative = v₂.mIsNative && v₁.mIssue.currency = v₂.mIssue.currency

def negated (a : STAmount) : STAmount :=
  if a.mValue = 0 then a else { a with mIsNegative := !a.mIsNegative }

namespace plus

-- The loops that bring two amounts to one offset.
def align : Nat → Int × Int → Int → Int × Int
  | 0, v, _      => v
  | n + 1, v, ov => if v.2 < ov then align n (v.1.tdiv 10, v.2 + 1) ov else v

-- The sum of issued amounts other than zero. An amount of a few units is taken for zero.
def issued (v₁ v₂ : STAmount) : Except String STAmount :=
  let signed (v : STAmount) : Int := if v.mIsNegative then -v.mValue.toNat else v.mValue.toNat
  let (vv₁, ov) := align 200 (signed v₁, v₁.mOffset) v₂.mOffset
  let (vv₂, _) := align 200 (signed v₂, v₂.mOffset) ov
  let fv := vv₁ + vv₂
  if -10 ≤ fv ∧ fv ≤ 10 then
    canonicalize ⟨v₁.mIssue, 0, 0, false, false⟩
  else
    canonicalize ⟨v₁.mIssue, UInt64.ofNat fv.natAbs, ov, false, fv < 0⟩

end plus

-- `operator+`. The result has the issue of the first amount.
def plus (v₁ v₂ : STAmount) : Except String STAmount :=
  if !areComparable v₁ v₂ then
    .error "Can't add amounts that are't comparable!"
  else if v₂.mValue = 0 then
    .ok v₁
  else if v₁.mValue = 0 then
    canonicalize ⟨v₁.mIssue, v₂.mValue, v₂.mOffset, false, v₂.mIsNegative⟩
  else if v₁.mIsNative then do
    return ofDrops ((← v₁.bixrp) + (← v₂.bixrp))
  else
    plus.issued v₁ v₂

def minus (v₁ v₂ : STAmount) : Except String STAmount :=
  plus v₁ (negated v₂)

def eq (lhs rhs : STAmount) : Bool :=
  areComparable lhs rhs && lhs.mIsNegative = rhs.mIsNegative && lhs.mOffset = rhs.mOffset &&
    lhs.mValue = rhs.mValue

-- `STAmount (issue)`: nothing of an issue.
def ofIssue (issue : Issue) : STAmount where
  mIssue      := issue
  mValue      := 0
  mOffset     := if issue.currency = 0 then 0 else -100
  mIsNative   := issue.currency = 0
  mIsNegative := false

def setIssuer (a : STAmount) (uIssuer : AccountID) : STAmount :=
  { a with
    mIssue    := { a.mIssue with account := uIssuer }
    mIsNative := a.mIssue.currency = 0 }

end STAmount

-- An account that nobody has, and a currency that nobody may use.
def noAccount   : AccountID := 1

-- The drops that there are at first.
def INITIAL_BIXRP : Int := 100000000000000000

def isLegalAmount (amount : Int) : Bool :=
  amount ≤ INITIAL_BIXRP
