import Bixd.Ledger.View
import Bixd.Protocol.Indexes

-- The entries of accounts.

def lsfPasswordSpent  : UInt32 := 0x00010000
def lsfRequireDestTag : UInt32 := 0x00020000
def lsfRequireAuth    : UInt32 := 0x00040000
def lsfDisallowBIXRP  : UInt32 := 0x00080000
def lsfDisableMaster  : UInt32 := 0x00100000
def lsfNoFreeze       : UInt32 := 0x00200000
def lsfGlobalFreeze   : UInt32 := 0x00400000
def lsfDefaultBixd    : UInt32 := 0x00800000
def lsfDepositAuth    : UInt32 := 0x01000000

structure Fees where
  base      : Int
  units     : UInt32
  reserve   : Int
  increment : Int

-- The drops that an account has to keep.
def Fees.accountReserve (f : Fees) (ownerCount : Nat) : Int :=
  f.reserve + ownerCount * f.increment

def SLE.getFlags (sle : SLE) : UInt32 :=
  sle.getFieldU32 sfFlags

-- All flags of `f` are set.
def SLE.isFlag (sle : SLE) (f : UInt32) : Bool :=
  sle.getFlags &&& f = f

def SLE.setFlag (sle : SLE) (f : UInt32) : SLE :=
  sle.set sfFlags (.uint32 (sle.getFlags ||| f))

-- The owner count after an adjustment, which does not go beyond its range.
def confineOwnerCount (current : UInt32) (adjustment : Int) : UInt32 :=
  let adjusted := current + UInt32.ofInt adjustment
  if adjustment > 0 then
    if adjusted < current then 0xFFFFFFFF else adjusted
  else
    if adjusted > current then 0 else adjusted

def adjustOwnerCount (v : ApplyView) (sle : SLEPtr) (amount : Int) :
    Except String (SLEPtr × ApplyView) := do
  let adjusted := confineOwnerCount (sle.sle.getFieldU32 sfOwnerCount) amount
  let sle := sle.set sfOwnerCount (.uint32 adjusted)
  return (sle, ← v.update sle)

-- `adjustOwnerCount` of an account that is looked up, if there is one.
def adjustOwnerCountOf [Digest] (v : ApplyView) (id : AccountID) (amount : Int) :
    Except String ApplyView :=
  match v.peek (.account id) with
  | (none, v)     => .ok v
  | (some sle, v) => do
    let (_, v) ← adjustOwnerCount v sle amount
    return v
