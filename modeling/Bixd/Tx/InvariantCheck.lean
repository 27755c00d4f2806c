import Bixd.Protocol.STLedgerEntry
import Bixd.Protocol.TER

-- The checks that look at each entry that a transaction changed.

namespace InvariantCheck

structure Visit where
  isDelete : Bool
  before   : Option SLE
  after    : Option SLE

-- The entry of a type is bad before or after.
def Visit.isBad (v : Visit) (t : LedgerEntryType) (bad : SLE → Bool) : Bool :=
  v.before.any (fun sle => sle.type = t && bad sle) ||
  v.after.any (fun sle => sle.type = t && bad sle)

def BIXRPBalanceChecks.isBad (balance : STAmount) : Bool :=
  match balance.bixrp with
  | .error _  => true
  | .ok drops => INITIAL_BIXRP < drops || drops < 0

def NoBadOffers.isBad (pays gets : STAmount) : Bool :=
  pays.signum < 0 || gets.signum < 0 || (pays.mIsNative && gets.mIsNative)

def NoZeroEscrow.isBad (amount : STAmount) : Bool :=
  match amount.bixrp with
  | .error _  => true
  | .ok drops => drops ≤ 0 || INITIAL_BIXRP ≤ drops

def LedgerEntryTypesMatch.isValid : LedgerEntryType → Bool
  | .ltACCOUNT_ROOT | .ltDIR_NODE | .ltBIXD_STATE | .ltTICKET | .ltSIGNER_LIST | .ltOFFER
  | .ltLEDGER_HASHES | .ltAMENDMENTS | .ltFEE_SETTINGS | .ltESCROW | .ltPAYCHAN | .ltCHECK
  | .ltDEPOSIT_PREAUTH | .ltNEGATIVE_UNL => true
  | _ => false

def NoBIXRPTrustLines.isBad (line : SLE) : Bool :=
  (line.getFieldAmount sfLowLimit).mIssue.eq bixrpIssue ||
  (line.getFieldAmount sfHighLimit).mIssue.eq bixrpIssue

-- What the checks remember.
structure Checkers where
  badBalance : Bool := false
  badOffer : Bool := false
  badEscrow : Bool := false
  typeMismatch : Bool := false
  invalidTypeAdded : Bool := false
  bixrpTrustLine : Bool := false

namespace Checkers

def mismatch (v : Visit) : Bool :=
  v.before.any fun before => v.after.any fun after => before.type ≠ after.type

def invalid (v : Visit) : Bool :=
  v.after.any fun after => !LedgerEntryTypesMatch.isValid after.type

def visitEntry (c : Checkers) (v : Visit) : Checkers where
  badBalance := c.badBalance ||
    v.isBad .ltACCOUNT_ROOT fun sle => BIXRPBalanceChecks.isBad (sle.getFieldAmount sfBalance)
  badOffer := c.badOffer || v.isBad .ltOFFER fun sle =>
    NoBadOffers.isBad (sle.getFieldAmount sfTakerPays) (sle.getFieldAmount sfTakerGets)
  badEscrow := c.badEscrow ||
    v.isBad .ltESCROW fun sle => NoZeroEscrow.isBad (sle.getFieldAmount sfAmount)
  typeMismatch     := c.typeMismatch || mismatch v
  invalidTypeAdded := c.invalidTypeAdded || invalid v
  -- The flag is set anew for each trust line.
  bixrpTrustLine :=
    match v.after with
    | none     => c.bixrpTrustLine
    | some sle => if sle.type = .ltBIXD_STATE then NoBIXRPTrustLines.isBad sle else c.bixrpTrustLine

def visit (es : List Visit) : Checkers :=
  es.foldl visitEntry {}

end Checkers

inductive Check
  | BIXRPBalanceChecks
  | NoBadOffers
  | NoZeroEscrow
  | LedgerEntryTypesMatch
  | NoBIXRPTrustLines

namespace Check

def finalize : Check → Checkers → Bool
  | BIXRPBalanceChecks, c => !c.badBalance
  | NoBadOffers, c => !c.badOffer
  | NoZeroEscrow, c => !c.badEscrow
  | LedgerEntryTypesMatch, c => !c.typeMismatch && !c.invalidTypeAdded
  | NoBIXRPTrustLines, c => !c.bixrpTrustLine

end Check

def failInvariantCheck (result : TER) : TER :=
  if result = tecINVARIANT_FAILED ∨ result = tefINVARIANT_FAILED then tefINVARIANT_FAILED
  else tecINVARIANT_FAILED

-- `others` tells whether the checks pass that are not modelled.
def checkInvariants (others : Bool) (result : TER) (es : List Visit) : TER :=
  let c := Checkers.visit es
  if Check.BIXRPBalanceChecks.finalize c && Check.NoBadOffers.finalize c &&
      Check.NoZeroEscrow.finalize c && Check.LedgerEntryTypesMatch.finalize c &&
      Check.NoBIXRPTrustLines.finalize c && others then
    result
  else
    failInvariantCheck result

end InvariantCheck
