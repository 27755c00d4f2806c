import Bixd.Protocol.STLedgerEntry
import Bixd.SHAMap.Node

open Bytes

-- The kinds of entries that keys are calculated for.
inductive LedgerNameSpace
  | ACCOUNT
  | DIR_NODE
  | TRUST_LINE
  | OWNER_DIR
  | SKIP_LIST
  | AMENDMENTS
  | TICKET
  | SIGNER_LIST
  | BIXRP_PAYMENT_CHANNEL
  | DEPOSIT_PREAUTH
  | NEGATIVE_UNL
  deriving DecidableEq

namespace LedgerNameSpace

def code : LedgerNameSpace → Char
  | ACCOUNT => 'a'
  | DIR_NODE => 'd'
  | TRUST_LINE => 'r'
  | OWNER_DIR => 'O'
  | SKIP_LIST => 's'
  | AMENDMENTS => 'f'
  | TICKET => 'T'
  | SIGNER_LIST => 'S'
  | BIXRP_PAYMENT_CHANNEL => 'x'
  | DEPOSIT_PREAUTH => 'p'
  | NEGATIVE_UNL => 'N'

end LedgerNameSpace

-- A digest by which all entries have the key one. There can be one entry only.
@[reducible]
def oneDigest : Digest := ⟨fun _ => 1⟩

-- A digest that is different for different short inputs.
@[reducible]
def shortDigest : Digest := ⟨fun bs => BitVec.ofNat 256 (toNat (1 :: bs))⟩

namespace shortDigest

variable {bs bs' : Blob}

theorem toNat_sha512Half (h : bs.length ≤ 31) :
    (shortDigest.sha512Half bs).toNat = toNat (1 :: bs) := by
  refine Nat.mod_eq_of_lt ?_
  calc toNat (1 :: bs) < 256 ^ (bs.length + 1) := toNat_lt
    _ ≤ 256 ^ 32 := Nat.pow_le_pow_right (by omega) (by omega)
    _ = 2 ^ 256 := by norm_num

theorem eq_of_sha512Half (h : bs.length ≤ 31) (h' : bs'.length ≤ 31)
    (he : shortDigest.sha512Half bs = shortDigest.sha512Half bs') : bs = bs' := by
  have he := congrArg BitVec.toNat he
  rw [toNat_sha512Half h, toNat_sha512Half h'] at he
  exact eq_of_toNat_one_cons he

theorem sha512Half_ne_zero (h : bs.length ≤ 31) : shortDigest.sha512Half bs ≠ 0 := by
  intro h0
  have h0 := congrArg BitVec.toNat h0
  rw [toNat_sha512Half h] at h0
  have hp : 0 < 256 ^ bs.length := Nat.pow_pos (by omega)
  have hone : (1 : UInt8).toNat = 1 := rfl
  have hzero : (0 : UInt256).toNat = 0 := rfl
  rw [Bytes.toNat, hone, Nat.one_mul, hzero] at h0
  omega

end shortDigest

-- A digest of the page number, by which the pages of one directory have different keys.
@[reducible]
def pageDigest : Digest := ⟨fun bs => BitVec.ofNat 256 (2 + toNat (bs.drop 34))⟩

variable [Digest]

def indexHash (space : LedgerNameSpace) (args : Blob) : UInt256 :=
  Digest.sha512Half (Serializer.add16 (UInt16.ofNat space.code.toNat) ++ args)

namespace Keylet

open LedgerEntryType LedgerNameSpace Serializer

def account (id : AccountID) : Keylet :=
  ⟨ltACCOUNT_ROOT, indexHash ACCOUNT (addBitString id)⟩

def skip : Keylet :=
  ⟨ltLEDGER_HASHES, indexHash SKIP_LIST []⟩

-- The page for a ledger, which holds the hashes of 256 ledgers.
def skipPage (ledger : UInt32) : Keylet :=
  ⟨ltLEDGER_HASHES, indexHash SKIP_LIST (add32 (ledger >>> 16))⟩

def amendments : Keylet :=
  ⟨ltAMENDMENTS, indexHash AMENDMENTS []⟩

def negativeUNL : Keylet :=
  ⟨ltNEGATIVE_UNL, indexHash NEGATIVE_UNL []⟩

def ticket (id : AccountID) (ticketSeq : UInt32) : Keylet :=
  ⟨ltTICKET, indexHash TICKET (addBitString id ++ add32 ticketSeq)⟩

def signers (account : AccountID) : Keylet :=
  ⟨ltSIGNER_LIST, indexHash SIGNER_LIST (addBitString account ++ add32 0)⟩

-- The line between two accounts, the lower one first.
def line (id0 id1 : AccountID) (currency : Currency) : Keylet :=
  let low := if id1 < id0 then id1 else id0
  let high := if id1 < id0 then id0 else id1
  ⟨ltBIXD_STATE,
    indexHash TRUST_LINE (addBitString low ++ addBitString high ++ addBitString currency)⟩

def ownerDir (id : AccountID) : Keylet :=
  ⟨ltDIR_NODE, indexHash OWNER_DIR (addBitString id)⟩

def page (key : UInt256) (index : UInt64) : Keylet :=
  if index = 0 then
    ⟨ltDIR_NODE, key⟩
  else
    ⟨ltDIR_NODE, indexHash DIR_NODE (addBitString key ++ add64 index)⟩

@[simp]
theorem type_page (key : UInt256) (index : UInt64) : (page key index).type = ltDIR_NODE := by
  unfold page
  split <;> rfl

end Keylet
