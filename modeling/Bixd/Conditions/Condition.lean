import Bixd.Protocol.Serializer

-- Conditions of escrows and their fulfillments, in the distinguished encoding of X.690.
namespace CryptoConditions

inductive Error
  | unsupported_type | unknown_type | fingerprint_size | incorrect_encoding | trailing_garbage
  | buffer_empty | buffer_overfull | buffer_underfull | malformed_encoding | short_preamble
  | unexpected_tag | long_tag | large_size | preimage_too_long
  deriving DecidableEq

inductive ConditionType
  | preimageSha256 | prefixSha256 | thresholdSha256 | rsaSha256 | ed25519Sha256
  deriving DecidableEq

namespace Der

structure Preamble where
  type   : UInt8
  tag    : UInt8
  length : Nat

def Preamble.isPrimitive (p : Preamble) : Bool :=
  p.type &&& 0x20 = 0

def Preamble.isConstructed (p : Preamble) : Bool :=
  !p.isPrimitive

def Preamble.isContextSpecific (p : Preamble) : Bool :=
  p.type &&& 0xC0 = 0x80

-- A long length has at most eight bytes, so that it does not overflow.
def parsePreamble : Blob → Except Error (Preamble × Blob)
  | b :: l :: s =>
    let cnt := (l &&& 0x7F).toNat
    if b &&& 0x1F = 0x1F then .error .long_tag
    else if l &&& 0x80 = 0 then .ok (⟨b &&& 0xE0, b &&& 0x1F, l.toNat⟩, s)
    else if cnt = 0 then .error .malformed_encoding
    else if cnt > 8 then .error .large_size
    else if cnt > s.length then .error .short_preamble
    else if Bytes.toNat (s.take cnt) = 0 then .error .malformed_encoding
    else .ok (⟨b &&& 0xE0, b &&& 0x1F, Bytes.toNat (s.take cnt)⟩, s.drop cnt)
  | _ => .error .short_preamble

def parseOctetString (s : Blob) (count : UInt32) : Except Error (Blob × Blob) :=
  if count.toNat > s.length then .error .buffer_underfull
  else if count > 65535 then .error .large_size
  else .ok (s.take count.toNat, s.drop count.toNat)

-- For `std::uint32_t`, which may have a leading zero.
def parseInteger (s : Blob) (count : Nat) : Except Error (UInt32 × Blob) :=
  match s with
  | []     => .error .malformed_encoding
  | b :: _ =>
    if count > s.length then .error .buffer_underfull
    else if count > 5 then .error .large_size
    else if b &&& 0x80 ≠ 0 then .error .malformed_encoding
    else if count = 5 ∧ b ≠ 0 then .error .malformed_encoding
    else .ok (UInt32.ofNat (Bytes.toNat (s.take count)), s.drop count)

end Der

open Der

structure Condition where
  type : ConditionType
  cost : UInt32
  fingerprint : Blob
  subtypes : List ConditionType := []
  deriving DecidableEq

def fingerprintSize : Nat := 32

def maxPreimageLength : Nat := 128

def maxSerializedCondition : Nat := 128

def maxSerializedFulfillment : Nat := 256

def loadSimpleSha256 (type : ConditionType) (s : Blob) : Except Error Condition := do
  let (p, s) ← parsePreamble s
  if !p.isPrimitive || !p.isContextSpecific then .error .incorrect_encoding
  else if p.tag ≠ 0 then .error .unexpected_tag
  else if p.length ≠ fingerprintSize then .error .fingerprint_size
  else
    let (b, s) ← parseOctetString s (UInt32.ofNat p.length)
    let (p, s) ← parsePreamble s
    if !p.isPrimitive || !p.isContextSpecific then .error .malformed_encoding
    else if p.tag ≠ 1 then .error .unexpected_tag
    else
      let (cost, s) ← parseInteger s p.length
      if s ≠ [] then .error .trailing_garbage
      else if type = .preimageSha256 ∧ cost.toNat > maxPreimageLength then .error .preimage_too_long
      else .ok { type, cost, fingerprint := b }

-- The error of a condition that does not load is replaced when there are bytes, which then were
-- not consumed.
def Condition.deserialize (s : Blob) : Except Error Condition :=
  if s = [] then .error .buffer_empty
  else do
    let (p, s) ← parsePreamble s
    if !p.isConstructed || !p.isContextSpecific then .error .malformed_encoding
    else if p.length > s.length then .error .buffer_underfull
    else if s.length > maxSerializedCondition then .error .large_size
    else if p.tag = 0 then
      match loadSimpleSha256 .preimageSha256 (s.take p.length) with
      | .ok c    => if s.drop p.length ≠ [] then .error .trailing_garbage else .ok c
      | .error e => if s ≠ [] then .error .trailing_garbage else .error e
    else if p.tag ≤ 4 then .error .unsupported_type
    else .error .unknown_type

-- The only type of fulfillment that is supported.
structure PreimageSha256 where
  payload : Blob
  deriving DecidableEq

def PreimageSha256.deserialize (s : Blob) : Except Error PreimageSha256 := do
  let (p, s) ← parsePreamble s
  if !p.isPrimitive || !p.isContextSpecific then .error .incorrect_encoding
  else if p.tag ≠ 0 then .error .unexpected_tag
  else if s.length ≠ p.length then .error .trailing_garbage
  else if s.length > maxPreimageLength then .error .preimage_too_long
  else
    let (b, _) ← parseOctetString s (UInt32.ofNat p.length)
    return ⟨b⟩

def Fulfillment.deserialize (s : Blob) : Except Error PreimageSha256 :=
  if s = [] then .error .buffer_empty
  else do
    let (p, s) ← parsePreamble s
    if !p.isConstructed || !p.isContextSpecific then .error .malformed_encoding
    else if p.length > s.length then .error .buffer_underfull
    else if p.length < s.length then .error .buffer_overfull
    else if p.length > maxSerializedFulfillment then .error .large_size
    else if p.tag = 0 then do
      let f ← PreimageSha256.deserialize (s.take p.length)
      if s.drop p.length ≠ [] then .error .trailing_garbage else return f
    else if p.tag ≤ 4 then .error .unsupported_type
    else .error .unknown_type

end CryptoConditions
