import Bixd.Lib.Radix
import Bixd.Protocol.Serializer

-- The digest of the checksums.
class Sha256 where
  sha256 : Blob → Blob
  length_sha256 : ∀ b, (sha256 b).length = 32

inductive TokenType
  | None
  | NodePublic
  | NodePrivate
  | AccountID
  | AccountPublic
  | AccountSecret
  | FamilyGenerator
  | FamilySeed

def TokenType.code : TokenType → UInt8
  | None => 1
  | NodePublic => 28
  | NodePrivate => 32
  | AccountID => 0
  | AccountPublic => 35
  | AccountSecret => 34
  | FamilyGenerator => 41
  | FamilySeed => 33

namespace Base58

def alphabetForward : List Char :=
  ['r', 'p', 's', 'h', 'n', 'a', 'f', '3', '9', 'w', 'B', 'U', 'D', 'N', 'E', 'G', 'H', 'J', 'K',
   'L', 'M', '4', 'P', 'Q', 'R', 'S', 'T', '7', 'V', 'W', 'X', 'Y', 'Z', '2', 'b', 'c', 'd', 'e',
   'C', 'g', '6', '5', 'j', 'k', 'm', '8', 'o', 'F', 'q', 'i', '1', 't', 'u', 'v', 'A', 'x', 'y',
   'z']

def symbol (d : Nat) : Char :=
  alphabetForward.getD d 'r'

-- The table is read with characters of seven bits only.
def alphabetReverse (c : Char) : Option Nat :=
  if c ∈ alphabetForward then some (alphabetForward.idxOf c) else none

section

variable [Sha256]

open Sha256

-- The first bytes of the digest of the digest.
def checksum (message : Blob) : Blob :=
  (sha256 (sha256 message)).take 4

def encodeBase58 (message : Blob) (temp_size : Nat) : Except String (List Char) := do
  return (← Radix.convert 58 256 temp_size (message.map UInt8.toNat)).map symbol

-- Nothing is returned for a text that has other characters, or is too long.
def decodeBase58 (s : List Char) : Except String Blob :=
  match s.mapM alphabetReverse with
  | none    => .ok []
  | some ds => do
    let remain := (ds.dropWhile (· = 0)).length
    if remain > 64 then
      return []
    else
      return (← Radix.convert 256 58 (remain * 733 / 1000 + 1) ds).map UInt8.ofNat

def expand (type : TokenType) (token : Blob) : Blob :=
  type.code :: token ++ checksum (type.code :: token)

def encodeBase58Token (type : TokenType) (token : Blob) : Except String (List Char) :=
  let expanded := 1 + token.length + 4
  let bufsize := expanded * 3
  encodeBase58 (expand type token) (bufsize - expanded)

def decodeBase58Token (s : List Char) (type : TokenType) : Except String Blob := do
  let ret ← decodeBase58 s
  if ret.length < 6 then
    return []
  else if ret.head? ≠ some type.code then
    return []
  else if checksum (ret.take (ret.length - 4)) ≠ ret.drop (ret.length - 4) then
    return []
  else
    return (ret.drop 1).take (ret.length - 1 - 4)

end

end Base58
