import Bixd.Lib.Bytes

open Bytes UInt8

-- The data of a `Serializer`, and what a `SerialIter` has not read yet.
abbrev Blob := List UInt8

namespace Serializer

def add8 (i : UInt8) : Blob :=
  [i]

def add16 (i : UInt16) : Blob :=
  ofNat 2 i.toNat

def add32 (i : UInt32) : Blob :=
  ofNat 4 i.toNat

def add64 (i : UInt64) : Blob :=
  ofNat 8 i.toNat

def addBitString {n : Nat} (v : BitVec n) : Blob :=
  ofNat (n / 8) v.toNat

def addFieldID (type name : Nat) : Blob :=
  if type < 16 then
    if name < 16 then
      [ofNat ((type <<< 4) ||| name)]
    else
      [ofNat (type <<< 4), ofNat name]
  else if name < 16 then
    [ofNat name, ofNat type]
  else
    [0, ofNat type, ofNat name]

def addEncoded (length : Nat) : Except String Blob :=
  if length ≤ 192 then
    .ok [ofNat length]
  else if length ≤ 12480 then
    let length := length - 193
    .ok [(193 : UInt8) + UInt8.ofNat (length >>> 8), UInt8.ofNat (length % 256)]
  else if length ≤ 918744 then
    let length := length - 12481
    .ok [(241 : UInt8) + UInt8.ofNat (length >>> 16), UInt8.ofNat ((length >>> 8) % 256),
      ofNat (length % 256)]
  else
    .error "lenlen"

def addVL (data : Blob) : Except String Blob := do
  let encoded ← addEncoded data.length
  return encoded ++ data

def decodeLengthLength (b1 : UInt8) : Except String Nat :=
  if b1 ≤ 192 then
    .ok 1
  else if b1 ≤ 240 then
    .ok 2
  else if b1 ≤ 254 then
    .ok 3
  else
    .error "b1>254"

-- The three overloads of `decodeVLLength`.
def decodeVLLength₁ (b1 : UInt8) : Except String Nat :=
  if b1 > 254 then
    .error "b1>254"
  else
    .ok b1.toNat

def decodeVLLength₂ (b1 b2 : UInt8) : Except String Nat :=
  if b1 < 193 then
    .error "b1<193"
  else if b1 > 240 then
    .error "b1>240"
  else
    .ok (193 + (b1.toNat - 193) * 256 + b2.toNat)

def decodeVLLength₃ (b1 b2 b3 : UInt8) : Except String Nat :=
  if b1 < 241 then
    .error "b1<241"
  else if b1 > 254 then
    .error "b1>254"
  else
    .ok (12481 + (b1.toNat - 241) * 65536 + b2.toNat * 256 + b3.toNat)

end Serializer

-- A read from a `SerialIter` throws, or returns a value and what is left to be read.
abbrev SerialIter (α : Type) := Blob → Except String (α × Blob)

namespace SerialIter

def get (size : Nat) (what : String) : SerialIter Blob := fun s =>
  if s.length < size then
    .error ("invalid SerialIter " ++ what)
  else
    .ok (s.take size, s.drop size)

def get8 : SerialIter UInt8 := fun s => do
  let (b, s) ← get 1 "get8" s
  return (ofNat (toNat b), s)

def get16 : SerialIter UInt16 := fun s => do
  let (b, s) ← get 2 "get16" s
  return (UInt16.ofNat (toNat b), s)

def get32 : SerialIter UInt32 := fun s => do
  let (b, s) ← get 4 "get32" s
  return (UInt32.ofNat (toNat b), s)

def get64 : SerialIter UInt64 := fun s => do
  let (b, s) ← get 8 "get64" s
  return (UInt64.ofNat (toNat b), s)

def getBitString (n : Nat) : SerialIter (BitVec n) := fun s => do
  let (b, s) ← get (n / 8) "getBitString" s
  return (BitVec.ofNat n (toNat b), s)

def getRaw (size : Nat) : SerialIter Blob :=
  get size "getRaw"

def getFieldID : SerialIter (Nat × Nat) := fun s => do
  let (b, s) ← get8 s
  let (type, s) ← uncommon "type" (b.toNat >>> 4) s
  let (name, s) ← uncommon "name" (b.toNat % 16) s
  return ((type, name), s)
where
  -- Half a byte that is zero stands for a number that does not fit into it and follows.
  uncommon (what : String) (half : Nat) : SerialIter Nat := fun s =>
    if half = 0 then do
      let (b, s) ← get8 s
      if b < 16 then
        .error ("gFID: uncommon " ++ what ++ " out of range " ++ toString b.toNat)
      else
        .ok (b.toNat, s)
    else
      .ok (half, s)

def getVLDataLength : SerialIter Nat := fun s => do
  let (b1, s) ← get8 s
  match ← Serializer.decodeLengthLength b1 with
  | 1 => return (← Serializer.decodeVLLength₁ b1, s)
  | 2 =>
    let (b2, s) ← get8 s
    return (← Serializer.decodeVLLength₂ b1 b2, s)
  | _ =>
    let (b2, s) ← get8 s
    let (b3, s) ← get8 s
    return (← Serializer.decodeVLLength₃ b1 b2 b3, s)

def getVL : SerialIter Blob := fun s => do
  let (length, s) ← getVLDataLength s
  getRaw length s

end SerialIter
