import Bixd.Protocol.Serializer

namespace NodeStore

namespace readVarint

-- The loop that looks for the last byte, which is the first one without the highest bit.
def digits : Blob → Option Blob
  | []     => none
  | d :: p => if d &&& 0x80 ≠ 0 then (d :: ·) <$> digits p else some [d]

-- The loop over the digits, which starts at the last one. Overflow is taken for a number that does
-- not grow.
def loop : Blob → Option UInt64
  | []     => some 0
  | d :: p => do
    let t₀ ← loop p
    let t := t₀ * 127 + (d &&& 0x7f).toUInt64
    if t ≤ t₀ then none else some t

end readVarint

-- The number of bytes that are consumed, and the number.
def readVarint (buf : Blob) : Option (Nat × UInt64) := do
  let p ← readVarint.digits buf
  if p = [0] then
    some (1, 0)
  else
    return (p.length, ← readVarint.loop p)

def sizeVarint (v : Nat) : Nat :=
  if v / 127 ≠ 0 then sizeVarint (v / 127) + 1 else 1

def writeVarint (v : Nat) : Blob :=
  let d := UInt8.ofNat (v % 127)
  if v / 127 ≠ 0 then (d ||| 0x80) :: writeVarint (v / 127) else [d]

end NodeStore
