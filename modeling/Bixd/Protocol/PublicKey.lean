import Bixd.Protocol.STAmount

-- The key is of a known type.
def publicKeyType (slice : Blob) : Bool :=
  slice.length = 33 ∧ (slice.head? = some 0xED ∨ slice.head? = some 0x02 ∨ slice.head? = some 0x03)

-- The hash that the account of a public key is calculated with.
class Ripesha where
  ripesha : Blob → AccountID

def calcAccountID [Ripesha] (pk : Blob) : AccountID :=
  Ripesha.ripesha pk
