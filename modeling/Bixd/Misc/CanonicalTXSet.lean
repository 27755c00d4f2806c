import Bixd.Lib.OrderedMap
import Bixd.Protocol.SeqProxy

-- Transactions in the order they are applied in. Those of an account are in the order of their
-- `SeqProxy`.

structure CanonicalTXSet.Key where
  account_  : UInt256
  seqProxy_ : SeqProxy
  txId_     : UInt256
  deriving DecidableEq

namespace CanonicalTXSet.Key

-- The account comes first, then the sequence and then the identifier.
def rank (k : Key) : UInt256 ×ₗ SeqProxy ×ₗ UInt256 :=
  toLex (k.account_, toLex (k.seqProxy_, k.txId_))

theorem rank_injective : Function.Injective rank := by
  rintro ⟨a, s, t⟩ ⟨a', s', t'⟩ h
  cases h
  rfl

instance : LinearOrder Key :=
  LinearOrder.lift' rank rank_injective

end CanonicalTXSet.Key

-- The key of an account, which is salted so that low account numbers are of no use.
def CanonicalTXSet.accountKey (salt_ : UInt256) (account : AccountID) : UInt256 :=
  BitVec.setWidth 256 account <<< 96 ^^^ salt_

def CanonicalTXSet.key (salt_ : UInt256) (tx : STTx) : CanonicalTXSet.Key :=
  ⟨accountKey salt_ (tx.getAccountID sfAccount), tx.getSeqProxy, tx.txID⟩

-- A transaction is stored under its own key.
structure CanonicalTXSet where
  salt_ : UInt256
  map_  : OrderedMap CanonicalTXSet.Key STTx
  keyed : ∀ k tx, map_.find? k = some tx → k = CanonicalTXSet.key salt_ tx

namespace CanonicalTXSet

def make (saltHash : UInt256) : CanonicalTXSet :=
  ⟨saltHash, ∅, fun _ _ h => nomatch h⟩

def insert (s : CanonicalTXSet) (txn : STTx) : CanonicalTXSet :=
  let k := key s.salt_ txn
  if hk : (s.map_.find? k).isSome then
    s
  else
    { s with
      map_  := s.map_.insert k txn
      keyed := fun k' tx h => by
        rw [OrderedMap.find?_insert] at h
        split at h
        case isTrue hk => cases h; exact hk
        case isFalse => exact s.keyed k' tx h }

def erase (s : CanonicalTXSet) (k : Key) : CanonicalTXSet :=
  { s with
    map_  := s.map_.erase k
    keyed := fun k' tx h => by
      rw [OrderedMap.find?_erase] at h
      split at h
      case isTrue => cases h
      case isFalse => exact s.keyed k' tx h }

-- The transactions in their order.
def txns (s : CanonicalTXSet) : List STTx :=
  s.map_.toList.map Prod.snd

end CanonicalTXSet
