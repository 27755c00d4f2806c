import Bixd.Conditions.Theorems.Canonical
import Bixd.NodeStore.Theorems.Varint
import Bixd.SHAMap.Theorems.Snapshot
import Bixd.SHAMap.Theorems.OrderedMap
import Bixd.Consensus.LedgerTrie.Theorems.Preferred
import Bixd.Consensus.Validations.Theorems.Live
import Bixd.Consensus.Consensus.Theorems.Tracking
import Bixd.Protocol.Theorems.Fuel
import Bixd.Protocol.Theorems.Reparse
import Bixd.Protocol.Theorems.Tokens
import Bixd.SHAMap.Sync.Theorems.Runs
import Bixd.Ledger.Theorems.SkipList
import Bixd.Ledger.Theorems.Replay
import Bixd.Misc.AmendmentTable.Theorems.Votes
import Bixd.Misc.AmendmentTable.Theorems.Runs
import Bixd.Ledger.Theorems.NegativeUNL
import Bixd.Misc.Theorems.Manifest
import Bixd.Ledger.Directory.Theorems.Empty
import Bixd.Core.Theorems.JobQueue
import Bixd.PeerFinder.Theorems.Books
import Bixd.PeerFinder.Theorems.IpLimit
import Bixd.Resource.Theorems.Runs
import Bixd.Overlay.Slot.Theorems.Runs
import Bixd.Ledger.Theorems.TrustLine
import Bixd.Ledger.Theorems.Credit
import Bixd.Tx.Theorems.MultiSign
import Bixd.Tx.Theorems.InvariantCheck
import Bixd.Misc.TxQ.Theorems.FeeMetrics
import Bixd.Basics.Theorems.TaggedCache
import Bixd.Paths.Theorems.StrandFlow
import Bixd.Paths.Theorems.ToStrand
import Bixd.Tx.Theorems.CreateOffer
import Bixd.Misc.TxQ.Theorems.Accept
import Bixd.Misc.TxQ.Theorems.EndAccount
import Bixd.Misc.Theorems.NegativeUNLVote
import Bixd.Misc.Theorems.LoadFeeTrack
import Bixd.Consensus.RCLValidations.Mismatch
import Bixd.Basics.Theorems.RangeSet
import Bixd.Ledger.Theorems.LocalTxs
