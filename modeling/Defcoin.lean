import Defcoin.Consensus.MoneySupply
import Defcoin.Mweb.PmmrRefinement
import Defcoin.Mweb.LeafSetRefinement
import Defcoin.Mweb.AtomicApply
import Defcoin.Consensus.VersionBitsState
import Defcoin.Addrman.Gossip
import Defcoin.Addrman.Reachable
import Defcoin.Merkle.PartialTree
import Defcoin.Pow
import Defcoin.Relay.OrphanResolution
import Defcoin.Relay.RejectFilter
import Defcoin.Mempool.AncestorLimits
import Defcoin.Mempool.Submission
import Defcoin.Relay.TransactionRoundTrip
import Defcoin.Address.KeyIO
import Defcoin.Relay.CompactReconstruction
import Defcoin.Consensus.BlockIndex
import Defcoin.Net.RoundTrip
import Defcoin.Script.Multisig
import Defcoin.Consensus.SequenceLocks
import Defcoin.Mweb.Regrouping
import Defcoin.Scheduler
import Defcoin.TimeData
import Defcoin.Script.ConditionStack
