import HybridChain.EnumerationOrder
import HybridChain.Validator
import HybridChain.PoolClone
import HybridChain.BlockPropagation
import HybridChain.StateVerification
import HybridChain.MempoolSync
import HybridChain.SlashedStakes
import HybridChain.StakeGossip
import HybridChain.Withdrawals
import HybridChain.Registration
import HybridChain.BlockHeights
import HybridChain.RawSocket
import HybridChain.Locking
import HybridChain.DeltaApplication
import HybridChain.ChunkTermination
import HybridChain.InclusionProofs
import HybridChain.TrieCache
import HybridChain.StakeWeights
import HybridChain.KeyEncoding
import HybridChain.NilPointers
import HybridChain.OutputStore
import HybridChain.SlashingTotals
import HybridChain.RateLimits
import HybridChain.StateVoting
import HybridChain.ValidatorProtocol
import HybridChain.HeaderText
import HybridChain.GasTracker
import HybridChain.State
import HybridChain.Issuance
import HybridChain.RewardDistribution
import HybridChain.OutputKeys
import HybridChain.BlockRanges
import HybridChain.TransactionHistory
import HybridChain.StateRollback
import HybridChain.ChainBatches
import HybridChain.PeerTable
import HybridChain.Subscriptions
import HybridChain.MultiSigWallet
