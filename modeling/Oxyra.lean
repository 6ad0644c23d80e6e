import Oxyra.Theorems.Supply
import Oxyra.Theorems.Weight
import Oxyra.Theorems.Maturity
import Oxyra.Theorems.Checkpoint
import Oxyra.Theorems.Genesis
import Oxyra.Theorems.Refusal
import Oxyra.Theorems.Schedule
import Oxyra.Theorems.Rings
import Oxyra.Theorems.ReservedRange
import Oxyra.Theorems.ConnectionMap
import Oxyra.Theorems.TreeHash
import Oxyra.Theorems.TxExtra
import Oxyra.Theorems.Difficulty
import Oxyra.Theorems.TemplateConflicts
import Oxyra.Theorems.TemplateWeight
import Oxyra.Theorems.AltRows
import Oxyra.Theorems.Seed
import Oxyra.Theorems.Fee
import Oxyra.Theorems.PoolPrune
import Oxyra.Theorems.PoolLists
import Oxyra.Theorems.Canonical
import Oxyra.Theorems.DownloadIndex
import Oxyra.Theorems.PeerMerge
import Oxyra.Theorems.Detach
import Oxyra.Theorems.Address
import Oxyra.Theorems.Levin
import Oxyra.Theorems.KeyImages
import Oxyra.Theorems.Locator
import Oxyra.Theorems.WeightGrowth
import Oxyra.Theorems.RctVerification
import Oxyra.Theorems.ScanTable
import Oxyra.Theorems.Retarget
import Oxyra.Theorems.AdjustedTime
import Oxyra.Theorems.Pruning
import Oxyra.Theorems.VoteWindow
import Oxyra.Theorems.BlockHashes
import Oxyra.Theorems.LongTermWeights
import Oxyra.Theorems.RpcPayment
import Oxyra.Theorems.TxWeight
import Oxyra.Theorems.Varint
import Oxyra.Theorems.HashTemplate
import Oxyra.Theorems.Hex
import Oxyra.Theorems.Decompose
import Oxyra.Theorems.RoundMoney
import Oxyra.Theorems.AmountText
import Oxyra.Theorems.SeedLength
import Oxyra.Theorems.MergeMining
import Oxyra.Theorems.NetBuffer
import Oxyra.Theorems.Permutation
import Oxyra.Theorems.Combinator
