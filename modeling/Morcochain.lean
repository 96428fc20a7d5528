import Morcochain.Grants
import Morcochain.Kernel
import Morcochain.Unpark
import Morcochain.Orphans
import Morcochain.OrphanIndex
import Morcochain.HeightLookup
import Morcochain.PartialMerkleTree
import Morcochain.UnitIsolation
import Morcochain.Disconnect
import Morcochain.Reorganisation
import Morcochain.Ledger
import Morcochain.Elected
import Morcochain.MempoolClosure
import Morcochain.MempoolIndex
import Morcochain.Parking
import Morcochain.SafeFee
import Morcochain.ProofOfStake
import Morcochain.ModifierRecords
import Morcochain.LazyIndex
import Morcochain.CoinsCaches
import Morcochain.VoteScript
import Morcochain.BlockStorage
import Morcochain.OrphanBlocks
import Morcochain.DuplicateStake
import Morcochain.BlockFees
import Morcochain.ProtocolVersion
import Morcochain.RateLimit
import Morcochain.CheckQueue
import Morcochain.UndoFormat
import Morcochain.Dividends
import Morcochain.WorkCheck
import Morcochain.Election
import Morcochain.VotedFees
import Morcochain.NextFees
import Morcochain.Premium
import Morcochain.LiquidityRuns
import Morcochain.StakeSelection
import Morcochain.Trust
import Morcochain.WalletTransactions
import Morcochain.CoinStake
import Morcochain.AddrMan
import Morcochain.Multisig
import Morcochain.ParkScripts
import Morcochain.Distribution
import Morcochain.TriedEviction
import Morcochain.MoneyText
import Morcochain.Base58
import Morcochain.LimitedMap
import Morcochain.DuplicateCleanUp
import Morcochain.Locator
import Morcochain.BloomFilter
import Morcochain.DiskIndex
import Morcochain.AddrFormat
import Morcochain.NetLink
import Morcochain.NewBlock
import Morcochain.SyncCheckpoint
