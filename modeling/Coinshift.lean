import Coinshift.Checked
import Coinshift.Types
import Coinshift.Swap
import Coinshift.Transaction
import Coinshift.Accumulator
import Coinshift.State
import Coinshift.SwapRules
import Coinshift.Authorization
import Coinshift.Block
import Coinshift.TwoWayPegData
import Coinshift.BlockSource
import Coinshift.Node
import Coinshift.Reference
import Coinshift.SwapEffects
import Coinshift.Keyed
import Coinshift.LedgerOps
import Coinshift.BlockEffects
import Coinshift.SwapRulesSource
import Coinshift.ConnectTotal
import Coinshift.EscrowSpend
import Coinshift.SpendAuthority
import Coinshift.ClaimPayout
import Coinshift.PegEffects
import Coinshift.StepEffects
import Coinshift.FirstAccept
import Coinshift.Maintenance
import Coinshift.ConsensusView
import Coinshift.LocalObservation
import Coinshift.ReservationPaths
import Coinshift.LedgerRollback
import Coinshift.LockRollback
import Coinshift.SwapLifecycle
import Coinshift.Delimited
import Coinshift.TransactionEncoding
import Coinshift.PegOps
import Coinshift.Provenance
import Coinshift.EscrowSolvency
import Coinshift.BundlePayout
import Coinshift.BundleReports
import Coinshift.AccumulatorMirror
import Coinshift.CreatedOnce
import Coinshift.ValueConservation
import Coinshift.ScanEffects
import Coinshift.TxidIndex
import Coinshift.SwapStates
import Coinshift.Archive
import Coinshift.SideTips
import Coinshift.ArchiveTrees
import Coinshift.BmmResults
import Coinshift.ArchiveRuns
import Coinshift.ForkChoice
import Coinshift.ListedTips
import Coinshift.SideTipRuns
import Coinshift.Rescan
import Coinshift.MemPool
import Coinshift.NetTask
import Coinshift.Reorg
import Coinshift.PlainBlock
import Coinshift.CanonicalEncoding
import Coinshift.ArrivalOrder
import Coinshift.BestTip
import Coinshift.PeerTips
import Coinshift.Invalidation
import Coinshift.HeaderStore
import Coinshift.HeaderSync
import Coinshift.UsableTips
import Coinshift.BundleOrder
import Coinshift.TxidForms
import Coinshift.ConfirmationCheck
import Coinshift.MempoolRules
import Coinshift.IndexReplay
import Coinshift.Submission
import Coinshift.BlockTemplate
import Coinshift.TemplateParent
import Coinshift.LedgerChanges
import Coinshift.Wallet
import Coinshift.PoolReturn
import Coinshift.MainchainSync
import Coinshift.CoinSelection
import Coinshift.DiffCounts
import Coinshift.MinerDiff
import Coinshift.BundleContent
import Coinshift.AncestorLookup
import Coinshift.ChainIteration
import Coinshift.MissingBodies
import Coinshift.SyncReach
import Coinshift.BodyUndo
import Coinshift.PendingBundle
import Coinshift.BundleBook
import Coinshift.BodyRequests
import Coinshift.NetLoop
import Coinshift.OutPointKey
import Coinshift.SwapIds
import Coinshift.DepositAddress
import Coinshift.RecipientIndex
import Coinshift.WalletAddresses
import Coinshift.Panics
import Coinshift.WalletBuilders
import Coinshift.ActiveChain
import Coinshift.PegBlocks
import Coinshift.ConnectedBodies
import Coinshift.PegMarks
import Coinshift.EventBlocks
import Coinshift.PegSources
import Coinshift.VerifiedTips
import Coinshift.PegEffectRuns
import Coinshift.RebuiltData
import Coinshift.MainchainTask
import Coinshift.PeerRequests
import Coinshift.CompleteTree
import Coinshift.MerkleRoot
import Coinshift.BlockService
import Coinshift.DescendantTips
import Coinshift.Flooding
import Coinshift.Gossip
import Coinshift.GapScan
import Coinshift.WalletRecovery
import Coinshift.SwapDeadlines
