import Podseq.Lib.Runs
import Podseq.Lib.Fallible
import Podseq.Lib.Hex
import Podseq.Lib.NatMap
import Podseq.Lib.Ledger
import Podseq.Lib.FixedBytes
import Podseq.Lib.SortedFilter
import Podseq.Lib.LittleEndian
import Podseq.Lib.RenameFile
import Podseq.Lib.ParentForest
import Podseq.Lib.PrefixCode
import Podseq.Lib.StoppingLoop
import Podseq.Lib.LoopRounds
import Podseq.Lib.Bcs
import Podseq.Lib.BigEndian
import Podseq.Lib.BcsCanonical
import Podseq.Move.Basic
import Podseq.Move.Rotation
import Podseq.Move.Inbox
import Podseq.Move.AppendOnly
import Podseq.Move.InboxDeadlines
import Podseq.Move.InboxHistory
import Podseq.Move.WindowNotice
import Podseq.Move.Settlement
import Podseq.Move.Bridge
import Podseq.Move.Package
import Podseq.Move.Custody
import Podseq.Move.RotationHistory
import Podseq.Move.RotationGrace
import Podseq.Move.UpgradeCustody
import Podseq.Move.PeerBook
import Podseq.Move.OpsCaps
import Podseq.Solidity.Bridge
import Podseq.Solidity.TokenAccounting
import Podseq.Solidity.BridgeFactory
import Podseq.Solidity.Chain
import Podseq.Relay.MintOrder
import Podseq.Node.InboxStore
import Podseq.Node.InboxTracker
import Podseq.Node.SettleCursor
import Podseq.Node.CoinType
import Podseq.Node.TokenRegistry
import Podseq.Node.BridgeRelayer
import Podseq.Node.RelayerInvariant
import Podseq.Node.TokenPairs
import Podseq.Node.CanonicalToken
import Podseq.Node.BurnsServed
import Podseq.Move.VaultLedger
import Podseq.Node.ChainState
import Podseq.Node.PendingStore
import Podseq.Node.JsonStores
import Podseq.Node.Block
import Podseq.Node.EngineApi
import Podseq.Node.FullNode
import Podseq.Node.FullNodeFrontier
import Podseq.Node.FullNodeVerdicts
import Podseq.Node.SyncPass
import Podseq.Node.SignedHeader
import Podseq.Node.BlockMessage
import Podseq.Node.SyncLoop
import Podseq.Node.Sequencer
import Podseq.Node.SequencerSteps
import Podseq.Node.FinalizerQueue
import Podseq.Node.BlockPerHeight
import Podseq.Node.RelayWire
import Podseq.Node.Resettlement
import Podseq.Node.ForkchoiceOrder
import Podseq.Node.SequencerChain
import Podseq.Node.InclusionTruth
import Podseq.Node.PrunedSettled
import Podseq.Node.SpelledTokens
import Podseq.Node.DepositCursor
import Podseq.Node.BackedSupply
import Podseq.Node.DeadlineMonitor
import Podseq.Node.KeyRotation
import Podseq.Node.RotationPlans
import Podseq.Node.SignerKey
import Podseq.Node.KeyHandover
import Podseq.Node.TrackerPasses
import Podseq.Node.ObservedBlock
import Podseq.Node.PollPass
import Podseq.Node.PeerBookReader
import Podseq.Node.HaltGate
import Podseq.Node.ForcedInclusion
import Podseq.Node.ForcedSteps
import Podseq.Node.HaltRecovery
import Podseq.Node.BlockTimes
import Podseq.Move.CustodyHistory
import Podseq.Node.FailedForkchoice
import Podseq.Node.HeadHeight
import Podseq.Node.RpcLog
import Podseq.Node.AbiString
import Podseq.Node.WireBatch
import Podseq.Node.WindowRead
import Podseq.Node.MoveTypeName
import Podseq.Node.CreationScan
import Podseq.Node.CommitteeAdmission
import Podseq.Node.RetireQuiet
import Podseq.Solidity.CanonicalMapping
import Podseq.Node.FlushTimer
import Podseq.Node.BatchBooks
import Podseq.Node.SettleTransaction
import Podseq.Node.SettledBlobs
import Podseq.Node.LedgerReads
import Podseq.Node.GenuineBlocks
import Podseq.Node.FullNodeRuns
import Podseq.Node.SettledSync
import Podseq.Node.UnsettledBlocks
import Podseq.Node.WithdrawalPass
import Podseq.Lib.Submission
import Podseq.Lib.ObjectStore
import Podseq.Node.CapMigration
import Podseq.Lib.HexNumber
import Podseq.Lib.Lockstep
import Podseq.Node.VaultReads
import Podseq.Node.L2Rpc
import Podseq.Node.WireSteps
