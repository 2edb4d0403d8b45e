import CosiCoin.AgreedBlockApplication
import CosiCoin.DoubleSpendControl
import CosiCoin.WalletAuthentication
import CosiCoin.WireFormat
import CosiCoin.BrachaNode
import CosiCoin.BrachaNodeSteps
import CosiCoin.ImpersonationControl
import CosiCoin.NodeHistory
import CosiCoin.CausalLog
import CosiCoin.AsyncBroadcast
import CosiCoin.ReadyProvenance
import CosiCoin.ProposalIntegrity
import CosiCoin.BrachaAgreement
import CosiCoin.ContentAgreement
import CosiCoin.FifoBroadcast
import CosiCoin.DeliveryControl
import CosiCoin.KeyChain
import CosiCoin.SingleBlockTask
import CosiCoin.SingleProposal
import CosiCoin.CrashTolerance
import CosiCoin.VoteStuffing
import CosiCoin.BlockProposalControl
import CosiCoin.BlockAdmission
import CosiCoin.LedgerViews
import CosiCoin.AcceptedBlockStorage
import CosiCoin.AcceptedKeys
import CosiCoin.StoredBodies
import CosiCoin.KeyChainRuns
import CosiCoin.SignatureEvidence
import CosiCoin.JsonReading
import CosiCoin.WalletTransactions
import CosiCoin.BlockText
import CosiCoin.JsonText
import CosiCoin.BlockRestoration
import CosiCoin.BlockDatabase
import CosiCoin.DatabaseRestoration
import CosiCoin.NodeLifetime
import CosiCoin.TransferBalance
import CosiCoin.ReadyDiscipline
import CosiCoin.VotesPerValidator
import CosiCoin.EchoQuorums
import CosiCoin.WireRoundTrip
import CosiCoin.CodecDomain
import CosiCoin.AgreedBlockNames
import CosiCoin.RoundFrame
import CosiCoin.VerificationCache
import CosiCoin.EchoPerBatch
import CosiCoin.MessageQueues
import CosiCoin.LinkOrder
import CosiCoin.OrderedSets
import CosiCoin.BlockVerification
import CosiCoin.PoolSelection
import CosiCoin.MerkleTrees
import CosiCoin.MerkleRoots
import CosiCoin.BlockIdentity
import CosiCoin.BlockEquality
import CosiCoin.DigestPreimages
import CosiCoin.FailedAddition
import CosiCoin.SpendingBounds
import CosiCoin.SpentCoinRemoval
import CosiCoin.SignatureMeaning
import CosiCoin.FrozenBlocks
import CosiCoin.OrderedMaps
import CosiCoin.SettingsModel
import CosiCoin.BroadcastReach
import CosiCoin.MutexOwnership
import CosiCoin.SenderLocks
import CosiCoin.DeliveryReferences
import CosiCoin.BlockMaps
import CosiCoin.CopiedNodes
import CosiCoin.WalletSync
import CosiCoin.BitCodecs
import CosiCoin.KeyTexts
import CosiCoin.TransactionIds
import CosiCoin.WalletIdentity
import CosiCoin.InteractiveWallet
import CosiCoin.HardwareHash
import CosiCoin.HardwareControl
import CosiCoin.ObjectRefinement
import CosiCoin.BlockStreaming
import CosiCoin.Sha256Compression
import CosiCoin.Sha256Streaming
import CosiCoin.DigestCollisions
import CosiCoin.OneTimeSignatures
import CosiCoin.ForgedSignatures
import CosiCoin.CompletionQueues
import CosiCoin.ServerCalls
import CosiCoin.BusDrivers
import CosiCoin.HardwareRegisters
import CosiCoin.HardwareCalls
import CosiCoin.DeliveryThreshold
import CosiCoin.LedgerProvenance
import CosiCoin.LedgerAccounting
import CosiCoin.LedgerReplicas
import CosiCoin.ValidatorThreads
import CosiCoin.ConsensusLedger
import CosiCoin.LedgerCommit
