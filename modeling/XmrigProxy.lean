import XmrigProxy.ShareReplay
import XmrigProxy.ShareVerification
import XmrigProxy.SubmissionLaws
import XmrigProxy.VerifierSeeds
import XmrigProxy.ReservationLifecycle
import XmrigProxy.ReservationRuns
import XmrigProxy.VerifierSoundness
import XmrigProxy.ShareCacheInvariants
import XmrigProxy.ShareAvailability
import XmrigProxy.DaemonTemplateSource
import XmrigProxy.TemplateWakeups
import XmrigProxy.NonceStorage
import XmrigProxy.DonateStrategy
import XmrigProxy.ExtraNonceStorage
import XmrigProxy.NonceMapper
import XmrigProxy.NonceSplitter
import XmrigProxy.PoolActivity
import XmrigProxy.NonceRouting
import XmrigProxy.SimpleMapper
import XmrigProxy.SimpleSplitter
import XmrigProxy.SimpleOwnership
import XmrigProxy.Library.Retention
import XmrigProxy.DaemonClient
import XmrigProxy.PoolStrategy
import XmrigProxy.JobRetention
import XmrigProxy.RetentionLayers
import XmrigProxy.MapperRequests
import XmrigProxy.ResultDelivery
import XmrigProxy.SubmitAnswers
import XmrigProxy.JobTarget
import XmrigProxy.TemplateProgress
import XmrigProxy.FailoverStrategy
import XmrigProxy.Library.MerkleTree
import XmrigProxy.MerkleRoot
import XmrigProxy.BlockTemplate
import XmrigProxy.TemplateSafety
import XmrigProxy.TemplateLeaves
import XmrigProxy.CreditedWork
import XmrigProxy.EventIngestion
import XmrigProxy.RoundInvariants
import XmrigProxy.Library.Grouped
import XmrigProxy.RoundCoverage
import XmrigProxy.CompleteRounds
import XmrigProxy.Library.Csv
import XmrigProxy.Library.Numerals
import XmrigProxy.LiveEventStream
import XmrigProxy.EventLines
import XmrigProxy.PublicationOrder
import XmrigProxy.Library.Lines
import XmrigProxy.LineReader
import XmrigProxy.Library.Incremental
import XmrigProxy.VerifierFrames
import XmrigProxy.CandidateWindows
import XmrigProxy.Hashrate
import XmrigProxy.LocalDuplicates
import XmrigProxy.ZmqStream
import XmrigProxy.Library.Radix
import XmrigProxy.WalletAddress
import XmrigProxy.CanonicalAddress
import XmrigProxy.Library.Selection
import XmrigProxy.ShareArchive
import XmrigProxy.ContextRetention
import XmrigProxy.RetainedShares
import XmrigProxy.FrameBuffer
import XmrigProxy.HexDecoders
import XmrigProxy.TemplateLayout
import XmrigProxy.TemplatePatches
import XmrigProxy.DaemonJobs
import XmrigProxy.IssuedWork
import XmrigProxy.ExtraNonceJobs
import XmrigProxy.ExtraNonceJobs
import XmrigProxy.EventDispatch
import XmrigProxy.DispatchIntegrity
import XmrigProxy.Library.Dispatch
import XmrigProxy.EventDispatch
import XmrigProxy.DispatchIntegrity
import XmrigProxy.Library.JsonText
import XmrigProxy.RowParser
import XmrigProxy.RowAcceptance
import XmrigProxy.EventReader
import XmrigProxy.ExtraNonceAssignment
import XmrigProxy.LiveFeed
import XmrigProxy.Library.Lru
import XmrigProxy.ShareBoard
import XmrigProxy.ShareRanking
import XmrigProxy.Keccak
import XmrigProxy.KeccakHash
import XmrigProxy.Sha3
import XmrigProxy.MapperHolders
import XmrigProxy.MinerReferences
import XmrigProxy.SubmissionResponses
import XmrigProxy.SubmissionOutcomes
import XmrigProxy.TemplateResponses
import XmrigProxy.SimpleTenancy
import XmrigProxy.TemplateMeasures
import XmrigProxy.ZmqMessages
import XmrigProxy.ZmqAnswers
