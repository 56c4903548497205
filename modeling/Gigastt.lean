import Gigastt.Transition
import Gigastt.Slices
import Gigastt.Outcomes
import Gigastt.Rounding
import Gigastt.Pool
import Gigastt.PoolConservation
import Gigastt.PoolWakeup
import Gigastt.WindowCursor
import Gigastt.WindowGeometry
import Gigastt.WindowSource
import Gigastt.VadRegions
import Gigastt.VadSegmenter
import Gigastt.VadDecisions
import Gigastt.VadRelease
import Gigastt.VadStream
import Gigastt.Watchdog
import Gigastt.WatchdogArbitration
import Gigastt.WatchdogDelivery
import Gigastt.Words
import Gigastt.WsConfigure
import Gigastt.WsConfigureAtomic
import Gigastt.WsSession
import Gigastt.Stitch
import Gigastt.StitchSeam
import Gigastt.WindowDecode
import Gigastt.WindowWaves
import Gigastt.Transcript
import Gigastt.Snapshot
import Gigastt.SnapshotChain
import Gigastt.RegionRemap
import Gigastt.WindowPublish
import Gigastt.Stream
import Gigastt.StreamCommit
import Gigastt.Loops
import Gigastt.Logits
import Gigastt.Biaser
import Gigastt.GreedyDecode
import Gigastt.GreedyCache
import Gigastt.GreedyPicks
import Gigastt.KeyedList
import Gigastt.Alignments
import Gigastt.CtcBeam
import Gigastt.CtcExact
import Gigastt.CtcAccounts
import Gigastt.CtcForward
import Gigastt.CtcMerge
import Gigastt.Table
import Gigastt.Indexed
import Gigastt.Jobs
import Gigastt.JobLedger
import Gigastt.JobWorkers
import Gigastt.JobAccounting
import Gigastt.JobLifecycle
import Gigastt.JobQueue
import Gigastt.JobEvents
import Gigastt.JobShutdown
import Gigastt.Metering
import Gigastt.RateLimit
import Gigastt.RateLimitBound
import Gigastt.Registers
import Gigastt.WsSettings
import Gigastt.VadEndpoint
import Gigastt.WsInference
import Gigastt.WsFrames
import Gigastt.WsLoop
import Gigastt.WsPanic
import Gigastt.Opus
import Gigastt.OpusFraming
import Gigastt.Watch
import Gigastt.WatchSettle
import Gigastt.WatchRuns
import Gigastt.BatchPaths
import Gigastt.BatchTask
import Gigastt.WatchTasks
import Gigastt.WatchDiscard
import Gigastt.BatchRun
import Gigastt.BatchMoves
import Gigastt.BatchClash
import Gigastt.Tensor
import Gigastt.Contraction
import Gigastt.QuantWeights
import Gigastt.QuantChains
import Gigastt.QuantPass
import Gigastt.CtcGreedy
import Gigastt.BiasBuild
import Gigastt.BiasScore
import Gigastt.BiasWorth
import Gigastt.Cutting
import Gigastt.BiasCredit
import Gigastt.GreedyBias
import Gigastt.StitchMatching
import Gigastt.StitchCase
import Gigastt.Tokenizer
import Gigastt.BiasBoost
import Gigastt.BiasPhrases
import Gigastt.WordFormat
import Gigastt.StreamSlide
import Gigastt.StreamFinish
import Gigastt.AssemblerWords
import Gigastt.VadPushes
import Gigastt.OnnxSemantics
import Gigastt.QuantEntries
import Gigastt.QuantGraph
import Gigastt.QuantMatMul
import Gigastt.QuantConv
import Gigastt.Suffixes
import Gigastt.QuantNames
import Gigastt.QuantOrder
import Gigastt.QuantWellFormed
import Gigastt.RegionTimeline
import Gigastt.PunctWindows
import Gigastt.Splitting
import Gigastt.Itn
import Gigastt.ItnNumbers
import Gigastt.ItnLaws
import Gigastt.WordPieceUnicode
import Gigastt.WordPieceFile
import Gigastt.WordPiece
import Gigastt.WordPiecePieces
import Gigastt.WordPieceSpans
import Gigastt.WordPieceEncode
import Gigastt.PunctSpans
import Gigastt.PunctLabels
import Gigastt.PunctOrigins
import Gigastt.PunctReach
import Gigastt.QuantBound
import Gigastt.Moments
import Gigastt.DualMono
import Gigastt.AudioChunks
import Gigastt.SpeakerTurns
import Gigastt.Grouping
import Gigastt.Segments
import Gigastt.Captions
import Gigastt.CaptionLimits
import Gigastt.SseAssembler
import Gigastt.JobAdmission
import Gigastt.Searching
import Gigastt.Sha256
import Gigastt.SourceHash
import Gigastt.QuantMeaning
import Gigastt.ModelVariants
import Gigastt.Install
import Gigastt.InstallSafety
import Gigastt.InstallLock
import Gigastt.Pulled
import Gigastt.WindowPulls
import Gigastt.Resampling
import Gigastt.FileDecode
import Gigastt.FileTrace
import Gigastt.FilePulls
import Gigastt.FileMemory
import Gigastt.OpusDrain
import Gigastt.VadScan
import Gigastt.VadWindows
import Gigastt.SpeechRegions
import Gigastt.FileTranscribe
import Gigastt.ChannelDecode
import Gigastt.ChannelScan
import Gigastt.ChannelTranscribe
import Gigastt.WsTalk
import Gigastt.WsWire
import Gigastt.WsKeepalive
import Gigastt.GraphCache
import Gigastt.GraphSafety
import Gigastt.UploadAdmission
import Gigastt.WsIncoming
