import LuaDag.Accusations
import LuaDag.Advancement
import LuaDag.AnchorBeacon
import LuaDag.Availability
import LuaDag.Bitmap
import LuaDag.BlobCustody
import LuaDag.BlobHost
import LuaDag.BlobLifecycle
import LuaDag.BlobStore
import LuaDag.BorshLayout
import LuaDag.Bullshark
import LuaDag.CandidateForm
import LuaDag.CertAssembly
import LuaDag.CertProduction
import LuaDag.CertifiedDag
import LuaDag.Climb
import LuaDag.ClosureOrder
import LuaDag.CommitRule
import LuaDag.Committee
import LuaDag.Crypto
import LuaDag.CustodyLedger
import LuaDag.CustodyPoison
import LuaDag.CustodySound
import LuaDag.DagIndex
import LuaDag.Decimal
import LuaDag.Devnet
import LuaDag.Ecvrf
import LuaDag.Elimination
import LuaDag.EmittedEvidence
import LuaDag.ErasureField
import LuaDag.ErasureMatrix
import LuaDag.ErrorAtomicity
import LuaDag.Evidence
import LuaDag.Finality
import LuaDag.FinalizedQuery
import LuaDag.FlatVotes
import LuaDag.Gf256
import LuaDag.GossipExact
import LuaDag.GossipWire
import LuaDag.HonestMacros
import LuaDag.HonestNetwork
import LuaDag.HostCommits
import LuaDag.HostRun
import LuaDag.HostTimers
import LuaDag.InactivityLeak
import LuaDag.KeyedQueue
import LuaDag.Layers
import LuaDag.Layout
import LuaDag.Linearization
import LuaDag.LiveDag
import LuaDag.LogField
import LuaDag.MacroAgreement
import LuaDag.MacroBook
import LuaDag.MacroChain
import LuaDag.MacroCore
import LuaDag.MacroFin
import LuaDag.MacroFrame
import LuaDag.MacroLock
import LuaDag.MacroQuorum
import LuaDag.MacroRefine
import LuaDag.MacroUnique
import LuaDag.MacroWindow
import LuaDag.Maps
import LuaDag.MicroRing
import LuaDag.MicroUnique
import LuaDag.Monitor
import LuaDag.Network
import LuaDag.NetworkCertificates
import LuaDag.NetworkMoments
import LuaDag.NodeRefine
import LuaDag.NodeRun
import LuaDag.Orchestrator
import LuaDag.OrderedOnce
import LuaDag.Outcome
import LuaDag.OwnVertices
import LuaDag.ParentVotes
import LuaDag.PendingBlobs
import LuaDag.PrimeOrder
import LuaDag.PrimeSubgroup
import LuaDag.Primitives
import LuaDag.ProposerSortition
import LuaDag.Publication
import LuaDag.QcFormation
import LuaDag.Quorum
import LuaDag.Radix
import LuaDag.ReedSolomon
import LuaDag.Rejection
import LuaDag.RoundOverflow
import LuaDag.RoundTimer
import LuaDag.RoundsGrow
import LuaDag.ScheduleAgreement
import LuaDag.Search
import LuaDag.Segments
import LuaDag.Shadow
import LuaDag.SigningBytes
import LuaDag.Simulation
import LuaDag.SlashLog
import LuaDag.SlashScans
import LuaDag.StableQueue
import LuaDag.StateMachine
import LuaDag.StorageKeys
import LuaDag.SubnetPurity
import LuaDag.SubnetUnion
import LuaDag.Thresholds
import LuaDag.TimerIds
import LuaDag.Timers
import LuaDag.TopicCoverage
import LuaDag.TotalOrder
import LuaDag.Trace
import LuaDag.TwoChain
import LuaDag.Types
import LuaDag.VertexAgreement
import LuaDag.VertexCert
import LuaDag.VertexMemory
import LuaDag.VertexMoves
import LuaDag.VertexProgress
import LuaDag.VertexRefine
import LuaDag.VertexVotes
import LuaDag.VirtualNet
import LuaDag.VirtualTimer
import LuaDag.VoteHonoured
import LuaDag.WaveOrder
import LuaDag.WavePass
import LuaDag.WindowVotes
import LuaDag.World
import LuaDag.WorldNetwork
import LuaDag.WorldTimers
