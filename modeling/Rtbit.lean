import Rtbit.Proofs.AcquirePiece
import Rtbit.Proofs.AddReturns
import Rtbit.Proofs.BencodeParse
import Rtbit.Proofs.BitvOwner
import Rtbit.Proofs.ByteQueue
import Rtbit.Proofs.CacheTransparent
import Rtbit.Proofs.ChunkCompletion
import Rtbit.Proofs.ChunkPiece
import Rtbit.Proofs.ChunkStatus
import Rtbit.Proofs.CleanUp
import Rtbit.Proofs.CompletionSignal
import Rtbit.Proofs.ConcurrentAdd
import Rtbit.Proofs.ConnectRace
import Rtbit.Proofs.CreatedHashes
import Rtbit.Proofs.Credentials
import Rtbit.Proofs.DeadPeers
import Rtbit.Proofs.Deselected
import Rtbit.Proofs.DiskVerified
import Rtbit.Proofs.DownloadedOnce
import Rtbit.Proofs.Exclusive
import Rtbit.Proofs.ExtensionNegotiation
import Rtbit.Proofs.FailedOps
import Rtbit.Proofs.Fastresume
import Rtbit.Proofs.FileStreamReads
import Rtbit.Proofs.FlatView
import Rtbit.Proofs.FlushOrder
import Rtbit.Proofs.Generations
import Rtbit.Proofs.HandshakeSplit
import Rtbit.Proofs.HaveAnnounced
import Rtbit.Proofs.HonestPeer
import Rtbit.Proofs.HonestTransfer
import Rtbit.Proofs.HttpAccess
import Rtbit.Proofs.IpLists
import Rtbit.Proofs.LockOrder
import Rtbit.Proofs.MagnetPeers
import Rtbit.Proofs.MetadataReader
import Rtbit.Proofs.MetadataTransfer
import Rtbit.Proofs.MmapAgrees
import Rtbit.Proofs.MoveCompleted
import Rtbit.Proofs.NoLostPiece
import Rtbit.Proofs.NoOrphan
import Rtbit.Proofs.Paging
import Rtbit.Proofs.PauseAtomic
import Rtbit.Proofs.PeerCounters
import Rtbit.Proofs.PeerQueue
import Rtbit.Proofs.PerFile
import Rtbit.Proofs.PersistenceFollows
import Rtbit.Proofs.Pex
import Rtbit.Proofs.PexSource
import Rtbit.Proofs.PrivateTorrents
import Rtbit.Proofs.Progress
import Rtbit.Proofs.RangeRequests
import Rtbit.Proofs.RateLimits
import Rtbit.Proofs.ReadMetainfo
import Rtbit.Proofs.RequestWindow
import Rtbit.Proofs.RestartRoundTrip
import Rtbit.Proofs.RulesSurvive
import Rtbit.Proofs.Selection
import Rtbit.Proofs.ServeChunk
import Rtbit.Proofs.ServeMetadata
import Rtbit.Proofs.SessionIndex
import Rtbit.Proofs.SetupOnce
import Rtbit.Proofs.ShortTransfers
import Rtbit.Proofs.SingleUse
import Rtbit.Proofs.StaleTasks
import Rtbit.Proofs.StateMachine
import Rtbit.Proofs.StealWrite
import Rtbit.Proofs.StreamPriority
import Rtbit.Proofs.StreamWake
import Rtbit.Proofs.TornBitv
import Rtbit.Proofs.UploadQueue
import Rtbit.Proofs.Uploads
import Rtbit.Proofs.UpnpBrowse
import Rtbit.Proofs.UpnpTree
import Rtbit.Proofs.VerifiedData
import Rtbit.Proofs.Verifiers
