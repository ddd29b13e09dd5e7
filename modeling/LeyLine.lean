import LeyLine.Lib.SepPath
import LeyLine.Tree
import LeyLine.Directory
import LeyLine.Lib.PathTree
import LeyLine.TreeSync
import LeyLine.Lib.Table
import LeyLine.TreeSyncSpec
import LeyLine.Projection
import LeyLine.PassSpec
import LeyLine.SourceWrite
import LeyLine.Lib.PathEdit
import LeyLine.ProposeSpec
import LeyLine.Blobs
import LeyLine.Writers
import LeyLine.Lib.Framing
import LeyLine.Partition
import LeyLine.TreeRoot
import LeyLine.Control
import LeyLine.ControlSafety
import LeyLine.Lib.Request
import LeyLine.StoreFs.State
import LeyLine.StoreFs.Requests
import LeyLine.StoreFs.Session
import LeyLine.StoreFs.Effects
import LeyLine.StoreFs.Acknowledged
import LeyLine.Lib.LeftTree
import LeyLine.Outboard
import LeyLine.Cdc.Manifest
import LeyLine.Cdc.Read
import LeyLine.Lib.GatedSearch
import LeyLine.Sheaf.Cache
import LeyLine.Sheaf.Cascade
import LeyLine.Sheaf.Ops
import LeyLine.Sheaf.Intact
import LeyLine.Sheaf.OpsSafety
import LeyLine.Restriction
import LeyLine.RestrictionSound
import LeyLine.Lib.StackWalk
import LeyLine.Staging
import LeyLine.StagingRefines
import LeyLine.Lib.Climb
import LeyLine.Lib.Interned
import LeyLine.NodePath
import LeyLine.NodePathGood
import LeyLine.Lib.Rank
import LeyLine.NodePathSegment
import LeyLine.NodePathInverse
import LeyLine.StoreFs.Scratch
import LeyLine.StoreFs.ScratchCount
import LeyLine.StoreFs.ScratchLimit
import LeyLine.StoreFs.ScratchRun
import LeyLine.Sign.CertChain
import LeyLine.Sign.CertPath
import LeyLine.Lib.Pool
import LeyLine.Runtime.Service
import LeyLine.Runtime.Moves
import LeyLine.Runtime.StartOnce
import LeyLine.Runtime.Receipts
import LeyLine.Runtime.Lifecycle
import LeyLine.Daemon.Delivery
import LeyLine.Head.Chain
import LeyLine.Head.NoFork
import LeyLine.Lib.Json
import LeyLine.Lib.OrderedInsert
import LeyLine.Runtime.Confinement
import LeyLine.Runtime.Declared
import LeyLine.Sign.Cms
import LeyLine.Sign.CmsBinding
import LeyLine.Sign.CmsForge
import LeyLine.Share.Codec
import LeyLine.Lib.Pipe
import LeyLine.Share.Frame
import LeyLine.Share.Remote
import LeyLine.Cdc.Rechunk
import LeyLine.Share.Transparent
import LeyLine.Sign.Keystore
import LeyLine.Sign.KeystoreFlight
import LeyLine.Sign.KeystoreSingle
import LeyLine.Fs.FreshReads
import LeyLine.Fs.HotSwap
import LeyLine.Fs.FlushKeeps
import LeyLine.Inclusion
import LeyLine.Arena
import LeyLine.Fs.VerifiedArena
import LeyLine.Fs.FaultGate
import LeyLine.Fs.VerifiedReads
import LeyLine.Ast.Fold
import LeyLine.Ast.Address
import LeyLine.Ast.Rows
import LeyLine.Fs.NodeTree
import LeyLine.Lib.Machine
import LeyLine.Vcs.CommitLoop
import LeyLine.Vcs.EveryChange
import LeyLine.Vcs.Resolve
import LeyLine.ArenaFile
import LeyLine.GrantFrame
import LeyLine.Cdc.Admission
import LeyLine.Envelope
import LeyLine.Runtime.Authorize
import LeyLine.Runtime.ReadBack
import LeyLine.Daemon.Replay
import LeyLine.Sheaf.Merkle
import LeyLine.Sheaf.Topology
import LeyLine.Sign.RateLimit
import LeyLine.Sign.ResolveAllow
import LeyLine.Encoder
import LeyLine.StoreFs.Inodes
import LeyLine.StoreFs.Guest
