import AvSync.Compaction
import AvSync.Proofs.Convergence
import AvSync.Proofs.Failure
import AvSync.Proofs.Inbound
import AvSync.Proofs.Ledger
import AvSync.Proofs.Network
import AvSync.Proofs.Pieces
import AvSync.Proofs.Stamps
import AvSync.Rooms
import AvSync.Proofs.Relay
import AvSync.Proofs.Signaling
import AvSync.Lib.Duplex
import AvSync.Proofs.Tcp
import AvSync.Proofs.Websocket
import AvSync.LocalRuns
import AvSync.Proofs.Alike
import AvSync.Proofs.CompactedRuns
import AvSync.Edits
import AvSync.EngineReports
import AvSync.Lib.Framing
import AvSync.Lib.Overwrite
import AvSync.Persistence
import AvSync.Proofs.Acks
import AvSync.Proofs.Conflicts
import AvSync.Proofs.Cuts
import AvSync.Proofs.Edits
import AvSync.Proofs.Joins
import AvSync.Proofs.Persistence
import AvSync.Proofs.Reissues
import AvSync.Proofs.Reports
import AvSync.Proofs.Shapes
import AvSync.Proofs.Splits
import AvSync.Proofs.UndoInserts
import AvSync.Proofs.Upkeep
import AvSync.Proofs.Redone
import AvSync.Connections
import AvSync.FrameStream
import AvSync.Lib.Measures
import AvSync.Playhead
import AvSync.Presence
import AvSync.Proofs.Connections
import AvSync.Proofs.FrameStream
import AvSync.Proofs.Playhead
import AvSync.Proofs.Presence
import AvSync.Proofs.RoomLogs
import AvSync.Proofs.Rotation
import AvSync.Proofs.WebRtc
import AvSync.Lib.Auction
import AvSync.Ownership
import AvSync.Proofs.Disputes
import AvSync.Lib.Metering
import AvSync.Limits
import AvSync.Proofs.Limits
import AvSync.Proofs.Locality
import AvSync.Lib.Mixing
import AvSync.Generation
import AvSync.Proofs.Generation
import AvSync.Playheads
import AvSync.Proofs.Playheads
import AvSync.Editing
import AvSync.Proofs.Editing
import AvSync.Loopback
import AvSync.Proofs.Loopback
import AvSync.Lib.Potential
import AvSync.Proofs.Settling
import AvSync.Delta
import AvSync.Lib.Entrywise
import AvSync.Proofs.Delta
import AvSync.Proofs.Transfer
import AvSync.Media
import AvSync.Proofs.Media
import AvSync.RelayClient
import AvSync.Proofs.RelayClient
import AvSync.Recording
import AvSync.Proofs.Recording
import AvSync.Lib.SoftState
import AvSync.Discovery
import AvSync.Proofs.Discovery
