import AvSync.Lib.Machine
import AvSync.Lib.OrdMap
import AvSync.Security

/-!
# Connections and their readers

The peer map of a framing transport, which holds one connection for each peer id, and the readers
of all connections that have been registered. Connections are numbered in the order of their
registrations; which readers are still running is a history variable.
-/

namespace AvSync

/-- The reader of a connection. -/
structure Reader where
  peer : PeerId
  running : Bool
  deriving DecidableEq

/-- The peer map, with the readers of all connections. -/
structure Connections where
  peers : BTreeMap PeerId ℕ
  readers : List Reader

inductive ConnectionEvent where
  /-- The handshake with a peer has completed. -/
  | register (peer : PeerId)
  /-- The reader of a connection leaves its loop. -/
  | readerExit (connection : ℕ)

namespace Connections

def new : Connections := ⟨∅, []⟩

variable (s : Connections)

/-- The connection's reader is running. -/
def Live (peer : PeerId) (connection : ℕ) : Prop := s.readers[connection]? = some ⟨peer, true⟩

instance (peer : PeerId) (connection : ℕ) : Decidable (s.Live peer connection) :=
  inferInstanceAs (Decidable (_ = _))

/-- The connection is the most recently registered one of the peer that is live. -/
def Newest (peer : PeerId) (connection : ℕ) : Prop :=
  s.Live peer connection ∧ ∀ later, connection < later → ¬s.Live peer later

/-- The peer ids that have a connection. -/
def peerIds : List PeerId := s.peers.keys

/-- The connection that `send_frame` writes to. -/
def sendFrame (peer : PeerId) : Except SyncError ℕ :=
  match s.peers[peer]? with
  | some connection => .ok connection
  | none => .error (.peerNotFound peer)

/-- The peers with a live connection are listed, and reached by their newest one. -/
def Serves : Prop :=
  ∀ peer connection, s.Newest peer connection →
    peer ∈ s.peerIds ∧ s.sendFrame peer = .ok connection

/-- A new connection takes the place of its peer's. -/
def insertConnection (peer : PeerId) : Connections where
  peers := s.peers.insert peer s.readers.length
  readers := s.readers ++ [⟨peer, true⟩]

/-- A reader that ends takes its peer id out of the map. -/
def endReader (connection : ℕ) : Connections :=
  match s.readers[connection]? with
  | some ⟨peer, true⟩ =>
    { peers := s.peers.erase peer, readers := s.readers.set connection ⟨peer, false⟩ }
  | _ => s

/-- No other connection of the peer is live when the reader of one ends. -/
def EndsAlone : ConnectionEvent → Prop
  | .register _ => True
  | .readerExit connection =>
    ∀ peer, s.Live peer connection → ∀ other, s.Live peer other → other = connection

end Connections

namespace TcpTransport

/-- `Inner::register`, and what its thread does behind its loop. -/
def connectionStep (s : Connections) : ConnectionEvent → Connections
  | .register peer => s.insertConnection peer
  | .readerExit connection => s.endReader connection

end TcpTransport

namespace WebsocketTransport

/-- The end of `handshake_and_register`, and what its reader task does behind its loop. -/
def connectionStep (s : Connections) : ConnectionEvent → Connections
  | .register peer => s.insertConnection peer
  | .readerExit connection => s.endReader connection

end WebsocketTransport

/-- The transports that keep a peer map. -/
inductive FramingTransport where
  | tcp
  | websocket
  deriving DecidableEq

def FramingTransport.machine : FramingTransport → Machine Connections ConnectionEvent
  | .tcp => ⟨TcpTransport.connectionStep, fun _ _ => True⟩
  | .websocket => ⟨WebsocketTransport.connectionStep, fun _ _ => True⟩

end AvSync
