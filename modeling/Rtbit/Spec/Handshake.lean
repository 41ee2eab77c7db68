import Rtbit.Spec.ReadBuf

/-! The handshake: `ReadBuf::read_handshake`, and what becomes of it on an outgoing connection
(`manage_peer_outgoing`) and on an incoming one (`check_incoming_connection`, `add_incoming_peer`
and `manage_peer_incoming`). Both go on with `read_message`. -/

namespace Rtbit

open Lib

/-- `I` are the 20-byte ids. -/
structure Handshake (I : Type) where
  infoHash : I
  peerId : I
  deriving DecidableEq, Repr

/-- `Handshake::deserialize`: the handshake and its size. -/
structure HandshakeFormat (I η : Type) where
  deserialize : List UInt8 → Except η (Handshake I × ℕ)

/-- The accepted strings are those that start with a complete handshake. -/
structure HandshakeFormat.Lawful {I η : Type} (f : HandshakeFormat I η) : Prop where
  accepts : ∀ bytes h size, f.deserialize bytes = .ok (h, size) ↔
    size ≤ bytes.length ∧ f.deserialize (bytes.take size) = .ok (h, size)
  size_pos : ∀ bytes h size, f.deserialize bytes = .ok (h, size) → 0 < size

namespace ReadBuf

variable {I ε η δ M : Type}

/-- `read_handshake`: one read, into the start of the array. -/
def readHandshake (f : HandshakeFormat I η) (b : ReadBuf) (c : Conn ε) :
    Except (ReadError ε η δ) (Handshake I × ReadBuf × Conn ε) :=
  match c.read bufLen with
  | .error e => .error (.readHandshake e)
  | .ok (data, c) =>
    let b := { b with buf := put b.buf 0 data, len := data.length }
    if b.len = 0 then .error .peerDisconnectedReadingHandshake
    else
      match f.deserialize (cells b.buf 0 b.len) with
      | .error e => .error (.deserializeHandshake e)
      | .ok (h, size) => .ok (h, b.advance size, c)

end ReadBuf

/-- `AddIncomingPeerResult`. -/
inductive AddIncomingPeerResult where
  | added
  | alreadyActive
  | concurrencyLimitReached
  deriving DecidableEq, Repr

/-- A torrent of the session, as far as an incoming connection depends on it. -/
structure IncomingTorrent (I : Type) where
  infoHash : I
  /-- `live_wait_initializing` returns it. -/
  live : Bool
  addIncomingPeer : AddIncomingPeerResult
  deriving DecidableEq, Repr

/-- Why a connection goes no further after the handshake has been read. -/
inductive Refusal where
  | wrongInfoHash
  | connectingToOurselves
  /-- "seems like we are connecting to ourselves, ignoring" -/
  | seemsConnectingToOurselves
  /-- "didn't find a matching torrent {info_hash}" -/
  | noMatchingTorrent
  /-- "torrent {id} is not live, ignoring connection" -/
  | notLive
  | notAdded (r : AddIncomingPeerResult)
  deriving DecidableEq, Repr

/-- The two ways a connection is made, with what is compared with the handshake. -/
inductive ConnPath (I : Type) where
  | outgoing (infoHash peerId : I)
  | incoming (peerId : I) (torrents : List (IncomingTorrent I))
  deriving DecidableEq, Repr

section Paths

variable {I ε η δ M : Type} [DecidableEq I]

/-- The checks of `manage_peer_outgoing` and of `manage_peer_incoming`. -/
def checkHandshake (infoHash peerId : I) (h : Handshake I) : Option Refusal :=
  if h.infoHash ≠ infoHash then some .wrongInfoHash
  else if h.peerId = peerId then some .connectingToOurselves
  else none

/-- `check_incoming_connection` after the handshake has been read, `add_incoming_peer`, and the
checks of `manage_peer_incoming`. -/
def checkIncoming (peerId : I) (torrents : List (IncomingTorrent I)) (h : Handshake I) :
    Option Refusal :=
  if h.peerId = peerId then some .seemsConnectingToOurselves
  else
    match torrents.find? (fun t => t.infoHash = h.infoHash) with
    | none => some .noMatchingTorrent
    | some t =>
      if !t.live then some .notLive
      else if t.addIncomingPeer ≠ .added then some (.notAdded t.addIncomingPeer)
      else checkHandshake t.infoHash peerId h

def ConnPath.check : ConnPath I → Handshake I → Option Refusal
  | .outgoing infoHash peerId => checkHandshake infoHash peerId
  | .incoming peerId torrents => checkIncoming peerId torrents

/-- How the reading side of a connection goes. -/
inductive PeerRun (I ε η δ M : Type) where
  | readFailed (e : ReadError ε η δ)
  | refused (h : Handshake I) (r : Refusal)
  | messages (h : Handshake I) (rs : List (Except (ReadError ε η δ) M))
  deriving Repr

/-- The handshake, its checks and up to `k` messages. -/
def managePeer (f : HandshakeFormat I η) (m : MessageFormat M δ) (path : ConnPath I) (k : ℕ)
    (c : Conn ε) : Option (PeerRun I ε η δ M) :=
  match ReadBuf.new.readHandshake f c with
  | .error e => some (.readFailed e)
  | .ok (h, b, c) =>
    match path.check h with
    | some r => some (.refused h r)
    | none => (ReadBuf.readMessages m k b c).map (.messages h)

end Paths

end Rtbit
