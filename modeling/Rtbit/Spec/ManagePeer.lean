import Rtbit.Spec.Handshake

/-! `manage_peer_outgoing`, `manage_peer_incoming` and `manage_peer`, as far as what is sent to the
peer depends on its handshake and on its extended handshake. -/

namespace Rtbit

namespace PeerConnection

/-- `Handshake` with the extended messaging bit of its reserved bytes. -/
structure FullHandshake (I : Type) extends Handshake I where
  supportsExtended : Bool
  deriving DecidableEq, Repr

/-- `Handshake::new` sets the bit. -/
def FullHandshake.new {I : Type} (infoHash peerId : I) : FullHandshake I :=
  ⟨⟨infoHash, peerId⟩, true⟩

inductive Extension where
  | utMetadata
  | utPex
  | utHolepunch
  deriving DecidableEq, Repr

abbrev PeerExtendedMessageIds := Extension → Option ℕ

/-- `ExtendedMessage::serialize`: the id that the message is sent with, if it can be serialized. -/
structure ExtendedFormat where
  serialize : PeerExtendedMessageIds → Extension → Option ℕ

/-- Only a message of an extension that the peer has given an id can be serialized. -/
def ExtendedFormat.Lawful (f : ExtendedFormat) : Prop :=
  ∀ ids e, (f.serialize ids e).isSome = (ids e).isSome

/-- What the writer takes from `outgoing_chan`, or makes of a Have or of the keep-alive timer. -/
inductive WriterRequest where
  /-- A message that is not an extended one. -/
  | message
  /-- `UtMetadata`, `UtPex`, `UtHolepunch`, or such a message in `Message`. -/
  | extended (e : Extension)
  | readChunkRequest
  | disconnect
  deriving DecidableEq, Repr

inductive SentMessage (I : Type) where
  | handshake (h : FullHandshake I)
  | extendedHandshake
  | bitfield
  | unchoke
  | message
  | extended (e : Extension) (id : ℕ)
  | piece
  deriving DecidableEq, Repr

def SentMessage.isExtended {I : Type} : SentMessage I → Bool
  | .extendedHandshake | .extended _ _ => true
  | _ => false

/-- What the handler decides; `onHandshake` and `updateMyExtendedHandshake` tell whether the call
returns `Ok`. -/
structure PeerConnectionHandler (I : Type) where
  onHandshake : FullHandshake I → Bool
  updateMyExtendedHandshake : Bool
  shouldSendBitfield : Bool

/-- Where the writer is. -/
inductive WriterStage where
  | bitfield
  | unchoke
  /-- In the loop over the requests. -/
  | requests
  /-- The writer or the reader has ended, and with it the connection. -/
  | closed
  deriving DecidableEq, Repr

/-- `manage_peer` and what has been written to the peer since the connection was made. -/
structure ManagedPeer (I : Type) where
  sent : List (SentMessage I)
  /-- `extended_handshake`, which the reader writes and the writer reads. -/
  extendedHandshake : Option PeerExtendedMessageIds
  writer : WriterStage

inductive ManageError where
  | refused (r : Refusal)
  | onHandshake
  | updateMyExtendedHandshake
  deriving DecidableEq, Repr

section

variable {I : Type} [DecidableEq I]

/-- `manage_peer` up to where the writer and the reader start. -/
def managePeer (handler : PeerConnectionHandler I) (handshakeSupportsExtended : Bool)
    (sent : List (SentMessage I)) : Except ManageError (ManagedPeer I) :=
  if handshakeSupportsExtended then
    if handler.updateMyExtendedHandshake then .ok ⟨sent ++ [.extendedHandshake], none, .bitfield⟩
    else .error .updateMyExtendedHandshake
  else .ok ⟨sent, none, .bitfield⟩

variable (infoHash peerId : I) (handler : PeerConnectionHandler I) (remote : FullHandshake I)

/-- `remote` is what `read_handshake` returns. -/
def managePeerOutgoing : Except ManageError (ManagedPeer I) :=
  let handshake := FullHandshake.new infoHash peerId
  let h := remote
  let handshakeSupportsExtended := h.supportsExtended
  match checkHandshake infoHash peerId h.toHandshake with
  | some r => .error (.refused r)
  | none =>
    if handler.onHandshake h then
      managePeer handler handshakeSupportsExtended [.handshake handshake]
    else .error .onHandshake

/-- `remote` is `incoming.handshake`. -/
def managePeerIncoming : Except ManageError (ManagedPeer I) :=
  match checkHandshake infoHash peerId remote.toHandshake with
  | some r => .error (.refused r)
  | none =>
    let handshake := FullHandshake.new infoHash peerId
    let handshakeSupportsExtended := handshake.supportsExtended
    if handler.onHandshake handshake then
      managePeer handler handshakeSupportsExtended [.handshake handshake]
    else .error .onHandshake

inductive Direction where
  | outgoing
  | incoming
  deriving DecidableEq, Repr

def Direction.managePeer : Direction → Except ManageError (ManagedPeer I)
  | .outgoing => managePeerOutgoing infoHash peerId handler remote
  | .incoming => managePeerIncoming infoHash peerId handler remote

end

inductive PeerEvent where
  /-- The writer goes on to the loop. -/
  | writer
  | request (r : WriterRequest)
  /-- The reader receives an extended handshake. -/
  | extendedHandshake (ids : PeerExtendedMessageIds)
  /-- The reader receives any other message. -/
  | received
  /-- A read, a write or a call of the handler fails. -/
  | fail

namespace ManagedPeer

variable {I : Type}

def write (s : ManagedPeer I) (m : SentMessage I) : ManagedPeer I := { s with sent := s.sent ++ [m] }

def close (s : ManagedPeer I) : ManagedPeer I := { s with writer := .closed }

/-- `ext_msg_ids`. -/
def extMsgIds (s : ManagedPeer I) : PeerExtendedMessageIds := s.extendedHandshake.getD fun _ => none

/-- One round of the loop of the writer. -/
def serve (f : ExtendedFormat) (s : ManagedPeer I) : WriterRequest → ManagedPeer I
  | .message => s.write .message
  | .extended e =>
    match f.serialize s.extMsgIds e with
    | some id => s.write (.extended e id)
    | none => s.close
  | .readChunkRequest => s.write .piece
  | .disconnect => s.close

def step (f : ExtendedFormat) (handler : PeerConnectionHandler I) (s : ManagedPeer I)
    (ev : PeerEvent) : Option (ManagedPeer I) :=
  match s.writer, ev with
  | .closed, _ => none
  | .bitfield, .writer =>
    some { (if handler.shouldSendBitfield then s.write .bitfield else s) with writer := .unchoke }
  | .unchoke, .writer => some { s.write .unchoke with writer := .requests }
  | .requests, .writer => none
  | .requests, .request r => some (s.serve f r)
  | _, .request _ => none
  | _, .extendedHandshake ids => some { s with extendedHandshake := some ids }
  | _, .received => some s
  | _, .fail => some s.close

end ManagedPeer

end PeerConnection

end Rtbit
