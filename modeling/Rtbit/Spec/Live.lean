import Rtbit.Spec.WriteToDisk

/-! A live torrent with its peers (`TorrentStateLive`, `PeerStates`, `PeerHandler`): the
entries of the peer map, the manage-peer tasks with their chunk requesters, and the
`write_to_disk` runs below them. Every step is one critical section. A step on an entry of
the peer map needs the lock of that entry; `on_peer_died` keeps it from taking the state of
a live peer until it has released the peer's pieces. -/

namespace Rtbit

open Lib

structure LivePeerState where
  bitfield : Bits
  /-- `inflight_requests`; each with the value of `requeues` for its piece when it was made. -/
  inflightRequests : List (ChunkInfo × ℕ)

namespace LivePeerState

def new : LivePeerState := ⟨⟨[]⟩, []⟩

def hasFullTorrent (live : LivePeerState) (totalPieces : ℕ) : Bool :=
  decide (live.bitfield.InRange 0 totalPieces) && live.bitfield.all 0 totalPieces

def requested (live : LivePeerState) (chunk : ChunkInfo) : Bool :=
  live.inflightRequests.any fun r => r.1 == chunk

/-- `inflight_requests.insert(chunk)`. -/
def insert (live : LivePeerState) (chunk : ChunkInfo) (now : ℕ) : LivePeerState :=
  if live.requested chunk then live
  else { live with inflightRequests := (chunk, now) :: live.inflightRequests }

/-- `inflight_requests.remove(chunk)`. -/
def remove (live : LivePeerState) (chunk : ChunkInfo) : LivePeerState :=
  { live with inflightRequests := live.inflightRequests.filter fun r => r.1 != chunk }

/-- `inflight_requests.retain(|req| req.piece_index != piece)`. -/
def cancel (live : LivePeerState) (piece : ℕ) : LivePeerState :=
  { live with inflightRequests := live.inflightRequests.filter fun r => r.1.pieceIndex != piece }

end LivePeerState

inductive PeerState where
  | queued
  | connecting
  | live (p : LivePeerState)
  | dead
  | notNeeded

structure Peer where
  state : PeerState
  outgoingAddress : Option PeerHandle

/-- The changes of one entry of the peer map, `on_peer_died` and the requests apart. -/
inductive PeerMove where
  | addIfNotSeen
  | markPeerConnecting
  | connectingToLive
  | incomingConnection
  | updateBitfield (b : Bits)
  /-- The extended handshake of an incoming connection. -/
  | updateOutgoingAddr (out : PeerHandle)
  | disconnectFull
  | markPeerNotNeeded
  | deadToQueued
  | reconnectNotNeeded
  | prune

/-- The entry of `addr` after the change; `none` if the change does not apply. -/
def PeerMove.apply (totalPieces : ℕ) (addr : PeerHandle) :
    PeerMove → Option Peer → Option (Option Peer)
  | .addIfNotSeen, none => some (some ⟨.queued, some addr⟩)
  | .markPeerConnecting, some p =>
    match p.state with
    | .queued | .notNeeded => some (some { p with state := .connecting })
    | _ => none
  | .connectingToLive, some p =>
    match p.state with
    | .connecting => some (some { p with state := .live .new })
    | _ => none
  | .incomingConnection, none => some (some ⟨.live .new, none⟩)
  | .incomingConnection, some p =>
    match p.state with
    | .connecting | .live _ => none
    | _ => some (some { p with state := .live .new })
  | .updateBitfield b, some p =>
    match p.state with
    | .live live => some (some { p with state := .live { live with bitfield := b } })
    | _ => none
  | .updateOutgoingAddr out, some p => some (some { p with outgoingAddress := some out })
  | .disconnectFull, some p =>
    match p.state with
    | .live live =>
      if live.hasFullTorrent totalPieces then some (some { p with state := .notNeeded }) else none
    | _ => none
  | .markPeerNotNeeded, some p => some (some { p with state := .notNeeded })
  | .deadToQueued, some p =>
    match p.state with
    | .dead => some (some { p with state := .queued })
    | _ => none
  | .reconnectNotNeeded, some p =>
    match p.state with
    | .notNeeded =>
      if p.outgoingAddress = some addr then some (some { p with state := .queued }) else none
    | _ => none
  | .prune, some p =>
    match p.state with
    | .dead | .notNeeded => some none
    | _ => none
  | _, _ => none

/-- `task_peer_chunk_requester`. -/
inductive Requester (l : Lengths) where
  | idle
  /-- `acquire_next_piece` has stolen the piece and not yet called `on_steal`. -/
  | stealing (fromPeer : PeerHandle) (piece : ValidPieceIndex l)
  /-- In the loop over `iter_chunk_infos(piece)`, with the chunks still to request. -/
  | requesting (piece : ValidPieceIndex l) (chunks : List ChunkInfo)
  deriving DecidableEq

def Requester.isStealing {l : Lengths} : Requester l → Bool
  | .stealing _ _ => true
  | _ => false

/-- A manage-peer task; it ends with a call of `on_peer_died`. -/
structure PeerTask (l : Lengths) where
  addr : PeerHandle
  requester : Requester l

/-- A call of `on_peer_died` that has taken the state of its peer and holds the lock of the
entry; `error` if the peer died of one. -/
inductive Dying where
  /-- The peer was live: `release_pieces_owned_by` comes next. -/
  | releasing (error : Bool)
  /-- The new state comes next. -/
  | closing (error : Bool)
  deriving DecidableEq

structure Live (l : Lengths) where
  writes : Writes l
  peers : PeerHandle → Option Peer
  tasks : List (PeerTask l)
  dying : PeerHandle → Option Dying
  /-- Running calls of `disconnect_all_peers_that_have_full_torrent`, resp.
  `reconnect_all_not_needed_peers`. -/
  disconnecting : ℕ
  reconnecting : ℕ
  /-- How often the piece has left the in-flight map or entered the queue. -/
  requeues : ValidPieceIndex l → ℕ

inductive LiveOp (l : Lengths) where
  | peer (a : PeerHandle) (m : PeerMove)
  | acquire (i : ℕ) (req : AcquireRequest l)
  | onSteal (i : ℕ)
  | addRequest (i : ℕ)
  | receive (i : ℕ) (m : PieceMsg)
  | write (j : ℕ) (e : RunStep) (activeStreams : Bool)
  | disconnected
  | died (i : ℕ) (error : Bool)
  | release (a : PeerHandle)
  | close (a : PeerHandle) (activeStreams : Bool)
  | updateOnlyFiles (only : Finset ℕ)
  | reconnected

namespace Live

variable {l : Lengths}

def start (chunks : ChunkTracker l) : Live l :=
  ⟨Writes.start chunks, fun _ => none, [], fun _ => none, 0, 0, fun _ => 0⟩

def owner (s : Live l) : ValidPieceIndex l → Option PeerHandle := s.writes.pieces.owner

def isFinished (s : Live l) : Bool := s.writes.pieces.chunks.isFinished

/-- The live state in the entry of `a`, if nobody holds the lock of the entry. -/
def getLive (s : Live l) (a : PeerHandle) : Option LivePeerState :=
  match s.dying a, s.peers a with
  | none, some ⟨.live live, _⟩ => some live
  | _, _ => none

def setPeer (s : Live l) (a : PeerHandle) (p : Option Peer) : Live l :=
  { s with peers := Function.update s.peers a p }

def setState (s : Live l) (a : PeerHandle) (st : PeerState) : Live l :=
  s.setPeer a ((s.peers a).map fun p => { p with state := st })

/-- `take_state` in `on_peer_died`: the entry is queued, and stays locked. -/
def take (s : Live l) (a : PeerHandle) (d : Dying) : Live l :=
  { s.setState a .queued with dying := Function.update s.dying a (some d) }

/-- The first section of `on_peer_died`. -/
def onPeerDied (s : Live l) (a : PeerHandle) (error : Bool) : Live l :=
  match (s.peers a).map Peer.state with
  | none => s
  | some (.live _) => s.take a (.releasing error)
  | some .connecting => s.take a (.closing error)
  | some .notNeeded => s
  -- "peer was in a wrong state, ignoring it forever"
  | some .queued | some .dead => s.setPeer a none

def setRequester (s : Live l) (i : ℕ) (r : Requester l) : Live l :=
  { s with tasks := s.tasks.modify i fun t => { t with requester := r } }

/-- The piece has left the in-flight map or entered the queue. -/
def requeued (t t' : PieceTracker l) (p : ValidPieceIndex l) : Bool :=
  (t.owner p).isSome && (t'.owner p).isNone ||
    !t.chunks.queuePieces.get p && t'.chunks.queuePieces.get p

def setWrites (s : Live l) (w : Writes l) : Live l :=
  { s with
    writes := w
    requeues := fun p => s.requeues p + (requeued s.writes.pieces w.pieces p).toNat }

/-- `acquire_next_piece` fills in the requesting peer. -/
def request (fileInfos : List FileInfo) (a : PeerHandle) (live : LivePeerState)
    (req : AcquireRequest l) : AcquireRequest l :=
  { req with peer := a, peerHasPiece := fun p => live.bitfield.get p, fileInfos := fileInfos }

/-- What `acquire_piece` returns there. -/
def acquired (fileInfos : List FileInfo) (s : Live l) (a : PeerHandle) (live : LivePeerState)
    (req : AcquireRequest l) : AcquireResult l :=
  (s.writes.pieces.acquirePiece (s.writes.request (request fileInfos a live req))).1

/-- The next state of the requester. -/
def nextRequester : AcquireResult l → Requester l
  | .reserved p => .requesting p (l.iterChunkInfos p)
  | .stolen p a => .stealing a p
  | .noneAvailable => .idle

/-- The state `on_peer_died` leaves a peer in. -/
def deadState (s : Live l) (error activeStreams : Bool) : PeerState :=
  if error && !(s.isFinished && !activeStreams) then .dead else .notNeeded

/-- The manage-peer task that goes with the entry's new state. -/
def spawned (a : PeerHandle) : PeerMove → List (PeerTask l)
  | .markPeerConnecting | .incomingConnection => [⟨a, .idle⟩]
  | _ => []

/-- The peer map is swept only by the two functions that do so. -/
def allowed (s : Live l) : PeerMove → Bool
  | .disconnectFull => decide (0 < s.disconnecting)
  | .reconnectNotNeeded => decide (0 < s.reconnecting)
  | _ => true

def step (fileInfos : List FileInfo) (s : Live l) : LiveOp l → Option (Live l)
  | .peer a m =>
    if s.dying a = none ∧ s.allowed m = true then
      (m.apply l.totalPieces a (s.peers a)).map fun p =>
        { s.setPeer a p with tasks := s.tasks ++ spawned a m }
    else none
  | .acquire i req =>
    s.tasks[i]?.bind fun t =>
      match t.requester with
      | .idle =>
        (s.getLive t.addr).bind fun live =>
          (s.writes.step fileInfos (.acquire (request fileInfos t.addr live req))).map fun w =>
            (s.setWrites w).setRequester i (nextRequester (s.acquired fileInfos t.addr live req))
      | _ => none
  | .onSteal i =>
    s.tasks[i]?.bind fun t =>
      match t.requester with
      | .stealing a p =>
        -- the entry of the victim is locked while its `on_peer_died` runs
        if s.dying a = none then
          let s := match s.getLive a with
            | some live => s.setState a (.live (live.cancel p))
            | none => s
          some (s.setRequester i (.requesting p (l.iterChunkInfos p)))
        else none
      | _ => none
  | .addRequest i =>
    s.tasks[i]?.bind fun t =>
      match t.requester with
      | .requesting p (c :: chunks) =>
        (s.getLive t.addr).map fun live =>
          (s.setState t.addr (.live (live.insert c (s.requeues p)))).setRequester i
            (if chunks.isEmpty then .idle else .requesting p chunks)
      | _ => none
  | .receive i m =>
    s.tasks[i]?.bind fun t =>
      (l.validatePieceIndex m.index).bind fun p =>
        (l.chunkInfoFromReceivedData p m.start m.len).bind fun c =>
          (s.getLive t.addr).bind fun live =>
            if live.requested c then
              (s.writes.step fileInfos (.recv t.addr m)).map fun w =>
                { s.setState t.addr (.live (live.remove c)) with writes := w }
            else none
  | .write j e activeStreams =>
    (s.writes.step fileInfos (.run j e)).map fun w =>
      let s' := s.setWrites w
      if e = .completed ∧ s'.isFinished = true ∧ activeStreams = false then
        { s' with disconnecting := s.disconnecting + 1 }
      else s'
  | .disconnected =>
    if 0 < s.disconnecting then some { s with disconnecting := s.disconnecting - 1 } else none
  | .died i error =>
    s.tasks[i]?.bind fun t =>
      -- `acquire_next_piece` calls `on_steal` before it returns
      if t.requester.isStealing = false ∧ s.dying t.addr = none then
        some (onPeerDied { s with tasks := s.tasks.eraseIdx i } t.addr error)
      else none
  | .release a =>
    match s.dying a with
    | some (.releasing error) =>
      (s.writes.step fileInfos (.die a)).map fun w =>
        { s.setWrites w with dying := Function.update s.dying a (some (.closing error)) }
    | _ => none
  | .close a activeStreams =>
    match s.dying a with
    | some (.closing error) =>
      some { s.setState a (s.deadState error activeStreams) with dying := Function.update s.dying a none }
    | _ => none
  | .updateOnlyFiles only =>
    (s.writes.step fileInfos (.updateOnlyFiles only)).map fun w =>
      let s' := s.setWrites w
      if s'.isFinished then s' else { s' with reconnecting := s.reconnecting + 1 }
  | .reconnected =>
    if 0 < s.reconnecting then some { s with reconnecting := s.reconnecting - 1 } else none

end Live

end Rtbit
