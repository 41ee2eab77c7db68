import Rtbit.Spec.ChunkTracker

/-! One peer connection as its requests go (`PeerHandler` in `peer_handler.rs`): the chunk
requester with its semaphore, the messages on the wire, the remote peer and the handler of its
Piece messages. Other peers reach into it with `on_steal`. -/

namespace Rtbit

/-- What the writer sends to the peer for a chunk: index, offset and size of it. -/
inductive WireMsg where
  | request (c : ChunkInfo)
  | cancel (c : ChunkInfo)
  deriving DecidableEq, Repr

/-- The Piece message that answers a Request for the chunk. -/
def ChunkInfo.answer (c : ChunkInfo) : PieceMsg := ⟨c.pieceIndex, c.offset, c.size⟩

/-- `task_peer_chunk_requester`. -/
inductive RequestLoop where
  | idle
  /-- In the loop over the chunks of the acquired piece. -/
  | requesting (chunks : List ChunkInfo)
  /-- `chunk` is in `inflight_requests`; the rate limits and a permit come next. -/
  | waiting (chunk : ChunkInfo) (chunks : List ChunkInfo)
  deriving DecidableEq, Repr

/-- How `on_received_piece` fails before it writes to disk. -/
inductive PieceError where
  /-- "peer sent an invalid piece {index}" -/
  | invalidIndex
  /-- "peer sent us an invalid piece {piece}" -/
  | invalidPiece
  /-- "peer sent us a piece we did not ask" -/
  | notAsked
  deriving DecidableEq, Repr

structure Connection where
  inflightRequests : List ChunkInfo
  requester : RequestLoop
  iAmChoked : Bool
  /-- The available permits of `requests_sem`. -/
  requestsSem : ℕ
  /-- Sent and not yet received by the peer, in order. -/
  toPeer : List WireMsg
  /-- The Requests that the peer has received and not answered. -/
  unanswered : List ChunkInfo
  /-- Piece messages on the way to us, in order. -/
  replies : List PieceMsg
  /-- The Requests whose permit was taken, neither answered by a Piece nor cancelled by us. -/
  outstanding : List ChunkInfo
  /-- Unchoke messages received. -/
  unchokes : ℕ
  /-- The error that ends the connection. -/
  failed : Option PieceError
  deriving DecidableEq, Repr

inductive ConnectionEvent where
  | unchoke
  | choke
  /-- `acquire_next_piece` returns the piece, reserved or stolen. -/
  | acquire (piece : ℕ)
  | addRequest
  | sendRequest
  /-- The peer gets the next message; a Cancel may make it forget the Request. -/
  | peerReceives (forget : Bool)
  | peerSends (m : PieceMsg)
  | receive
  /-- Another peer has stolen the piece from this one. -/
  | onSteal (piece : ℕ)
  deriving DecidableEq, Repr

namespace Connection

def start : Connection := ⟨[], .idle, true, 0, [], [], [], [], 0, none⟩

/-- `on_i_am_unchoked`. -/
def onIAmUnchoked (s : Connection) : Connection :=
  { s with iAmChoked := false, requestsSem := s.requestsSem + 128, unchokes := s.unchokes + 1 }

/-- "add chunk request": the chunk is skipped if it is in flight already, or empty. -/
def addChunkRequest (s : Connection) (c : ChunkInfo) (chunks : List ChunkInfo) : Connection :=
  if c ∈ s.inflightRequests then { s with requester := .requesting chunks }
  else
    { s with
      inflightRequests := c :: s.inflightRequests
      requester := if c.size = 0 then .requesting chunks else .waiting c chunks }

/-- `requests_sem.acquire()`, `forget` and the Request. -/
def sendRequest (s : Connection) (c : ChunkInfo) (chunks : List ChunkInfo) : Connection :=
  { s with
    requester := .requesting chunks
    requestsSem := s.requestsSem - 1
    outstanding := c :: s.outstanding
    toPeer := s.toPeer ++ [.request c] }

/-- The peer sends `m`; if it has a Request that `m` answers, this one is answered. -/
def peerSends (s : Connection) (m : PieceMsg) : Connection :=
  { s with
    replies := s.replies ++ [m]
    unanswered := match s.unanswered.find? (fun c => c.answer = m) with
      | some c => s.unanswered.erase c
      | none => s.unanswered }

/-- `on_received_piece` up to the write. The permit is given back before the request is
looked up. -/
def onReceivedPiece (l : Lengths) (s : Connection) (m : PieceMsg) : Connection :=
  match l.validatePieceIndex m.index with
  | none => { s with failed := some .invalidIndex }
  | some p =>
    match l.chunkInfoFromReceivedData p m.start m.len with
    | none => { s with failed := some .invalidPiece }
    | some c =>
      let s := { s with requestsSem := s.requestsSem + 1, outstanding := s.outstanding.erase c }
      if c ∈ s.inflightRequests then { s with inflightRequests := s.inflightRequests.erase c }
      else { s with failed := some .notAsked }

/-- `PeerStates::on_steal`, for the peer that the piece is stolen from. -/
def onSteal (s : Connection) (piece : ℕ) : Connection :=
  let cancelled := s.inflightRequests.filter fun c => c.pieceIndex = piece
  { s with
    inflightRequests := s.inflightRequests.filter fun c => c.pieceIndex ≠ piece
    toPeer := s.toPeer ++ cancelled.map .cancel
    outstanding := s.outstanding.filter fun c => c ∉ cancelled }

def step (l : Lengths) (s : Connection) (e : ConnectionEvent) : Option Connection :=
  if s.failed.isSome then none
  else match e with
  | .unchoke => some s.onIAmUnchoked
  | .choke => some { s with iAmChoked := true }
  | .acquire p =>
    if s.requester = .idle ∧ s.iAmChoked = false ∧ p < l.totalPieces then
      some { s with requester := .requesting (l.iterChunkInfos p) }
    else none
  | .addRequest =>
    match s.requester with
    | .requesting [] => some { s with requester := .idle }
    | .requesting (c :: chunks) => some (s.addChunkRequest c chunks)
    | _ => none
  | .sendRequest =>
    match s.requester with
    | .waiting c chunks => if 0 < s.requestsSem then some (s.sendRequest c chunks) else none
    | _ => none
  | .peerReceives forget =>
    match s.toPeer with
    | .request c :: ms => some { s with toPeer := ms, unanswered := s.unanswered ++ [c] }
    | .cancel c :: ms =>
      some { s with toPeer := ms, unanswered := if forget then s.unanswered.erase c else s.unanswered }
    | [] => none
  | .peerSends m => some (s.peerSends m)
  | .receive =>
    match s.replies with
    | m :: ms => some (onReceivedPiece l { s with replies := ms } m)
    | [] => none
  | .onSteal p => some (s.onSteal p)

end Connection

end Rtbit
