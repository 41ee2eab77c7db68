import Rtbit.Spec.ChunkTracker
import Rtbit.Spec.Limits

/-! The way of a request through a torrent: `on_download_request`, the queue of
`task_upload_scheduler` that all connections share, and the queue of the writer of its connection.
What the limits and the connections do in between is an input. -/

namespace Rtbit

namespace UploadQueue

/-- What a connection's `outgoing_chan` holds; `message` is any other request to the writer. -/
inductive WriterRequest where
  | readChunkRequest (chunk : ChunkInfo)
  | message
  deriving DecidableEq, Repr

structure Connection where
  /-- Which `PeerCounters` the handler has. -/
  counters : ℕ
  /-- `none` after the connection has ended: `tx.closed()`. -/
  outgoingChan : Option (List WriterRequest)
  /-- The chunk that the writer reads and writes. -/
  writing : Option ChunkInfo
  /-- The requests that were put into the queue, and the answers that were written. -/
  accepted : List PieceMsg
  sent : List PieceMsg
  deriving DecidableEq, Repr

/-- Where `task_upload_scheduler` is, with the request that it has received. -/
inductive SchedulerStage where
  | recv
  | acquire (level : Level) (conn : ℕ) (chunk : ChunkInfo)
  | send (conn : ℕ) (chunk : ChunkInfo)
  /-- It has returned an error, or was cancelled. -/
  | ended
  deriving DecidableEq, Repr

/-- What comes of an await of the scheduler. -/
inductive Awaited where
  | ready
  /-- The branch `tx.closed()`. -/
  | closed
  /-- There is no session any more. -/
  | sessionGone
  | failed
  deriving DecidableEq, Repr

structure Uploads where
  /-- `ratelimit_upload_tx`. -/
  queue : List (ℕ × ChunkInfo)
  scheduler : SchedulerStage
  conns : List Connection
  /-- `uploaded_bytes` of the torrent and of the `PeerCounters`. -/
  uploadedBytes : ℕ
  peerBytes : ℕ → ℕ

inductive UploadEvent where
  | connect (counters : ℕ)
  /-- `ready`: uploading is not disabled, and `is_chunk_ready_to_upload`. -/
  | onDownloadRequest (c : ℕ) (request : PieceMsg) (ready : Bool)
  | schedule (a : Awaited)
  /-- Something else is put into `outgoing_chan`. -/
  | push (c : ℕ)
  /-- The writer takes the next request. -/
  | recv (c : ℕ)
  /-- It has written the answer. -/
  | written (c : ℕ)
  /-- An error of the reader or of the writer, or a disconnect. -/
  | close (c : ℕ)
  deriving DecidableEq, Repr

/-- The `Piece` message for a chunk, without the data. -/
def pieceOf (chunk : ChunkInfo) : PieceMsg := ⟨chunk.pieceIndex, chunk.offset, chunk.size⟩

namespace Connection

def new (counters : ℕ) : Connection := ⟨counters, some [], none, [], []⟩

def close (conn : Connection) : Connection := { conn with outgoingChan := none, writing := none }

def isOpen (conn : Connection) : Bool := conn.outgoingChan.isSome

/-- `tx.send`; its error is ignored where it is called. -/
def send (conn : Connection) (r : WriterRequest) : Connection :=
  { conn with outgoingChan := conn.outgoingChan.map (· ++ [r]) }

end Connection

namespace Uploads

def start : Uploads := ⟨[], .recv, [], 0, fun _ => 0⟩

def setConn (s : Uploads) (c : ℕ) (conn : Connection) : Uploads :=
  { s with conns := s.conns.set c conn }

/-- The chunk that is asked for, if the request is valid. -/
def requested (l : Lengths) (request : PieceMsg) : Option ChunkInfo :=
  (l.validatePieceIndex request.index).bind fun pieceIndex =>
    l.chunkInfoFromReceivedData pieceIndex request.start request.len

/-- An error ends the connection. -/
def onDownloadRequest (l : Lengths) (s : Uploads) (c : ℕ) (request : PieceMsg) (ready : Bool)
    (conn : Connection) : Uploads :=
  match requested l request with
  | none => s.setConn c conn.close
  | some chunk =>
    if ready && s.scheduler ≠ .ended then
      { s.setConn c { conn with accepted := conn.accepted ++ [request] } with
        queue := s.queue ++ [(c, chunk)] }
    else s.setConn c conn.close

/-- One await of `task_upload_scheduler`, or the `send` at the end of its loop. -/
def schedule (s : Uploads) : SchedulerStage → Awaited → Option Uploads
  | .recv, .ready =>
    match s.queue with
    | [] => none
    | (c, chunk) :: queue => some { s with queue := queue, scheduler := .acquire .torrent c chunk }
  | .acquire .torrent c chunk, .ready => some { s with scheduler := .acquire .session c chunk }
  | .acquire .session c chunk, .ready | .acquire .session c chunk, .sessionGone =>
    some { s with scheduler := .send c chunk }
  | .acquire _ c _, .closed =>
    if (s.conns[c]?).any Connection.isOpen then none else some { s with scheduler := .recv }
  | .send c chunk, .ready =>
    some { s with scheduler := .recv, conns := s.conns.modify c (·.send (.readChunkRequest chunk)) }
  | .recv, .failed | .acquire _ _ _, .failed => some { s with scheduler := .ended }
  | _, _ => none

/-- `on_uploaded_bytes`. -/
def onUploadedBytes (s : Uploads) (counters bytes : ℕ) : Uploads :=
  { s with
    uploadedBytes := s.uploadedBytes + bytes
    peerBytes := Function.update s.peerBytes counters (s.peerBytes counters + bytes) }

/-- The loop of the writer takes what is next. -/
def writerRecv (s : Uploads) (c : ℕ) (conn : Connection) : Option Uploads :=
  match conn.writing, conn.outgoingChan with
  | none, some (.message :: rest) => some (s.setConn c { conn with outgoingChan := some rest })
  | none, some (.readChunkRequest chunk :: rest) =>
    some (s.setConn c { conn with outgoingChan := some rest, writing := some chunk })
  | _, _ => none

def written (s : Uploads) (c : ℕ) (conn : Connection) : Option Uploads :=
  conn.writing.map fun chunk =>
    (s.setConn c { conn with writing := none, sent := conn.sent ++ [pieceOf chunk] }).onUploadedBytes
      conn.counters chunk.size

/-- The connection, while it lasts. -/
def opened (s : Uploads) (c : ℕ) : Option Connection := (s.conns[c]?).filter Connection.isOpen

def step (l : Lengths) (s : Uploads) : UploadEvent → Option Uploads
  | .connect counters => some { s with conns := s.conns ++ [.new counters] }
  | .onDownloadRequest c request ready =>
    (s.opened c).map (s.onDownloadRequest l c request ready)
  | .schedule a => s.schedule s.scheduler a
  | .push c => (s.opened c).map fun conn => s.setConn c (conn.send .message)
  | .recv c => (s.opened c).bind (s.writerRecv c)
  | .written c => (s.opened c).bind (s.written c)
  | .close c => (s.opened c).map fun conn => s.setConn c conn.close

end Uploads

end UploadQueue

end Rtbit
