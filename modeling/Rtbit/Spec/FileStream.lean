import Rtbit.Spec.FileOps
import Rtbit.Spec.Streams

/-! One `FileStream` (`streaming.rs`) and the `TorrentStreams` it is registered in: its reads, with
the bytes that they return, and its seeks. The position stands in the stream and in its entry. -/

namespace Rtbit

namespace Streaming

open Streams (CurrentPiece)

inductive SeekFrom where
  | start (s : UInt64)
  | end_ (e : Int64)
  | current (o : Int64)

structure StreamState where
  fileId : ℕ
  fileLen : ℕ
  fileAbsOffset : ℕ
  position : ℕ
  /-- A waker is registered. -/
  waker : Bool
  deriving DecidableEq, Repr

structure TorrentStreams where
  nextStreamId : ℕ
  streams : ℕ → Option StreamState

structure FileStream where
  streamId : ℕ
  fileId : ℕ
  position : ℕ
  fileLen : ℕ
  fileTorrentAbsOffset : ℕ
  deriving DecidableEq, Repr

/-- A stream, with the streams of its torrent. -/
structure Handle where
  stream : FileStream
  streams : TorrentStreams

inductive PollRead where
  | pending
  | err
  | ok (bytes : List UInt8)
  deriving DecidableEq, Repr

variable {l : Lengths} (computeCurrentPiece : ℕ → ℕ → Option (CurrentPiece l))

/-- `u64` to `i64`; `none` is an error. -/
def toI64 (n : ℕ) : Option ℤ := if n < 2 ^ 63 then some n else none

/-- The sum in `i64`, in two's complement. -/
def i64Add (a b : ℤ) : ℤ := (a + b).bmod (2 ^ 64)

/-- The end of `stream`. -/
def TorrentStreams.open (t : TorrentStreams) (fileId : ℕ) (fi : FileInfo) : Handle where
  stream := ⟨t.nextStreamId, fileId, 0, fi.len, fi.offsetInTorrent⟩
  streams :=
    { nextStreamId := t.nextStreamId + 1
      streams := Function.update t.streams t.nextStreamId
        (some ⟨fileId, fi.len, fi.offsetInTorrent, 0, false⟩) }

namespace Handle

/-- The entry of the stream. -/
def state (h : Handle) : Option StreamState := h.streams.streams h.stream.streamId

def setState (h : Handle) (st : StreamState) : Handle :=
  { h with
    streams :=
      { h.streams with
        streams := Function.update h.streams.streams h.stream.streamId (some st) } }

def registerWaker (h : Handle) : Handle :=
  match h.state with
  | some st => h.setState { st with waker := true }
  | none => h

/-- `none`: the entry is missing, and the `unwrap` panics. -/
def setPosition (h : Handle) (newPos : ℕ) : Option Handle :=
  h.state.map fun st =>
    { stream := { h.stream with position := newPos }
      streams := (h.setState { st with position := newPos }).streams }

def advance (h : Handle) (diff : ℕ) : Option Handle :=
  h.setPosition ((h.stream.position + diff) % 2 ^ 64)

/-- `poll_read` into a buffer of `bufLen` bytes; `none` is a panic. `havePieces` is what
`with_chunk_tracker` finds and `storage` what `with_storage_and_file` finds, if these succeed. -/
def pollRead (h : Handle) (bufLen : ℕ) (havePieces : Option (ValidPieceIndex l → Bool))
    (storage : Option Storage) : Option (PollRead × Handle) :=
  if h.stream.position = h.stream.fileLen then some (.ok [], h)
  else
    match computeCurrentPiece h.stream.position h.stream.fileTorrentAbsOffset, havePieces with
    | none, _ => some (.err, h)
    | some _, none => some (.err, h)
    | some current, some havePieces =>
      if havePieces current.id then
        let fileRemaining := u64Sub h.stream.fileLen h.stream.position
        let bytesToRead := min (min bufLen current.pieceRemaining) fileRemaining
        match storage.bind fun st =>
          st.preadExact h.stream.fileId h.stream.position bytesToRead with
        | none => some (.err, h)
        | some bytes => (h.advance bytesToRead).map fun h => (.ok bytes, h)
      else some (.pending, h.registerWaker)

/-- The position that a seek asks for. -/
def newPos (h : Handle) : SeekFrom → Option ℤ
  | .start s => toI64 s.toNat
  | .end_ e => (toI64 h.stream.fileLen).map fun n => i64Add n e.toInt
  | .current o => (toI64 h.stream.position).map fun n => i64Add n o.toInt

/-- `start_seek`, and whether it has succeeded; `none` is a panic. -/
def startSeek (h : Handle) (position : SeekFrom) : Option (Bool × Handle) :=
  match toI64 h.stream.fileLen, h.newPos position with
  | none, _ => some (false, h)
  | some _, none => some (false, h)
  | some endI64, some newPos =>
    if newPos < 0 ∨ newPos > endI64 then some (false, h)
    else (h.setPosition newPos.toNat).map fun h => (true, h)

end Handle

/-- What happens to a stream, and to the entries of the streams. -/
inductive Event (l : Lengths) where
  | seek (position : SeekFrom)
  | read (bufLen : ℕ) (havePieces : Option (ValidPieceIndex l → Bool)) (storage : Option Storage)
  /-- `wake_streams_on_piece_completed` takes the waker. -/
  | wake
  /-- Another stream is opened, dropped, read or sought in. -/
  | other (streamId : ℕ) (st : Option StreamState)

def step (h : Handle) : Event l → Option Handle
  | .seek position => (h.startSeek position).map Prod.snd
  | .read bufLen havePieces storage =>
    (h.pollRead computeCurrentPiece bufLen havePieces storage).map Prod.snd
  | .wake =>
    match h.state with
    | some st => some (h.setState { st with waker := false })
    | none => some h
  | .other streamId st =>
    if streamId = h.stream.streamId then none
    else
      some { h with
        streams := { h.streams with streams := Function.update h.streams.streams streamId st } }

end Streaming

end Rtbit
