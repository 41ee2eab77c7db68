import Rtbit.Spec.DiskWrites

/-! Several nodes with one torrent. A node answers the requests it has accepted
(`on_download_request`, `task_upload_scheduler` and the writer of a connection) with what it reads
from its own files. A `Piece` message that was sent reaches any node, any number of times and in
any order; other messages come from outside with whatever data. -/

namespace Rtbit

open Lib

structure Exchange (N : Type) (l : Lengths) where
  nodes : N → DiskWrites l
  /-- The chunks that wait for the upload scheduler or for the writer, with their node. -/
  uploads : List (N × ChunkInfo)
  /-- The `Piece` messages that were sent. -/
  sent : List (PieceMsg × List UInt8)

inductive ExchangeOp (N : Type) (l : Lengths) where
  | onDownloadRequest (i : N) (request : PieceMsg)
  /-- The writer comes to the `ReadChunkRequest` at `k`; `writeBuf` is what its buffer holds. -/
  | readChunkRequest (k : ℕ) (writeBuf : List UInt8)
  /-- The message at `k` reaches a node, cut in two by its read buffer. -/
  | deliver (k : ℕ) (i : N) (peer : PeerHandle) (cut : ℕ)
  /-- A message from outside. -/
  | receive (i : N) (peer : PeerHandle) (m : PieceMsg) (data : List UInt8 × List UInt8)
  /-- Any other step of a node. -/
  | node (i : N) (op : DiskOp l)

def DiskOp.isRecv {l : Lengths} : DiskOp l → Bool
  | .recv _ _ _ => true
  | _ => false

namespace Exchange

variable {N : Type} [DecidableEq N] {l : Lengths} {B H : Type} [DecidableEq H]

def start (chunks : N → ChunkTracker l) (storage : N → Storage) : Exchange N l :=
  ⟨fun i => .start (chunks i) (storage i), [], []⟩

def setNode (s : Exchange N l) (i : N) (n : DiskWrites l) : Exchange N l :=
  { s with nodes := Function.update s.nodes i n }

/-- `on_download_request`; `none` is an error, which ends the connection. -/
def onDownloadRequest (s : Exchange N l) (i : N) (request : PieceMsg) : Option (Exchange N l) :=
  (l.validatePieceIndex request.index).bind fun pieceIndex =>
    (l.chunkInfoFromReceivedData pieceIndex request.start request.len).bind fun chunkInfo =>
      -- `is_chunk_ready_to_upload`
      if (s.nodes i).writes.pieces.chunks.isPieceHave pieceIndex then
        some { s with uploads := s.uploads ++ [(i, chunkInfo)] }
      else none

/-- An error of `read_chunk` ends the connection; nothing is sent. -/
def readChunkRequest (fs : List FileInfo) (f : ChunkOps.PieceFormat) (s : Exchange N l) (k : ℕ)
    (writeBuf : List UInt8) : Option (Exchange N l) :=
  if writeBuf.length = f.maxMsgLen then
    (s.uploads[k]?).map fun (i, chunk) =>
      match (ChunkOps.readChunkRequest f l fs (s.nodes i).storage chunk writeBuf).2 with
      | .error _ => { s with uploads := s.uploads.eraseIdx k }
      | .ok b =>
        { s with
          uploads := s.uploads.eraseIdx k
          sent := s.sent ++ [(⟨chunk.pieceIndex, chunk.offset, chunk.size⟩,
            b.drop (f.preamble chunk).length)] }
  else none

def step (fs : List FileInfo) (ph : PieceHash H) (d : DoubleBufHelper B) (f : ChunkOps.PieceFormat)
    (s : Exchange N l) : ExchangeOp N l → Option (Exchange N l)
  | .onDownloadRequest i request => s.onDownloadRequest i request
  | .readChunkRequest k writeBuf => s.readChunkRequest fs f k writeBuf
  | .deliver k i peer cut =>
    (s.sent[k]?).bind fun (m, b) =>
      ((s.nodes i).step fs ph d (.recv peer m (b.take cut, b.drop cut))).map (s.setNode i)
  | .receive i peer m data => ((s.nodes i).step fs ph d (.recv peer m data)).map (s.setNode i)
  | .node i op => if op.isRecv then none else ((s.nodes i).step fs ph d op).map (s.setNode i)

end Exchange

end Rtbit
