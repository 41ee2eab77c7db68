import Rtbit.Spec.Chunks
import Rtbit.Spec.WriteToDisk

/-! The runs of `write_to_disk` together with the files they write to. Each run carries the data
of its `Piece` message; `write_chunk` puts it into the files, which decides how the run goes on,
and `check_piece` reads them back. `check_piece` reads at the moment its result is used: that no
byte of the piece changes while it runs is part of what is proved. -/

namespace Rtbit

open Lib

/-- What `iter_chunk_infos` of `librtbit-core` yields for a piece: chunks of the piece that cover
it. -/
structure Lengths.Tiled (l : Lengths) : Prop where
  valid : ∀ p < l.totalPieces, ∀ c ∈ l.iterChunkInfos p, c.Valid l
  covers : ∀ p < l.totalPieces, ∀ k < l.pieceLength p,
    ∃ c ∈ l.iterChunkInfos p, c.offset ≤ k ∧ k < c.offset + c.size

/-- The storage as `write_chunk` leaves it. -/
def ChunkOps.leftBy : Except ChunkOps.WriteChunkError Storage → Storage
  | .ok st => st
  | .error e => e.storage

/-- The result of `check_piece` as `write_to_disk` tells it apart. -/
def CheckResult.of : Except FileOps.CheckError Bool → CheckResult
  | .ok true => .ok
  | .ok false => .failed
  | .error _ => .ioError

structure DiskWrites (l : Lengths) where
  writes : Writes l
  /-- The data of the message of each run. -/
  data : List (List UInt8 × List UInt8)
  storage : Storage

inductive DiskOp (l : Lengths) where
  | recv (peer : PeerHandle) (m : PieceMsg) (data : List UInt8 × List UInt8)
  /-- `write_chunk` of run `i`; `rejects` are the writes that fail. -/
  | write (i : ℕ) (rejects : ℕ → ℕ → ℕ → Bool)
  /-- Run `i` learns the result of `check_piece`. -/
  | hashed (i : ℕ)
  /-- The reads that fail are other ones from now on. -/
  | faults (fails : ℕ → ℕ → ℕ → Bool)
  /-- A step that does not touch the files. -/
  | tracker (op : WriteOp l)

/-- The steps that go through the files. -/
def WriteOp.onFiles {l : Lengths} : WriteOp l → Bool
  | .recv _ _ | .run _ (.write _) | .run _ (.hashed _) => true
  | _ => false

namespace DiskWrites

variable {l : Lengths} {B H : Type} [DecidableEq H]

def start (chunks : ChunkTracker l) (storage : Storage) : DiskWrites l :=
  ⟨Writes.start chunks, [], storage⟩

/-- The chunk that the message of a run carries. -/
def chunkInfo (r : WriteRun l) : Option ChunkInfo :=
  l.chunkInfoFromReceivedData r.piece r.msg.start r.msg.len

def step (fs : List FileInfo) (ph : PieceHash H) (d : DoubleBufHelper B) (s : DiskWrites l) :
    DiskOp l → Option (DiskWrites l)
  | .recv peer m data =>
    if (data.1 ++ data.2).length = m.len then
      (s.writes.step fs (.recv peer m)).map fun w =>
        { s with writes := w, data := s.data ++ [data] }
    else none
  | .write i rejects =>
    s.writes.runs[i]?.bind fun r => s.data[i]?.bind fun data => (chunkInfo r).bind fun c =>
      let written := ChunkOps.writeChunk rejects d l fs s.storage c data
      (s.writes.step fs (.run i (.write written.toBool))).map fun w =>
        { s with writes := w, storage := ChunkOps.leftBy written }
  | .hashed i =>
    s.writes.runs[i]?.bind fun r =>
      let checked := CheckResult.of (FileOps.checkPiece l fs s.storage ph r.piece)
      (s.writes.step fs (.run i (.hashed checked))).map fun w => { s with writes := w }
  | .faults fails => some { s with storage := { s.storage with fails := fails } }
  | .tracker op =>
    if op.onFiles then none else (s.writes.step fs op).map fun w => { s with writes := w }

/-- Some run holds the piece between `take_inflight` and its hash result. -/
def Checking (s : DiskWrites l) (p : ValidPieceIndex l) : Prop :=
  ∃ r ∈ s.writes.runs, r.piece = p ∧ r.phase.inWindow = true

def IsHave (s : DiskWrites l) (p : ValidPieceIndex l) : Prop :=
  s.writes.pieces.chunks.havePieces.get p = true

end DiskWrites

/-! What the files should hold. -/

/-- The bytes of a piece of the torrent whose bytes are `content`. -/
def Lengths.pieceOf (l : Lengths) (content : List UInt8) (p : ℕ) : List UInt8 :=
  (content.drop (p * l.defaultPieceLength)).take (l.pieceLength p)

/-- The torrent is made of `content`, and no other bytes have the hash of one of its pieces. -/
structure PieceHash.HashesOf {H : Type} (ph : PieceHash H) (l : Lengths) (content : List UInt8) :
    Prop where
  length : content.length = l.totalLength
  expected : ∀ p < l.totalPieces, ph.expected p = some (ph.hash (l.pieceOf content p))
  collisionFree : ∀ p < l.totalPieces, ∀ b, ph.hash b = ph.hash (l.pieceOf content p) →
    b = l.pieceOf content p

end Rtbit
