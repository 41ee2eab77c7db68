import Rtbit.Spec.FileOps

/-! `read_chunk` and `write_chunk` of `file_ops.rs`, and the branch of the peer writer that
answers a request (`peer_connection.rs`). Both walk over the files like `check_piece`, one
call of the storage a file. `DoubleBufHelper` and the serialization of a `Piece` message come
from the crate `librtbit-peer-protocol`, which is not part of this repository. -/

namespace Rtbit

/-- `chunk_absolute_offset`. -/
def Lengths.chunkAbsoluteOffset (l : Lengths) (c : ChunkInfo) : ℕ :=
  c.pieceIndex * l.defaultPieceLength + c.offset

/-- A chunk of a piece of the torrent. -/
structure ChunkInfo.Valid (l : Lengths) (c : ChunkInfo) : Prop where
  piece_lt : c.pieceIndex < l.totalPieces
  end_le : c.offset + c.size ≤ l.pieceLength c.pieceIndex
  size_le : c.size ≤ chunkSize

namespace Storage

/-- `pread_exact` as `read_chunk` calls it: an empty buffer can be read from every file. -/
def readAt (st : Storage) (fileId offset n : ℕ) : Option (List UInt8) :=
  if n = 0 then some [] else st.preadExact fileId offset n

/-- The bytes of a file after a write; a file that is too short grows, with zeros up to the
offset. -/
def overwrite (bytes : List UInt8) (offset : ℕ) (buf : List UInt8) : List UInt8 :=
  bytes.take offset ++ List.replicate (offset - bytes.length) 0 ++ buf ++
    bytes.drop (offset + buf.length)

variable (rejects : ℕ → ℕ → ℕ → Bool)

/-- `pwrite_all`; `rejects` are the writes that fail. Nothing is written of an empty buffer. -/
def pwriteAll (st : Storage) (fileId offset : ℕ) (buf : List UInt8) : Option Storage :=
  if buf = [] then some st
  else if rejects fileId offset buf.length then none
  else
    some { st with
      contents := Function.update st.contents fileId (overwrite (st.contents fileId) offset buf) }

/-- `pwrite_all_vectored`. On an error the storage is as the first slice has left it. -/
def pwriteAllVectored (st : Storage) (fileId offset : ℕ) (bufs : List UInt8 × List UInt8) :
    Except Storage Storage :=
  match pwriteAll rejects st fileId offset bufs.1 with
  | none => .error st
  | some st =>
    match pwriteAll rejects st fileId (offset + bufs.1.length) bufs.2 with
    | none => .error st
    | some st => .ok st

end Storage

/-- `DoubleBufHelper`: the data of a `Piece` message, in two slices. `bytes` is what is left of
it. -/
structure DoubleBufHelper (B : Type) where
  new : List UInt8 → List UInt8 → B
  len : B → ℕ
  asIoslices : B → ℕ → List UInt8 × List UInt8
  advance : B → ℕ → B
  bytes : B → List UInt8
  bytes_new : ∀ first second, bytes (new first second) = first ++ second
  len_eq : ∀ b, len b = (bytes b).length
  ioslices_eq : ∀ b n, n ≤ len b → (asIoslices b n).1 ++ (asIoslices b n).2 = (bytes b).take n
  bytes_advance : ∀ b n, n ≤ len b → bytes (advance b n) = (bytes b).drop n

namespace DoubleBufHelper

/-- Two slices, the second of which is looked at when the first is used up. -/
def slices : DoubleBufHelper (List UInt8 × List UInt8) where
  new first second := (first, second)
  len b := b.1.length + b.2.length
  asIoslices b n := (b.1.take n, b.2.take (n - b.1.length))
  advance b n := (b.1.drop n, b.2.drop (n - b.1.length))
  bytes b := b.1 ++ b.2
  bytes_new _ _ := rfl
  len_eq b := by simp
  ioslices_eq b n _ := by simp [List.take_append]
  bytes_advance b n _ := by simp [List.drop_append]

end DoubleBufHelper

namespace ChunkOps

/-- A call of `pread_exact` with a buffer of `len` bytes. -/
structure ReadCall where
  fileId : ℕ
  offset : ℕ
  len : ℕ
  deriving DecidableEq, Repr

inductive ReadChunkError where
  /-- "read_chunk(): not enough capacity in the provided buffer" -/
  | capacity
  /-- "error reading {fileIdx} bytes, file_id: {toRead}" -/
  | read (fileIdx toRead : ℕ)
  deriving DecidableEq, Repr

/-- The read of `n` bytes of one file; padding is not read from the storage. -/
def readFile (st : Storage) (fileIdx : ℕ) (fi : FileInfo) (offset n : ℕ) : Option (List UInt8) :=
  if fi.padding then some (List.replicate n 0) else st.readAt fileIdx offset n

/-- The loop over the files, from the file with number `fileIdx` on: the calls it makes, and
the bytes of the buffer after it. What no file fills stays as it was. -/
def readChunkLoop (st : Storage) : ℕ → List FileInfo → ℕ → List UInt8 →
    List ReadCall × Except ReadChunkError (List UInt8)
  | _, [], _, buf => ([], .ok buf)
  | fileIdx, fi :: fis, absoluteOffset, buf =>
    if absoluteOffset > fi.len then
      readChunkLoop st (fileIdx + 1) fis (absoluteOffset - fi.len) buf
    else
      let toRead := min (fi.len - absoluteOffset) buf.length
      let calls := if fi.padding then [] else [⟨fileIdx, absoluteOffset, toRead⟩]
      match readFile st fileIdx fi absoluteOffset toRead with
      | none => (calls, .error (.read fileIdx toRead))
      | some b =>
        if (buf.drop toRead).isEmpty then (calls, .ok b)
        else
          let (rest, r) := readChunkLoop st (fileIdx + 1) fis 0 (buf.drop toRead)
          (calls ++ rest, r.map (b ++ ·))

def readChunk (l : Lengths) (fs : List FileInfo) (st : Storage) (c : ChunkInfo)
    (resultBuf : List UInt8) : List ReadCall × Except ReadChunkError (List UInt8) :=
  if resultBuf.length < c.size then ([], .error .capacity)
  else readChunkLoop st 0 fs (l.chunkAbsoluteOffset c) resultBuf

/-- "error writing to file {fileIdx}", and the storage as it is left. -/
structure WriteChunkError where
  fileIdx : ℕ
  storage : Storage

variable {B : Type} (rejects : ℕ → ℕ → ℕ → Bool) (d : DoubleBufHelper B)

/-- The write to one file; nothing is written to a padding file. -/
def writeFile (st : Storage) (fileIdx : ℕ) (fi : FileInfo) (offset : ℕ)
    (slices : List UInt8 × List UInt8) : Except Storage Storage :=
  if fi.padding then .ok st else st.pwriteAllVectored rejects fileIdx offset slices

/-- The loop over the files, from the file with number `fileIdx` on. -/
def writeChunkLoop : ℕ → List FileInfo → ℕ → B → Storage → Except WriteChunkError Storage
  | _, [], _, _, st => .ok st
  | fileIdx, fi :: fis, absoluteOffset, data, st =>
    if absoluteOffset > fi.len then
      writeChunkLoop (fileIdx + 1) fis (absoluteOffset - fi.len) data st
    else
      let toWrite := min (d.len data) (fi.len - absoluteOffset)
      match writeFile rejects st fileIdx fi absoluteOffset (d.asIoslices data toWrite) with
      | .error st => .error ⟨fileIdx, st⟩
      | .ok st =>
        let data := d.advance data toWrite
        if d.len data = 0 then .ok st else writeChunkLoop (fileIdx + 1) fis 0 data st

/-- `write_chunk` of the data of a `Piece` message, which comes in two slices. -/
def writeChunk (l : Lengths) (fs : List FileInfo) (st : Storage) (c : ChunkInfo)
    (data : List UInt8 × List UInt8) : Except WriteChunkError Storage :=
  writeChunkLoop rejects d 0 fs (l.chunkAbsoluteOffset c) (d.new data.1 data.2) st

/-- What the writer uses to serialize a `Piece` message: the size of its buffer, and the bytes
that stand before the data of the chunk. -/
structure PieceFormat where
  maxMsgLen : ℕ
  preamble : ChunkInfo → List UInt8
  room : ∀ c, (preamble c).length + chunkSize ≤ maxMsgLen

/-- `WriterRequest::ReadChunkRequest`: the calls of the storage, and the bytes sent. `writeBuf`
is what the buffer of the writer holds before. -/
def readChunkRequest (f : PieceFormat) (l : Lengths) (fs : List FileInfo) (st : Storage)
    (c : ChunkInfo) (writeBuf : List UInt8) : List ReadCall × Except ReadChunkError (List UInt8) :=
  let preambleLen := (f.preamble c).length
  let fullLen := preambleLen + c.size
  let writeBuf := f.preamble c ++ writeBuf.drop preambleLen
  let (calls, r) := readChunk l fs st c (writeBuf.drop preambleLen)
  (calls, r.map fun b => (writeBuf.take preambleLen ++ b).take fullLen)

end ChunkOps

end Rtbit
