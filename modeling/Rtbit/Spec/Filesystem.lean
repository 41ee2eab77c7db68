import Rtbit.Spec.Chunks

/-! `storage/filesystem/opened_file.rs` and `fs.rs`, down to the calls of the system, which may
transfer less than they are asked for, and `write_chunk` on top of them. The call that the system
interrupts and the standard library makes again is not counted. -/

namespace Rtbit

namespace Filesystem

inductive Platform where
  | unix
  | windows
  | other
  deriving DecidableEq, Repr

abbrev File := ℕ

inductive Transfer where
  | read
  | write
  deriving DecidableEq, Repr

/-- A call for `len` bytes, and the bytes that it has transferred. -/
structure SysCall where
  kind : Transfer
  file : File
  offset : ℕ
  len : ℕ
  moved : List UInt8
  deriving DecidableEq, Repr

/-- The bytes of the opened files, and the calls made so far. -/
structure Disk where
  bytes : File → List UInt8
  calls : List SysCall

/-- How the system answers a call, after those it was asked before: with an error, or with a number
of bytes that is positive unless none are asked for. Of a file that ends earlier a read gives what
there is. -/
structure Os where
  answer : List SysCall → Transfer → File → (offset len : ℕ) → Option ℕ
  le : ∀ calls kind f offset len n, answer calls kind f offset len = some n → n ≤ len
  pos : ∀ calls kind f offset len n, answer calls kind f offset len = some n → 0 < len → 0 < n

/-- The bytes of the files after `buf` is written at `offset`. -/
def stored (bytes : File → List UInt8) (f : File) (offset : ℕ) (buf : List UInt8) :
    File → List UInt8 :=
  if buf = [] then bytes else Function.update bytes f (Storage.overwrite (bytes f) offset buf)

inductive IoError where
  /-- An error of the system. -/
  | os
  /-- The file ends before the buffer is full. -/
  | unexpectedEof
  /-- "file write offset {offset} exceeds i64::MAX, cannot pass to pwritev" -/
  | offset (offset : ℕ)
  /-- "buf too small" -/
  | bufTooSmall
  /-- "pread_exact not implemented for your platform", and the same for `pwrite_all` -/
  | notImplemented
  /-- "no such file" -/
  | noSuchFile
  /-- `Error::FsFileIsNone` -/
  | fileIsNone
  deriving DecidableEq, Repr

section File

variable (os : Os)

/-- One `pwrite`, `pwritev` or `WriteFile`. -/
def writeAt (d : Disk) (f : File) (offset : ℕ) (buf : List UInt8) : Disk × Option ℕ :=
  match os.answer d.calls .write f offset buf.length with
  | none => ({ d with calls := d.calls ++ [⟨.write, f, offset, buf.length, []⟩] }, none)
  | some n =>
    (⟨stored d.bytes f offset (buf.take n),
      d.calls ++ [⟨.write, f, offset, buf.length, buf.take n⟩]⟩, some n)

/-- One `pread` or `ReadFile`. -/
def readAt (d : Disk) (f : File) (offset len : ℕ) : Disk × Option (List UInt8) :=
  match os.answer d.calls .read f offset len with
  | none => ({ d with calls := d.calls ++ [⟨.read, f, offset, len, []⟩] }, none)
  | some n =>
    let b := ((d.bytes f).drop offset).take n
    ({ d with calls := d.calls ++ [⟨.read, f, offset, len, b⟩] }, some b)

/-- `write_all_at`, and the loop of the Windows variant. Each round writes at least one byte, so
`buf.length` rounds are enough. -/
def writeAllLoop : ℕ → Disk → File → ℕ → List UInt8 → Disk × Except IoError Unit
  | 0, d, _, _, _ => (d, .ok ())
  | rounds + 1, d, f, offset, buf =>
    if buf = [] then (d, .ok ())
    else
      match writeAt os d f offset buf with
      | (d, none) => (d, .error .os)
      | (d, some n) => writeAllLoop rounds d f (offset + n) (buf.drop n)

/-- `read_exact_at`: the bytes it reads into the buffer. -/
def readExactLoop : ℕ → Disk → File → (offset len : ℕ) → Disk × List UInt8 × Except IoError Unit
  | 0, d, _, _, _ => (d, [], .ok ())
  | rounds + 1, d, f, offset, len =>
    if len = 0 then (d, [], .ok ())
    else
      match readAt os d f offset len with
      | (d, none) => (d, [], .error .os)
      | (d, some b) =>
        if b = [] then (d, [], .error .unexpectedEof)
        else
          let (d, rest, r) := readExactLoop rounds d f (offset + b.length) (len - b.length)
          (d, b ++ rest, r)

variable (p : Platform)

def File.pwriteAll (d : Disk) (f : File) (offset : ℕ) (buf : List UInt8) :
    Disk × Except IoError Unit :=
  match p with
  | .unix | .windows => writeAllLoop os buf.length d f offset buf
  | .other => (d, .error .notImplemented)

/-- What the buffer holds afterwards, and the result. -/
def File.preadExact (d : Disk) (f : File) (offset : ℕ) (buf : List UInt8) :
    Disk × List UInt8 × Except IoError Unit :=
  match p with
  | .unix =>
    let (d, b, r) := readExactLoop os buf.length d f offset buf.length
    (d, b ++ buf.drop b.length, r)
  | .windows =>
    match readAt os d f offset buf.length with
    | (d, none) => (d, buf, .error .os)
    | (d, some b) => (d, b ++ buf.drop b.length, .ok ())
  | .other => (d, buf, .error .notImplemented)

/-- The result of `pwrite_all` with the length that was passed to it. -/
def countAll (n : ℕ) (r : Disk × Except IoError Unit) : Disk × Except IoError ℕ :=
  (r.1, r.2.map fun _ => n)

/-- The variant of the platforms that are not unix: two slices are put together in memory. -/
def File.pwriteAllTogether (d : Disk) (f : File) (offset : ℕ) :
    List UInt8 → List UInt8 → Disk × Except IoError ℕ
  | [], [] => (d, .ok 0)
  | first, [] => countAll first.length (File.pwriteAll os p d f offset first)
  | [], second => countAll second.length (File.pwriteAll os p d f offset second)
  | first, second =>
    if first.length > chunkSize then (d, .error .bufTooSmall)
    else if first.length + second.length > chunkSize then (d, .error .bufTooSmall)
    else countAll (first.length + second.length) (File.pwriteAll os p d f offset (first ++ second))

def File.pwriteAllVectored (d : Disk) (f : File) (offset : ℕ) (bufs : List UInt8 × List UInt8) :
    Disk × Except IoError ℕ :=
  match p with
  | .unix =>
    if offset ≥ 2 ^ 63 then (d, .error (.offset offset))
    else
      match writeAt os d f offset (bufs.1 ++ bufs.2) with
      | (d, none) => (d, .error .os)
      | (d, some n) => (d, .ok n)
  | .windows | .other => File.pwriteAllTogether os p d f offset bufs.1 bufs.2

end File

/-- `opened_files`. The entry of a padding file has no `fd`, nor has any after `take`; each of the
others has a file of its own. -/
structure FilesystemStorage where
  openedFiles : List (Option File)
  distinct : ∀ (i j : ℕ) (f : File),
    openedFiles[i]? = some (some f) → openedFiles[j]? = some (some f) → i = j

namespace FilesystemStorage

variable (os : Os) (p : Platform) (s : FilesystemStorage)

/-- `get(file_id)`, then `lock_read` or `try_mark_sparse`. -/
def lockRead (fileId : ℕ) : Except IoError File :=
  match s.openedFiles[fileId]? with
  | none => .error .noSuchFile
  | some none => .error .fileIsNone
  | some (some f) => .ok f

def preadExact (d : Disk) (fileId offset : ℕ) (buf : List UInt8) :
    Disk × List UInt8 × Except IoError Unit :=
  match s.lockRead fileId with
  | .error e => (d, buf, .error e)
  | .ok f => File.preadExact os p d f offset buf

def pwriteAll (d : Disk) (fileId offset : ℕ) (buf : List UInt8) : Disk × Except IoError Unit :=
  match s.lockRead fileId with
  | .error e => (d, .error e)
  | .ok f => File.pwriteAll os p d f offset buf

def pwriteAllVectored (d : Disk) (fileId offset : ℕ) (bufs : List UInt8 × List UInt8) :
    Disk × Except IoError ℕ :=
  match s.lockRead fileId with
  | .error e => (d, .error e)
  | .ok f => File.pwriteAllVectored os p d f offset bufs

inductive WriteChunkError where
  /-- "error writing to file {fileIdx}" -/
  | write (fileIdx : ℕ) (e : IoError)
  /-- `debug_assert_eq!(written, to_write)` panics in a debug build. -/
  | assertion (written toWrite : ℕ)
  deriving DecidableEq, Repr

variable {B : Type} (debugAssertions : Bool) (h : DoubleBufHelper B)

/-- The write to one file. -/
def writeFile (d : Disk) (fileIdx : ℕ) (fi : FileInfo) (offset toWrite : ℕ)
    (slices : List UInt8 × List UInt8) : Disk × Except WriteChunkError Unit :=
  if fi.padding then (d, .ok ())
  else
    match s.pwriteAllVectored os p d fileIdx offset slices with
    | (d, .error e) => (d, .error (.write fileIdx e))
    | (d, .ok written) =>
      if debugAssertions = true ∧ written ≠ toWrite then (d, .error (.assertion written toWrite))
      else (d, .ok ())

/-- The loop of `write_chunk` over the files, from the file with number `fileIdx` on. -/
def writeChunkLoop : ℕ → List FileInfo → ℕ → B → Disk → Disk × Except WriteChunkError Unit
  | _, [], _, _, d => (d, .ok ())
  | fileIdx, fi :: fis, absoluteOffset, data, d =>
    if absoluteOffset > fi.len then
      writeChunkLoop (fileIdx + 1) fis (absoluteOffset - fi.len) data d
    else
      let toWrite := min (h.len data) (fi.len - absoluteOffset)
      match s.writeFile os p debugAssertions d fileIdx fi absoluteOffset toWrite
        (h.asIoslices data toWrite) with
      | (d, .error e) => (d, .error e)
      | (d, .ok ()) =>
        let data := h.advance data toWrite
        if h.len data = 0 then (d, .ok ()) else writeChunkLoop (fileIdx + 1) fis 0 data d

def writeChunk (l : Lengths) (fs : List FileInfo) (d : Disk) (c : ChunkInfo)
    (data : List UInt8 × List UInt8) : Disk × Except WriteChunkError Unit :=
  s.writeChunkLoop os p debugAssertions h 0 fs (l.chunkAbsoluteOffset c) (h.new data.1 data.2) d

end FilesystemStorage

end Filesystem

end Rtbit
