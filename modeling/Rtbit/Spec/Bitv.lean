import Rtbit.Lib.Files

/-! `bitv.rs`: the file that keeps the bitfield of a torrent, and `DiskBackedBitV`, whose flusher
task replaces that file by renaming. `PgBitfield` of `session_persistence/postgres.rs` keeps the
bitfield in a row of a table. `crc32fast::hash` is a parameter. -/

namespace Rtbit

open Lib

/-- The raw bytes of a bitfield. -/
abbrev BitField := List UInt8

namespace BitField

/-- The most significant bit of a byte is its first. -/
def get (b : BitField) (i : ℕ) : Bool := (b.getD (i / 8) 0).toBitVec.getMsbD (i % 8)

def setBit (b : BitField) (i : ℕ) : BitField :=
  b.modify (i / 8) fun x => x ||| UInt8.ofBitVec (BitVec.twoPow 8 (7 - i % 8))

end BitField

/-- `BITV_MAGIC`. -/
def bitvMagic : List UInt8 := [0x52, 0x42, 0x56, 0x02]

/-- `BITV_HEADER_LEN`. -/
def bitvHeaderLen : ℕ := 8

/-- `to_le_bytes`. -/
def toLeBytes (x : UInt32) : List UInt8 :=
  [x.toUInt8, (x >>> 8).toUInt8, (x >>> 16).toUInt8, (x >>> 24).toUInt8]

structure BitvReadResult where
  payload : BitField
  checksumVerified : Bool
  hasHeader : Bool
  deriving DecidableEq, Repr

/-- The names of the files of one torrent: `<hash>.bitv`, and the temporary files of the flusher
and of `store_initial_check`. -/
inductive BitvFile where
  | bitv
  | bitvTmp
  | initTmp
  deriving DecidableEq, Repr

abbrev BitvFiles := Files BitvFile

section Format

variable (crc : List UInt8 → UInt32)

def bitvWithHeader (payload : BitField) : List UInt8 :=
  bitvMagic ++ toLeBytes (crc payload) ++ payload

/-- The stored checksum is compared byte by byte. -/
def readBitvFile (buf : List UInt8) : BitvReadResult :=
  if bitvHeaderLen ≤ buf.length ∧ buf.take 4 = bitvMagic then
    let payload := buf.drop bitvHeaderLen
    ⟨payload, (buf.drop 4).take 4 == toLeBytes (crc payload), true⟩
  else ⟨buf, false, false⟩

/-- The bitfield that `DiskBackedBitV::new` reads; `none` if the file is missing or its checksum
is wrong. -/
def loadBitv (fs : BitvFiles) : Option BitField :=
  match fs.read .bitv with
  | none => none
  | some raw =>
    let r := readBitvFile crc raw
    if r.hasHeader && !r.checksumVerified then none else some r.payload

end Format

/-- Where the flusher task is. -/
inductive FlushPhase where
  /-- In `rx.recv()`. -/
  | idle
  /-- A request was received; `rx.try_recv()` may replace it by a later one. -/
  | holding (snapshot : BitField)
  /-- The queue was empty: the blocking section comes next. -/
  | ready (snapshot : BitField)
  | opened (snapshot : BitField) (inode : ℕ)
  | written (snapshot : BitField) (inode : ℕ)
  /-- The section failed: the temporary file is removed next. -/
  | removeTmp
  /-- The bitfield file is removed next. -/
  | removeFile
  | ended
  deriving DecidableEq, Repr

structure Flusher where
  queue : List BitField
  phase : FlushPhase
  deriving DecidableEq, Repr

inductive FlushEvent where
  | recv
  | tryRecv
  | tryRecvEmpty
  | openTmp
  | writeTmp
  | rename
  /-- A call of the section returns an error. -/
  | ioError
  | removeTmp
  | removeFile
  deriving DecidableEq, Repr

namespace Flusher

def new : Flusher := ⟨[], .idle⟩

/-- `flush_tx.send`, which fails once the task has ended. -/
def send (f : Flusher) (snapshot : BitField) : Flusher :=
  if f.phase = .ended then f else { f with queue := f.queue ++ [snapshot] }

def step (crc : List UInt8 → UInt32) (fs : BitvFiles) (f : Flusher) :
    FlushEvent → Option (BitvFiles × Flusher)
  | .recv =>
    match f.phase, f.queue with
    | .idle, snapshot :: queue => some (fs, ⟨queue, .holding snapshot⟩)
    | _, _ => none
  | .tryRecv =>
    match f.phase, f.queue with
    | .holding _, snapshot :: queue => some (fs, ⟨queue, .holding snapshot⟩)
    | _, _ => none
  | .tryRecvEmpty =>
    match f.phase, f.queue with
    | .holding snapshot, [] => some (fs, ⟨[], .ready snapshot⟩)
    | _, _ => none
  | .openTmp =>
    match f.phase with
    | .ready snapshot =>
      let (inode, fs) := fs.openTruncate .bitvTmp
      some (fs, { f with phase := .opened snapshot inode })
    | _ => none
  | .writeTmp =>
    match f.phase with
    | .opened snapshot inode =>
      some (fs.write inode (bitvWithHeader crc snapshot),
        { f with phase := .written snapshot inode })
    | _ => none
  | .rename =>
    match f.phase with
    | .written _ _ =>
      match fs.rename .bitvTmp .bitv with
      | some fs => some (fs, { f with phase := .idle })
      -- another flusher has renamed the file away
      | none => some (fs, { f with phase := .removeTmp })
    | _ => none
  | .ioError =>
    match f.phase with
    | .ready _ | .opened _ _ | .written _ _ => some (fs, { f with phase := .removeTmp })
    | _ => none
  | .removeTmp =>
    match f.phase with
    | .removeTmp => some (fs.remove .bitvTmp, { f with phase := .removeFile })
    | _ => none
  | .removeFile =>
    match f.phase with
    | .removeFile => some (fs.remove .bitv, { f with phase := .ended })
    | _ => none

end Flusher

structure DiskBackedBitV where
  bv : BitField
  dropped : Bool
  flusher : Flusher
  deriving DecidableEq, Repr

inductive BitvEvent where
  | setBit (i : ℕ)
  | flush
  | drop
  | flusher (e : FlushEvent)
  deriving DecidableEq, Repr

namespace DiskBackedBitV

def new (bv : BitField) : DiskBackedBitV := ⟨bv, false, .new⟩

def drop (b : DiskBackedBitV) : DiskBackedBitV :=
  { b with dropped := true, flusher := b.flusher.send b.bv }

def step (crc : List UInt8 → UInt32) (fs : BitvFiles) (b : DiskBackedBitV) :
    BitvEvent → Option (BitvFiles × DiskBackedBitV)
  | .setBit i => if b.dropped then none else some (fs, { b with bv := b.bv.setBit i })
  | .flush => if b.dropped then none else some (fs, { b with flusher := b.flusher.send b.bv })
  | .drop => if b.dropped then none else some (fs, b.drop)
  | .flusher e => (b.flusher.step crc fs e).map fun (fs, flusher) => (fs, { b with flusher })

end DiskBackedBitV

/-- `PgBitfield`, the tasks that its `flush` calls have spawned, and the column `have_bitfield` of
its row. -/
structure PgBitfield where
  inmem : BitField
  /-- The snapshots whose `UPDATE` has not been executed, in the order of the `flush` calls. -/
  tasks : List BitField
  haveBitfield : Option BitField
  /-- A task has ended with an error. -/
  failed : Bool
  deriving DecidableEq, Repr

inductive PgEvent where
  | setBit (i : ℕ)
  | flush
  /-- The `k`th of the tasks executes its `UPDATE`. -/
  | update (k : ℕ)
  | updateError (k : ℕ)
  deriving DecidableEq, Repr

def PgBitfield.step (b : PgBitfield) : PgEvent → Option PgBitfield
  | .setBit i => some { b with inmem := b.inmem.setBit i }
  | .flush => some { b with tasks := b.tasks ++ [b.inmem] }
  | .update k =>
    match b.tasks[k]? with
    | none => none
    | some snapshot =>
      some { b with tasks := b.tasks.eraseIdx k, haveBitfield := some snapshot }
  | .updateError k =>
    if k < b.tasks.length then some { b with tasks := b.tasks.eraseIdx k, failed := true }
    else none

end Rtbit
