import Rtbit.Spec.Bitv

/-! Who writes the bitfield file of a torrent: `check()` of `initializing.rs` with `load`, `clear`
and `store_initial_check` of the JSON store, and every `DiskBackedBitV` that these have created,
whose flushers outlive them. -/

namespace Rtbit

open Lib

/-- How the pieces that `validate_fastresume` checks turn out. -/
inductive FastresumeVerdict where
  | valid
  | broken
  | cancelled
  deriving DecidableEq, Repr

/-- Where `check()` is. -/
inductive CheckPhase where
  /-- No check is running. -/
  | idle
  /-- In `validate_fastresume` with the instance that `load` returned. -/
  | validating (k : ℕ)
  /-- `clear` has returned; the instance is dropped next. -/
  | cleared (k : ℕ)
  /-- In `initial_check`. -/
  | checking
  /-- In `store_initial_check` with the result of `initial_check`. -/
  | storing (checked : BitField)
  | opened (checked : BitField) (inode : ℕ)
  | written (checked : BitField) (inode : ℕ)
  | renamed (checked : BitField)
  /-- The `ChunkTracker` is built with `bv`, after a full check with the result `checked` or
  without one. -/
  | built (checked : Option BitField) (bv : BitField)
  deriving DecidableEq, Repr

/-- The instance that `check()` holds. -/
def CheckPhase.held : CheckPhase → Option ℕ
  | .validating k | .cleared k => some k
  | _ => none

/-- The calls of the owner of an instance, as opposed to the steps of its flusher. -/
def BitvEvent.byOwner : BitvEvent → Bool
  | .setBit _ | .flush | .drop => true
  | .flusher _ => false

structure BitvOwners where
  fs : BitvFiles
  /-- Every instance that was created, oldest first. -/
  instances : List DiskBackedBitV
  phase : CheckPhase
  /-- What `tokio::fs::File::write_all` has accepted and not yet written: it returns before the
  data is in the file. -/
  initWrites : List (ℕ × List UInt8)

inductive OwnerEvent where
  /-- `check()` begins: `clear` if the torrent was in the error state before, `load` if not. -/
  | start (previouslyErrored : Bool)
  | validate (v : FastresumeVerdict)
  | discard
  /-- `initial_check` returns; `none` is an error. -/
  | initialCheck (checked : Option BitField)
  | openInit
  | writeInit
  | renameInit
  /-- `DiskBackedBitV::new` at the end of `store_initial_check`. -/
  | readBack
  | finish
  /-- The `k`th of the accepted writes is done. -/
  | initWrite (k : ℕ)
  /-- A step of the `k`th instance: a call of its owner, or one of its flusher. -/
  | bitv (k : ℕ) (e : BitvEvent)
  deriving DecidableEq, Repr

namespace BitvOwners

def init (fs : BitvFiles) : BitvOwners := ⟨fs, [], .idle, []⟩

/-- The instance that `check()` holds is dropped, and `check()` goes on with `phase`. -/
def dropHeld (s : BitvOwners) (k : ℕ) (phase : CheckPhase) : BitvOwners :=
  { s with instances := s.instances.modify k DiskBackedBitV.drop, phase }

/-- `bytes` is `piece_bitfield_bytes()`. -/
def step (crc : List UInt8 → UInt32) (bytes : ℕ) (s : BitvOwners) : OwnerEvent → Option BitvOwners
  | .start previouslyErrored =>
    if s.phase ≠ .idle then none
    -- an error of `clear` is only logged
    else if previouslyErrored then some { s with fs := s.fs.remove .bitv, phase := .checking }
    else
      match loadBitv crc s.fs with
      | none => some { s with phase := .checking }
      | some bv =>
        some { s with
          instances := s.instances ++ [.new bv], phase := .validating s.instances.length }
  | .validate v =>
    match s.phase with
    | .validating k =>
      match s.instances[k]? with
      | none => none
      | some b =>
        if b.bv.length ≠ bytes then some (s.dropHeld k .checking)
        else
          match v with
          | .valid => some { s with phase := .built none b.bv }
          | .broken => some { s with fs := s.fs.remove .bitv, phase := .cleared k }
          | .cancelled => some (s.dropHeld k .idle)
    | _ => none
  | .discard =>
    match s.phase with
    | .cleared k => some (s.dropHeld k .checking)
    | _ => none
  | .initialCheck checked =>
    match s.phase, checked with
    | .checking, some r => some { s with phase := .storing r }
    | .checking, none => some { s with phase := .idle }
    | _, _ => none
  | .openInit =>
    match s.phase with
    | .storing r =>
      let (inode, fs) := s.fs.openTruncate .initTmp
      some { s with fs, phase := .opened r inode }
    | _ => none
  | .writeInit =>
    match s.phase with
    | .opened r inode =>
      some { s with
        initWrites := s.initWrites ++ [(inode, bitvWithHeader crc r)], phase := .written r inode }
    | _ => none
  | .renameInit =>
    match s.phase with
    | .written r _ =>
      match s.fs.rename .initTmp .bitv with
      | some fs => some { s with fs, phase := .renamed r }
      | none => some { s with phase := .idle }
    | _ => none
  | .readBack =>
    match s.phase with
    | .renamed r =>
      match loadBitv crc s.fs with
      | none => some { s with phase := .idle }
      | some bv =>
        some { s with instances := s.instances ++ [.new bv], phase := .built (some r) bv }
    | _ => none
  | .finish =>
    match s.phase with
    | .built _ _ => some { s with phase := .idle }
    | _ => none
  | .initWrite k =>
    match s.initWrites[k]? with
    | none => none
    | some (inode, data) =>
      some { s with fs := s.fs.write inode data, initWrites := s.initWrites.eraseIdx k }
  | .bitv k e =>
    -- only the flusher of the instance runs while `check()` holds it
    if s.phase.held = some k ∧ e.byOwner = true then none
    else
      match s.instances[k]? with
      | none => none
      | some b =>
        match b.step crc s.fs e with
        | none => none
        | some (fs, b) => some { s with fs, instances := s.instances.set k b }

end BitvOwners

end Rtbit
