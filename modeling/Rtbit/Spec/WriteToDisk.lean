import Rtbit.Spec.Torrent

/-! The concurrent runs of `write_to_disk` (`peer_handler.rs`) on a live torrent. A run
is created when a peer's chunk passes the checks of `on_received_piece`, and moves
through its critical sections one at a time; the runs of all peers, their piece
acquisitions, deaths and selection changes interleave in any order.

A run takes the read side of the per-piece lock together with the ownership check
and drops it after `mark_chunk_downloaded`; a steal is allowed only if the write
side is free at that moment. -/

namespace Rtbit

open Lib

inductive Phase where
  /-- Not yet at the ownership check. -/
  | received
  /-- The check has passed; the next step is `write_chunk`. -/
  | checked
  | written
  /-- `mark_chunk_downloaded` has run; `taken` if `take_inflight` returned the piece. -/
  | marked (taken : Bool)
  /-- The per-piece lock is dropped; `check_piece` is running. -/
  | hashing
  /-- Between `mark_piece_hash_ok` and the end of `on_piece_completed`. -/
  | completing
  | done
  deriving DecidableEq, Repr

namespace Phase

/-- Between a passed ownership check and `mark_chunk_downloaded`. -/
def inSection : Phase → Bool
  | .checked | .written => true
  | _ => false

/-- The read side of the per-piece lock is held. -/
def holdsLock : Phase → Bool
  | .checked | .written | .marked _ => true
  | _ => false

/-- The run has taken the piece out of flight and does not know the hash result. -/
def inWindow : Phase → Bool
  | .marked taken => taken
  | .hashing => true
  | _ => false

end Phase

structure WriteRun (l : Lengths) where
  peer : PeerHandle
  msg : PieceMsg
  piece : ValidPieceIndex l
  piece_eq : l.validatePieceIndex msg.index = some piece
  phase : Phase

/-- The critical sections of a run, in order. -/
inductive RunStep where
  | check
  | write (ok : Bool)
  | mark (now : ℕ)
  | unlock
  | hashed (r : CheckResult)
  | completed
  deriving DecidableEq, Repr

namespace WriteRun

variable {l : Lengths}

/-- One critical section: the new tracker and the next phase; `none` out of turn. -/
def next (fileInfos : List FileInfo) (r : WriteRun l) (t : PieceTracker l) :
    RunStep → Option (PieceTracker l × Phase)
  | .check =>
    match r.phase with
    | .received => some (t, if t.owner r.piece = some r.peer then .checked else .done)
    | _ => none
  | .write ok =>
    match r.phase with
    -- a failed write stops the torrent (`on_fatal_error`) and returns
    | .checked => some (t, if ok then .written else .done)
    | _ => none
  | .mark now =>
    match r.phase with
    | .written =>
      match t.markChunkDownloaded r.msg with
      | none => some (t, .done)
      | some (.previouslyCompleted, t') => some (t', .done)
      | some (.notCompleted, t') => some (t', .marked false)
      | some (.completed, t') =>
        some ((t'.takeInflight r.piece now).2, .marked (t'.takeInflight r.piece now).1.isSome)
    | _ => none
  | .unlock =>
    match r.phase with
    | .marked taken => some (t, if taken then .hashing else .done)
    | _ => none
  | .hashed res =>
    match r.phase with
    | .hashing =>
      match res with
      | .ok => some (t.markPieceHashOk r.piece, .completing)
      | .failed => some (t.markPieceHashFailed r.piece, .done)
      | .ioError => some (t, .done)
    | _ => none
  | .completed =>
    match r.phase with
    | .completing => some (t.onPieceCompleted fileInfos r.piece, .done)
    | _ => none

end WriteRun

structure Writes (l : Lengths) where
  pieces : PieceTracker l
  runs : List (WriteRun l)

inductive WriteOp (l : Lengths) where
  | acquire (req : AcquireRequest l)
  | recv (peer : PeerHandle) (m : PieceMsg)
  | run (i : ℕ) (e : RunStep)
  | die (a : PeerHandle)
  | updateOnlyFiles (only : Finset ℕ)

namespace Writes

variable {l : Lengths}

def start (chunks : ChunkTracker l) : Writes l := ⟨PieceTracker.new chunks, []⟩

/-- `per_piece_locks[p].try_write().is_some()`. -/
def tryWrite (s : Writes l) (p : ValidPieceIndex l) : Bool :=
  !s.runs.any fun r => decide (r.piece = p) && r.phase.holdsLock

/-- The request with the `can_steal` that `acquire_next_piece` passes. -/
def request (s : Writes l) (req : AcquireRequest l) : AcquireRequest l :=
  { req with canSteal := s.tryWrite }

/-- The tracker and its windows, as a torrent sees them. -/
def tracker (s : Writes l) : LiveTracker l where
  pieces := s.pieces
  hashing p := s.runs.countP fun r => decide (r.piece = p) && r.phase.inWindow
  completing p := s.runs.countP fun r => decide (r.piece = p) && decide (r.phase = .completing)

def step (fileInfos : List FileInfo) (s : Writes l) : WriteOp l → Option (Writes l)
  | .acquire req => some { s with pieces := (s.pieces.acquirePiece (s.request req)).2 }
  | .recv peer m =>
    match h : l.validatePieceIndex m.index with
    | none => none
    | some p =>
      if (l.chunkInfoFromReceivedData p m.start m.len).isSome then
        some { s with runs := s.runs ++ [⟨peer, m, p, h, .received⟩] }
      else none
  | .run i e =>
    s.runs[i]?.bind fun r => (r.next fileInfos s.pieces e).map fun x =>
      ⟨x.1, s.runs.set i { r with phase := x.2 }⟩
  | .die a => some { s with pieces := (s.pieces.releasePiecesOwnedBy a).1 }
  | .updateOnlyFiles only => some { s with pieces := s.pieces.updateOnlyFiles fileInfos only }

end Writes

end Rtbit
