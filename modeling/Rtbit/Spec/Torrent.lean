import Rtbit.Lib.Runs
import Rtbit.Spec.PieceTracker

/-! The piece tracker of a torrent over its life. While the torrent is live, the
operations of `PieceTracker` are issued by `acquire_next_piece`, `write_to_disk`,
`on_peer_died` and `update_only_files`, in any order and by any number of peers;
`pause` hands the `ChunkTracker` over and a later start builds a new
`PieceTracker` from it.

`write_to_disk` leaves two windows between its critical sections. `hashing p` is
the number of runs that have executed `take_inflight(p)` and whose `check_piece`
has not returned. `completing p` is the number of runs that have executed
`mark_piece_hash_ok(p)` and have not finished `on_piece_completed(p)`. A run that
is in a window when `pause` takes the tracker away finds `ChunkTrackerEmpty`
afterwards and changes nothing more. -/

namespace Rtbit

open Lib

/-- What `check_piece` returns: `Ok(true)`, `Ok(false)` or an I/O error. -/
inductive CheckResult where
  | ok
  | failed
  | ioError
  deriving DecidableEq, Repr

@[ext] structure LiveTracker (l : Lengths) where
  pieces : PieceTracker l
  hashing : ValidPieceIndex l → ℕ
  completing : ValidPieceIndex l → ℕ

namespace LiveTracker

variable {l : Lengths}

def new (chunks : ChunkTracker l) : LiveTracker l := ⟨PieceTracker.new chunks, fun _ => 0, fun _ => 0⟩

def acquire (s : LiveTracker l) (req : AcquireRequest l) : LiveTracker l :=
  { s with pieces := (s.pieces.acquirePiece req).2 }

/-- `take_inflight` after `ChunkMarkingResult::Completed`: the run goes on to the hash
check only if the piece was in flight. -/
def takeCompleted (s : LiveTracker l) (p : ValidPieceIndex l) (now : ℕ) : LiveTracker l :=
  let taken := s.pieces.takeInflight p now
  { s with
    pieces := taken.2
    hashing := if taken.1.isSome then Function.update s.hashing p (s.hashing p + 1) else s.hashing }

/-- The critical section `mark_chunk_downloaded` of `write_to_disk`. -/
def markChunk (s : LiveTracker l) (m : PieceMsg) (now : ℕ) : LiveTracker l :=
  match s.pieces.markChunkDownloaded m with
  | none => s
  | some (r, t) =>
    match r, l.validatePieceIndex m.index with
    | .completed, some p => { s with pieces := t }.takeCompleted p now
    | _, _ => { s with pieces := t }

/-- A run that holds `p` learns the result of `check_piece`. -/
def checkPiece (s : LiveTracker l) (p : ValidPieceIndex l) : CheckResult → LiveTracker l
  | .ok =>
    { pieces := s.pieces.markPieceHashOk p
      hashing := Function.update s.hashing p (s.hashing p - 1)
      completing := Function.update s.completing p (s.completing p + 1) }
  | .failed =>
    { s with
      pieces := s.pieces.markPieceHashFailed p
      hashing := Function.update s.hashing p (s.hashing p - 1) }
  | .ioError => { s with hashing := Function.update s.hashing p (s.hashing p - 1) }

def onPieceCompleted (s : LiveTracker l) (fileInfos : List FileInfo) (p : ValidPieceIndex l) :
    LiveTracker l :=
  { s with
    pieces := s.pieces.onPieceCompleted fileInfos p
    completing := Function.update s.completing p (s.completing p - 1) }

def release (s : LiveTracker l) (a : PeerHandle) : LiveTracker l :=
  { s with pieces := (s.pieces.releasePiecesOwnedBy a).1 }

def updateOnlyFiles (s : LiveTracker l) (fileInfos : List FileInfo) (only : Finset ℕ) :
    LiveTracker l :=
  { s with pieces := s.pieces.updateOnlyFiles fileInfos only }

end LiveTracker

inductive Torrent (l : Lengths) where
  | live (s : LiveTracker l)
  | paused (c : ChunkTracker l)

inductive TorrentOp (l : Lengths) where
  | acquire (req : AcquireRequest l)
  | markChunk (m : PieceMsg) (now : ℕ)
  | checkPiece (p : ValidPieceIndex l) (r : CheckResult)
  | onPieceCompleted (p : ValidPieceIndex l)
  | release (a : PeerHandle)
  | updateOnlyFiles (only : Finset ℕ)
  | pause
  | resume

namespace Torrent

variable {l : Lengths}

/-- A torrent that starts with a tracker `ChunkTracker::new` accepted. -/
def start (chunks : ChunkTracker l) : Torrent l := .live (LiveTracker.new chunks)

def chunks : Torrent l → ChunkTracker l
  | .live s => s.pieces.chunks
  | .paused c => c

def owner : Torrent l → ValidPieceIndex l → Option PeerHandle
  | .live s => s.pieces.owner
  | .paused _ => fun _ => none

def hashing : Torrent l → ValidPieceIndex l → ℕ
  | .live s => s.hashing
  | .paused _ => fun _ => 0

def completing : Torrent l → ValidPieceIndex l → ℕ
  | .live s => s.completing
  | .paused _ => fun _ => 0

def step (fileInfos : List FileInfo) : Torrent l → TorrentOp l → Option (Torrent l)
  | .live s, .acquire req => some (.live (s.acquire req))
  | .live s, .markChunk m now => some (.live (s.markChunk m now))
  | .live s, .checkPiece p r => if 0 < s.hashing p then some (.live (s.checkPiece p r)) else none
  | .live s, .onPieceCompleted p =>
    if 0 < s.completing p then some (.live (s.onPieceCompleted fileInfos p)) else none
  | .live s, .release a => some (.live (s.release a))
  | .live s, .updateOnlyFiles only => some (.live (s.updateOnlyFiles fileInfos only))
  | .live s, .pause => some (.paused s.pieces.intoChunks)
  | .live _, .resume => none
  | .paused c, .updateOnlyFiles only => some (.paused (c.updateOnlyFiles fileInfos only))
  | .paused c, .resume => some (.live (LiveTracker.new c))
  | .paused _, _ => none

end Torrent

end Rtbit
