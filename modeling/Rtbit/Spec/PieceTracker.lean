import Rtbit.Spec.ChunkTracker

/-! `PieceTracker` (`piece_tracker.rs`): a `ChunkTracker` together with the pieces in
flight and the peers that own them. What the code reads from its surroundings is
part of the request: the clock, the iteration order of the hash map, and the
floating-point product of an average download time and a steal threshold. -/

namespace Rtbit

open Lib

structure InflightPiece where
  peer : PeerHandle
  started : ℕ
  deriving DecidableEq, Repr

inductive AcquireResult (l : Lengths) where
  | reserved (piece : ValidPieceIndex l)
  | stolen (piece : ValidPieceIndex l) (fromPeer : PeerHandle)
  | noneAvailable
  deriving DecidableEq

structure AcquireRequest (l : Lengths) where
  peer : PeerHandle
  peerAvgTime : Option ℕ
  priorityPieces : List (ValidPieceIndex l)
  filePriorities : List ℕ
  fileInfos : List FileInfo
  peerHasPiece : ValidPieceIndex l → Bool
  canSteal : ValidPieceIndex l → Bool
  now : ℕ
  /-- The order in which `inflight.iter()` meets the pieces. -/
  mapOrder : List (ValidPieceIndex l)
  /-- `Duration::from_secs_f64(avg.as_secs_f64() * threshold)`. -/
  scaled : ℕ → ℕ → ℕ

structure PieceTracker (l : Lengths) where
  chunks : ChunkTracker l
  inflight : ValidPieceIndex l → Option InflightPiece

namespace PieceTracker

variable {l : Lengths}

def new (chunks : ChunkTracker l) : PieceTracker l := ⟨chunks, fun _ => none⟩

/-- The peer that owns a piece in flight. -/
def owner (t : PieceTracker l) (p : ValidPieceIndex l) : Option PeerHandle :=
  (t.inflight p).map InflightPiece.peer

/-- Of equal elapsed times the later element wins. -/
def longer (best : Option (ValidPieceIndex l × PeerHandle × ℕ))
    (x : ValidPieceIndex l × PeerHandle × ℕ) : Option (ValidPieceIndex l × PeerHandle × ℕ) :=
  match best with
  | none => some x
  | some b => if b.2.2 ≤ x.2.2 then some x else some b

/-- `Iterator::max_by_key` on the elapsed time. -/
def maxElapsed (xs : List (ValidPieceIndex l × PeerHandle × ℕ)) :
    Option (ValidPieceIndex l × PeerHandle × ℕ) :=
  xs.foldl longer none

/-- The slowest piece of another peer that the requester has and that is at least
`threshold` times slower than the requester. -/
def stealCandidate (t : PieceTracker l) (req : AcquireRequest l) (threshold : ℕ) :
    Option (ValidPieceIndex l × PeerHandle) :=
  req.peerAvgTime.bind fun myAvg =>
    let minElapsed := req.scaled myAvg threshold
    let found := req.mapOrder.filterMap fun p => (t.inflight p).bind fun info =>
      let elapsed := req.now - info.started
      if info.peer ≠ req.peer ∧ req.peerHasPiece p = true ∧ minElapsed ≤ elapsed then
        some (p, info.peer, elapsed)
      else none
    (maxElapsed found).map fun x => (x.1, x.2.1)

def trySteal (t : PieceTracker l) (req : AcquireRequest l) (threshold : ℕ) :
    Option (AcquireResult l × PieceTracker l) :=
  (t.stealCandidate req threshold).bind fun (piece, oldPeer) =>
    if req.canSteal piece then
      some (.stolen piece oldPeer,
        { t with inflight := Function.update t.inflight piece (some ⟨req.peer, req.now⟩) })
    else none

def reservePiece (t : PieceTracker l) (piece : ValidPieceIndex l) (peer : PeerHandle) (now : ℕ) :
    AcquireResult l × PieceTracker l :=
  (.reserved piece,
    { chunks := t.chunks.reserveNeededPiece piece
      inflight := Function.update t.inflight piece (some ⟨peer, now⟩) })

/-- The first piece a stream asks for that is neither have nor in flight. -/
def priorityPick (t : PieceTracker l) (req : AcquireRequest l) : Option (ValidPieceIndex l) :=
  req.priorityPieces.find? fun piece =>
    !t.chunks.isPieceHave piece && (t.inflight piece).isNone && req.peerHasPiece piece

def queuePick (t : PieceTracker l) (req : AcquireRequest l) : Option (ValidPieceIndex l) :=
  (t.chunks.iterQueuedPieces req.filePriorities req.fileInfos).find? req.peerHasPiece

/-- Steal from a peer ten times slower, else reserve (priority pieces first), else
steal from a peer three times slower. -/
def acquirePiece (t : PieceTracker l) (req : AcquireRequest l) : AcquireResult l × PieceTracker l :=
  match t.trySteal req 10 with
  | some result => result
  | none =>
    match t.priorityPick req with
    | some piece => t.reservePiece piece req.peer req.now
    | none =>
      match t.queuePick req with
      | some piece => t.reservePiece piece req.peer req.now
      | none =>
        match t.trySteal req 3 with
        | some result => result
        | none => (.noneAvailable, t)

/-- The download time, if the piece was in flight. -/
def takeInflight (t : PieceTracker l) (piece : ValidPieceIndex l) (now : ℕ) :
    Option ℕ × PieceTracker l :=
  match t.inflight piece with
  | none => (none, t)
  | some inflight =>
    (some (now - inflight.started), { t with inflight := Function.update t.inflight piece none })

def markPieceHashOk (t : PieceTracker l) (piece : ValidPieceIndex l) : PieceTracker l :=
  { t with chunks := t.chunks.markPieceDownloaded piece }

def markPieceHashFailed (t : PieceTracker l) (piece : ValidPieceIndex l) : PieceTracker l :=
  { t with chunks := t.chunks.markPieceBrokenIfNotHave piece }

/-- The keys of `inflight` whose entry satisfies `f`. The loops over them below give
the same result in every order. -/
def inflightKeys (t : PieceTracker l) (f : InflightPiece → Bool) : List (ValidPieceIndex l) :=
  (List.finRange l.totalPieces).filter fun p => (t.inflight p).any f

def releaseOne (t : PieceTracker l) (piece : ValidPieceIndex l) : PieceTracker l :=
  { chunks := t.chunks.markPieceBrokenIfNotHave piece
    inflight := Function.update t.inflight piece none }

/-- The tracker, and the number of pieces released. -/
def releasePiecesOwnedBy (t : PieceTracker l) (peer : PeerHandle) : PieceTracker l × ℕ :=
  let piecesToRelease := t.inflightKeys fun info => info.peer == peer
  (piecesToRelease.foldl releaseOne t, piecesToRelease.length)

def intoChunks (t : PieceTracker l) : ChunkTracker l :=
  (t.inflightKeys fun _ => true).foldl ChunkTracker.markPieceBrokenIfNotHave t.chunks

def markChunkDownloaded (t : PieceTracker l) (piece : PieceMsg) :
    Option (ChunkMarkingResult × PieceTracker l) :=
  (t.chunks.markChunkDownloaded piece).map fun (r, chunks) => (r, { t with chunks := chunks })

def updateOnlyFiles (t : PieceTracker l) (fileInfos : List FileInfo) (newOnlyFiles : Finset ℕ) :
    PieceTracker l :=
  { t with chunks := t.chunks.updateOnlyFiles fileInfos newOnlyFiles }

/-- The files `on_piece_completed` updates: from the first one that contains the piece
up to the next one that does not. -/
def filesOnPieceCompleted (fileInfos : List FileInfo) (id : ℕ) : List (FileInfo × ℕ) :=
  (fileInfos.zipIdx.dropWhile fun x => !x.1.contains id).takeWhile fun x => x.1.contains id

/-- The update of the per-file counters in `TorrentStateLive::on_piece_completed`. -/
def onPieceCompleted (t : PieceTracker l) (fileInfos : List FileInfo) (id : ValidPieceIndex l) :
    PieceTracker l :=
  { t with
    chunks := (filesOnPieceCompleted fileInfos id).foldl
      (fun c x => (c.updateFileHaveOnPieceCompleted id x.2 x.1).1) t.chunks }

end PieceTracker

end Rtbit
