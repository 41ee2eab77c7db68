import Rtbit.Spec.Torrent

/-! The life of one piece. `PieceView` is everything the tracker and the running
writes say about a piece; `PieceOp` lists what can happen to it. A step of the
torrent is, seen from each piece, one of these operations (`Sanity.Torrent`), so
that invariants about single pieces are proved here, without the bit fields and
the maps. -/

namespace Rtbit

structure PieceView where
  have_ : Bool
  queued : Bool
  selected : Bool
  owner : Option PeerHandle
  hashing : ℕ
  completing : ℕ
  deriving DecidableEq

inductive PieceOp where
  | stay
  /-- Reserved as a stream's priority piece or, with `false`, from the queue. -/
  | reserve (a : PeerHandle) (priority : Bool)
  | steal (a : PeerHandle)
  | take
  | check (r : CheckResult)
  | completed
  | release
  | select (sel : Bool)
  | pause
  deriving DecidableEq

namespace PieceView

def Enabled (v : PieceView) : PieceOp → Prop
  | .reserve _ true => v.have_ = false ∧ v.owner = none
  | .reserve _ false => v.queued = true
  | .steal a => ∃ b, v.owner = some b ∧ b ≠ a
  | .take => v.owner ≠ none
  | .check _ => 0 < v.hashing
  | .completed => 0 < v.completing
  | .release => v.owner ≠ none
  | .stay | .select _ | .pause => True

def apply (v : PieceView) : PieceOp → PieceView
  | .stay => v
  | .reserve a _ => { v with queued := false, owner := some a }
  | .steal a => { v with owner := some a }
  | .take => { v with owner := none, hashing := v.hashing + 1 }
  | .check .ok =>
    { v with have_ := true, hashing := v.hashing - 1, completing := v.completing + 1 }
  | .check .failed => { v with queued := v.queued || !v.have_, hashing := v.hashing - 1 }
  | .check .ioError => { v with hashing := v.hashing - 1 }
  | .completed => { v with completing := v.completing - 1 }
  | .release => { v with queued := v.queued || !v.have_, owner := none }
  | .select sel =>
    { v with
      queued := (v.queued || (sel && !v.selected && !v.have_)) && (sel || v.have_)
      selected := sel }
  | .pause =>
    { v with
      queued := v.queued || (v.owner.isSome && !v.have_)
      owner := none
      hashing := 0
      completing := 0 }

end PieceView

/-- The view of a piece. -/
def Torrent.piece {l : Lengths} (s : Torrent l) (p : ValidPieceIndex l) : PieceView where
  have_ := s.chunks.havePieces.get p
  queued := s.chunks.queuePieces.get p
  selected := s.chunks.selected.get p
  owner := s.owner p
  hashing := s.hashing p
  completing := s.completing p

/-- `Induces fileInfos s op p pop`: the step `op` from `s` can be `pop` for the piece `p`. -/
inductive Torrent.Induces {l : Lengths} (fileInfos : List FileInfo) (s : Torrent l) :
    TorrentOp l → ValidPieceIndex l → PieceOp → Prop
  | stay (op p) : Induces fileInfos s op p .stay
  | steal (req p) : Induces fileInfos s (.acquire req) p (.steal req.peer)
  | reserve (req p) : Induces fileInfos s (.acquire req) p (.reserve req.peer false)
  | priority {live req p} : s = .live live → live.pieces.trySteal req 10 = none →
      live.pieces.priorityPick req = some p →
      Induces fileInfos s (.acquire req) p (.reserve req.peer true)
  | take (m now p) : Induces fileInfos s (.markChunk m now) p .take
  | check (p r) : Induces fileInfos s (.checkPiece p r) p (.check r)
  | completed (p) : Induces fileInfos s (.onPieceCompleted p) p .completed
  | release {a p} : s.owner p = some a → Induces fileInfos s (.release a) p .release
  | select (only p) : Induces fileInfos s (.updateOnlyFiles only) p
      (.select ((ChunkTracker.selection l fileInfos only).get p))
  | pause (p) : Induces fileInfos s .pause p .pause

end Rtbit
