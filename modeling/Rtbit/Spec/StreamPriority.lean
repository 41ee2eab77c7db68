import Rtbit.Spec.FileStream

/-! The pieces that the open streams want next (`torrent_state/streaming.rs`). -/

namespace Rtbit

namespace Streaming

def perStreamBufDefault : ℕ := 32 * 1024 * 1024

/-- `StreamState::queue`; `none` is a panic, of a division by zero or of an `unwrap`. -/
def StreamState.queue (s : StreamState) (l : Lengths) : Option (List (ValidPieceIndex l)) :=
  let start := (s.fileAbsOffset + s.position) % 2 ^ 64
  let stop := min ((start + perStreamBufDefault) % 2 ^ 64) ((s.fileAbsOffset + s.fileLen) % 2 ^ 64)
  let dpl := l.defaultPieceLength
  if dpl = 0 then none
  else
    let startId := start / dpl
    let endId := (stop + dpl - 1) / dpl
    if startId < 2 ^ 32 ∧ endId < 2 ^ 32 then
      some ((List.range' startId (endId - startId)).filterMap l.validatePieceIndex)
    else none

/-- The iterators that are left, each with the items that it has left. -/
structure Interleave (α : Type) where
  all : List (List α)
  deriving DecidableEq, Repr

/-- The loop of `next` over the front of the queue. -/
def Interleave.nextOf {α : Type} : List (List α) → Option (α × Interleave α)
  | [] => none
  | it :: all =>
    match it with
    | piece :: it => some (piece, ⟨all ++ [it]⟩)
    | [] => nextOf all

def Interleave.next {α : Type} (s : Interleave α) : Option (α × Interleave α) := nextOf s.all

/-- `iter_next_pieces`, from the entries of the map in the order that the shuffle leaves them in. -/
def iterNextPieces (l : Lengths) (streams : List (ℕ × StreamState)) :
    Option (Interleave (ValidPieceIndex l)) := do
  let all ← streams.mapM fun s => s.2.queue l
  return ⟨all⟩

end Streaming

end Rtbit
