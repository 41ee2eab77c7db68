import Rtbit.Lib.Notify
import Rtbit.Spec.PieceTracker
import Rtbit.Spec.Streams

/-! The calls of `ManagedTorrent::wait_until_completed`, and what finishes a torrent: completions of
pieces and `update_only_files`. A live state is waited on at its own `finished_notify`, also after
another one has taken its place. -/

namespace Rtbit

open Lib

namespace Completed

open Streams (Completion)

/-- `TorrentStateLive`: its chunk tracker, unless `pause` took it, and its `finished_notify`. -/
structure Live (l : Lengths) where
  chunks : Option (ChunkTracker l)
  finishedNotify : Notify

inductive State (l : Lengths) where
  | initializing
  | paused (chunks : ChunkTracker l)
  | live (n : ℕ)
  | error

/-- How far a call of `wait_until_completed` is. -/
inductive Waiter where
  /-- About to look at the state. -/
  | looking
  /-- Waits for a change of the state, for at most a second. -/
  | sleeping
  /-- About to test whether the `n`th live state is finished. -/
  | testing (n : ℕ)
  /-- It was not finished, and the `Notified` future is still to be made. -/
  | notFinished (n : ℕ)
  | parked (n future : ℕ)
  | done
  | failed
  deriving DecidableEq, Repr

structure Torrent (l : Lengths) where
  state : State l
  lives : List (Live l)
  completed : List (Completion l)
  waiters : List Waiter

inductive Event (l : Lengths) where
  | waitUntilCompleted
  /-- A call goes on. -/
  | wait (i : ℕ)
  | reserve (n : ℕ) (index : ValidPieceIndex l)
  | broken (n : ℕ) (index : ValidPieceIndex l)
  | chunk (n : ℕ) (piece : PieceMsg)
  | markPieceHashOk (n : ℕ) (id : ValidPieceIndex l)
  | onPieceCompleted (i : ℕ)
  | updateOnlyFiles (onlyFiles : Finset ℕ)
  /-- `into_chunks` requeues the pieces in flight; `taken`: `self.files.take()` has not failed. -/
  | pause (inflight : List (ValidPieceIndex l)) (taken : Bool)
  /-- `start` of a paused torrent. -/
  | start
  | stopWithError
  /-- `start` of a torrent in the error state. -/
  | checkAgain
  /-- `check()` has found the pieces that are have and those that are selected, or has failed. -/
  | checkDone (pieces : Option (Bits × Bits))

namespace Torrent

variable {l : Lengths} (fileInfos : List FileInfo)

def new : Torrent l := ⟨.initializing, [], [], []⟩

/-- The chunk tracker of the `n`th live state, if it was not taken. -/
def chunksOf (t : Torrent l) (n : ℕ) : Option (ChunkTracker l) := (t.lives[n]?).bind Live.chunks

/-- `TorrentStateLive::is_finished`: false if the chunk tracker was taken. -/
def liveFinished (t : Torrent l) (n : ℕ) : Bool := (t.chunksOf n).any ChunkTracker.isFinished

/-- The future is one of the `n`th live state, and was not notified. -/
def Waits (t : Torrent l) (n future : ℕ) : Prop :=
  ∃ live ∈ t.lives[n]?, ¬live.finishedNotify.Ready future

instance (t : Torrent l) (n future : ℕ) : Decidable (t.Waits n future) :=
  inferInstanceAs (Decidable (∃ live ∈ t.lives[n]?, ¬live.finishedNotify.Ready future))

def waiterStep (t : Torrent l) : Waiter → Option Waiter
  | .looking =>
    match t.state with
    | .initializing | .paused _ => some .sleeping
    | .live n => some (.testing n)
    | .error => some .failed
  | .sleeping => some .looking
  | .testing n => some (if t.liveFinished n then .done else .notFinished n)
  | .notFinished n => (t.lives[n]?).map fun live => .parked n live.finishedNotify.notified
  | .parked n future => if t.Waits n future then none else some .done
  | .done | .failed => none

/-- An operation on the chunk tracker of a live state. -/
def onChunks (t : Torrent l) (n : ℕ) (op : ChunkOp l) : Option (Torrent l) :=
  match t.lives[n]? with
  | some ⟨some chunks, finishedNotify⟩ =>
    some { t with lives := t.lives.set n ⟨some (chunks.apply fileInfos op), finishedNotify⟩ }
  | _ => none

def markPieceHashOk (t : Torrent l) (n : ℕ) (id : ValidPieceIndex l) : Option (Torrent l) :=
  (t.onChunks fileInfos n (.downloaded id)).map fun t : Torrent l =>
    { t with completed := t.completed ++ [⟨n, id⟩] }

/-- `update_file_have_on_piece_completed` of the files of a piece. -/
def filesCompleted (chunks : ChunkTracker l) (id : ValidPieceIndex l) : ChunkTracker l :=
  (PieceTracker.filesOnPieceCompleted fileInfos id).foldl
    (fun c x => (c.updateFileHaveOnPieceCompleted id x.2 x.1).1) chunks

def onPieceCompleted (t : Torrent l) (c : Completion l) : Torrent l :=
  match t.lives[c.live]? with
  | some ⟨some chunks, finishedNotify⟩ =>
    let chunks := filesCompleted fileInfos chunks c.id
    let finishedNotify :=
      if chunks.isFinished then finishedNotify.notifyWaiters else finishedNotify
    { t with lives := t.lives.set c.live ⟨some chunks, finishedNotify⟩ }
  | _ => t

def updateOnlyFiles (t : Torrent l) (onlyFiles : Finset ℕ) : Torrent l :=
  -- "only_files contains invalid value {f}"
  if ∃ f ∈ onlyFiles, fileInfos.length ≤ f then t
  else
    match t.state with
    | .paused chunks => { t with state := .paused (chunks.updateOnlyFiles fileInfos onlyFiles) }
    | .live n => (t.onChunks fileInfos n (.updateOnlyFiles onlyFiles)).getD t
    | .initializing | .error => t

/-- The chunk tracker of a live state is taken. -/
def takeChunks (t : Torrent l) (n : ℕ) : Torrent l :=
  { t with lives := t.lives.modify n fun live => { live with chunks := none } }

def pause (t : Torrent l) (inflight : List (ValidPieceIndex l)) (taken : Bool) : Torrent l :=
  match t.state with
  | .live n =>
    match t.chunksOf n with
    | some chunks =>
      let chunks := inflight.foldl ChunkTracker.markPieceBrokenIfNotHave chunks
      if taken then { t.takeChunks n with state := .paused chunks } else t.takeChunks n
    -- "bug: pausing already paused torrent"
    | none => t
  | .initializing => { t with state := .error }
  | .paused _ | .error => t

def stopWithError (t : Torrent l) : Torrent l :=
  match t.state with
  | .live n => { t.takeChunks n with state := .error }
  | _ => { t with state := .error }

/-- What `initialize_and_start` does with the result of `check()`. -/
def checkDone (t : Torrent l) : Option (Bits × Bits) → Torrent l
  | some (havePieces, selectedPieces) =>
    match ChunkTracker.new havePieces selectedPieces fileInfos, t.state with
    | .ok chunks, .initializing => { t with state := .paused chunks }
    -- "no need to start torrent anymore, as it switched state from initializing"
    | .ok _, _ => t
    | .error _, _ => { t with state := .error }
  | none => { t with state := .error }

def step (t : Torrent l) : Event l → Option (Torrent l)
  | .waitUntilCompleted => some { t with waiters := t.waiters ++ [.looking] }
  | .wait i =>
    (t.waiters[i]?).bind fun w =>
      (t.waiterStep w).map fun w' => { t with waiters := t.waiters.set i w' }
  | .reserve n index => t.onChunks fileInfos n (.reserve index)
  | .broken n index => t.onChunks fileInfos n (.broken index)
  | .chunk n piece => t.onChunks fileInfos n (.chunk piece)
  | .markPieceHashOk n id => t.markPieceHashOk fileInfos n id
  | .onPieceCompleted i =>
    (t.completed[i]?).map fun c : Completion l =>
      { t with completed := t.completed.eraseIdx i }.onPieceCompleted fileInfos c
  | .updateOnlyFiles onlyFiles => some (t.updateOnlyFiles fileInfos onlyFiles)
  | .pause inflight taken => some (t.pause inflight taken)
  | .start =>
    match t.state with
    | .paused chunks =>
      some { t with
        state := .live t.lives.length
        lives := t.lives ++ [⟨some chunks, Notify.new⟩] }
    | _ => none
  | .stopWithError => some t.stopWithError
  | .checkAgain =>
    match t.state with
    | .error => some { t with state := .initializing }
    | _ => none
  | .checkDone pieces => some (t.checkDone fileInfos pieces)

end Torrent

end Completed

end Rtbit
