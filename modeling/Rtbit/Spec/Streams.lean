import Rtbit.Spec.Lengths

/-! The `FileStream`s of a torrent, the `TorrentStreams` they are registered in, and the completions
of pieces that wake them. A `TorrentStreams` has a number: `check()` makes a new one, and a stream
keeps the one it was made with. A live state that was replaced can still complete its pieces. -/

namespace Rtbit

namespace Streams

/-- `librtbit_core::lengths::CurrentPiece`. -/
structure CurrentPiece (l : Lengths) where
  id : ValidPieceIndex l
  pieceRemaining : ℕ

/-- A `FileStream` with its entry in its `TorrentStreams`. -/
structure FileStream where
  streams : ℕ
  fileLen : ℕ
  fileAbsOffset : ℕ
  position : ℕ
  /-- A waker is registered. -/
  waker : Bool
  /-- The last poll has returned `Pending`. -/
  pending : Bool
  deriving DecidableEq, Repr

/-- `TorrentStateLive`: its pieces that are have, unless `pause` took them. -/
structure Live (l : Lengths) where
  pieces : Option (Finset (ValidPieceIndex l))
  streams : ℕ

inductive State (l : Lengths) where
  | initializing
  | paused (havePieces : Finset (ValidPieceIndex l)) (streams : ℕ)
  | live (n : ℕ)
  | error
  deriving DecidableEq

/-- A completion between `mark_piece_hash_ok` and `on_piece_completed`. -/
structure Completion (l : Lengths) where
  live : ℕ
  id : ValidPieceIndex l
  deriving DecidableEq

structure Torrent (l : Lengths) where
  state : State l
  lives : List (Live l)
  /-- The number of `TorrentStreams` made. -/
  registries : ℕ
  /-- Calls of `stream` with their `TorrentStreams`, that wait for their permit. -/
  opening : List (ℕ × ℕ × ℕ)
  streams : List FileStream
  completed : List (Completion l)

inductive Event (l : Lengths) where
  /-- `stream` of a file of this length and offset, up to `acquire_owned`. -/
  | stream (fileLen fileAbsOffset : ℕ)
  | insertStream (i : ℕ)
  | dropStream (i : ℕ)
  /-- `readOk`: the storage could be read. -/
  | pollRead (i bufLen : ℕ) (readOk : Bool)
  /-- `start_seek`, and `poll_complete`, which is ready at once. -/
  | seek (i newPos : ℕ)
  | markPieceHashOk (n : ℕ) (id : ValidPieceIndex l)
  | onPieceCompleted (i : ℕ)
  /-- `taken`: `self.files.take()` has not failed. -/
  | pause (taken : Bool)
  /-- `start` of a paused torrent. -/
  | start
  | stopWithError
  /-- `start` of a torrent in the error state. -/
  | checkAgain
  /-- `check()` has returned the pieces that are have, or an error. -/
  | checkDone (havePieces : Option (Finset (ValidPieceIndex l)))

variable {l : Lengths} (computeCurrentPiece : ℕ → ℕ → Option (CurrentPiece l))

namespace FileStream

def currentPiece (f : FileStream) : Option (CurrentPiece l) :=
  computeCurrentPiece f.position f.fileAbsOffset

def registerWaker (f : FileStream) : FileStream := { f with waker := true, pending := true }

/-- Returns `Ready`. -/
def ready (f : FileStream) : FileStream := { f with pending := false }

def advance (f : FileStream) (diff : ℕ) : FileStream := { f with position := f.position + diff }

/-- `poll_read`; `havePieces` is what `with_chunk_tracker` finds, `none` if it fails. -/
def pollRead (f : FileStream) (havePieces : Option (Finset (ValidPieceIndex l))) (bufLen : ℕ)
    (readOk : Bool) : FileStream :=
  if f.position = f.fileLen then f.ready
  else
    match f.currentPiece computeCurrentPiece, havePieces with
    -- "invalid position"
    | none, _ => f.ready
    | some _, none => f.ready
    | some current, some havePieces =>
      if current.id ∈ havePieces then
        if readOk then
          (f.advance (min (min bufLen current.pieceRemaining) (f.fileLen - f.position))).ready
        else f.ready
      else f.registerWaker

/-- `start_seek`. A position behind the end of the file is refused. -/
def seek (f : FileStream) (newPos : ℕ) : FileStream :=
  if newPos ≤ f.fileLen then { f with position := newPos, pending := false } else f

/-- What `wake_streams_on_piece_completed` of the `TorrentStreams` `streams` does to the stream. -/
def wakeOnPieceCompleted (streams : ℕ) (id : ValidPieceIndex l) (f : FileStream) : FileStream :=
  if f.streams = streams ∧ (f.currentPiece computeCurrentPiece).map CurrentPiece.id = some id then
    { f with waker := false }
  else f

end FileStream

namespace Torrent

def new : Torrent l := ⟨.initializing, [], 0, [], [], []⟩

/-- `with_chunk_tracker`, for the pieces that are have. -/
def havePieces (t : Torrent l) : Option (Finset (ValidPieceIndex l)) :=
  match t.state with
  | .paused havePieces _ => some havePieces
  | .live n => (t.lives[n]?).bind Live.pieces
  | .initializing | .error => none

/-- `ManagedTorrent::streams`. -/
def torrentStreams (t : Torrent l) : Option ℕ :=
  match t.state with
  | .paused _ streams => some streams
  | .live n => (t.lives[n]?).map Live.streams
  | .initializing | .error => none

/-- The pieces of a live state are taken. -/
def takePieces (t : Torrent l) (n : ℕ) : Torrent l :=
  { t with lives := t.lives.modify n fun live => { live with pieces := none } }

def pause (t : Torrent l) (taken : Bool) : Torrent l :=
  match t.state with
  | .live n =>
    match t.lives[n]? with
    | some ⟨some havePieces, streams⟩ =>
      if taken then { t.takePieces n with state := .paused havePieces streams } else t.takePieces n
    -- "bug: pausing already paused torrent"
    | _ => t
  | .initializing => { t with state := .error }
  | .paused _ _ | .error => t

def stopWithError (t : Torrent l) : Torrent l :=
  match t.state with
  | .live n => { t.takePieces n with state := .error }
  | _ => { t with state := .error }

def markPieceHashOk (t : Torrent l) (n : ℕ) (id : ValidPieceIndex l) : Option (Torrent l) :=
  match t.lives[n]? with
  | some ⟨some havePieces, streams⟩ =>
    some { t with
      lives := t.lives.set n ⟨some (insert id havePieces), streams⟩
      completed := t.completed ++ [⟨n, id⟩] }
  | _ => none

/-- `on_piece_completed`, which fails before it wakes a stream if the pieces were taken. -/
def onPieceCompleted (t : Torrent l) (c : Completion l) : Torrent l :=
  match t.lives[c.live]? with
  | some ⟨some _, streams⟩ =>
    { t with
      streams := t.streams.map
        (FileStream.wakeOnPieceCompleted computeCurrentPiece streams c.id) }
  | _ => t

/-- What `initialize_and_start` does with the result of `check()`. -/
def checkDone (t : Torrent l) : Option (Finset (ValidPieceIndex l)) → Torrent l
  | some havePieces =>
    match t.state with
    | .initializing =>
      { t with state := .paused havePieces t.registries, registries := t.registries + 1 }
    -- "no need to start torrent anymore, as it switched state from initializing"
    | _ => t
  | none => { t with state := .error }

def step (t : Torrent l) : Event l → Option (Torrent l)
  | .stream fileLen fileAbsOffset =>
    t.torrentStreams.map fun streams : ℕ =>
      { t with opening := t.opening ++ [(streams, fileLen, fileAbsOffset)] }
  | .insertStream i =>
    (t.opening[i]?).map fun o : ℕ × ℕ × ℕ =>
      { t with
        opening := t.opening.eraseIdx i
        streams := t.streams ++ [⟨o.1, o.2.1, o.2.2, 0, false, false⟩] }
  | .dropStream i => some { t with streams := t.streams.eraseIdx i }
  | .pollRead i bufLen readOk =>
    let poll (f : FileStream) := f.pollRead computeCurrentPiece t.havePieces bufLen readOk
    some { t with streams := t.streams.modify i poll }
  | .seek i newPos => some { t with streams := t.streams.modify i (FileStream.seek · newPos) }
  | .markPieceHashOk n id => t.markPieceHashOk n id
  | .onPieceCompleted i =>
    (t.completed[i]?).map fun c : Completion l =>
      { t with completed := t.completed.eraseIdx i }.onPieceCompleted computeCurrentPiece c
  | .pause taken => some (t.pause taken)
  | .start =>
    match t.state with
    | .paused havePieces streams =>
      some { t with
        state := .live t.lives.length
        lives := t.lives ++ [⟨some havePieces, streams⟩] }
    | _ => none
  | .stopWithError => some t.stopWithError
  | .checkAgain =>
    match t.state with
    | .error => some { t with state := .initializing }
    | _ => none
  | .checkDone havePieces => some (t.checkDone havePieces)

end Torrent

end Streams

end Rtbit
