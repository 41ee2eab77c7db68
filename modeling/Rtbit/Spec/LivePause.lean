import Rtbit.Spec.PieceTracker

/-! `TorrentStateLive::pause` and `ManagedTorrent::pause` with what they move: the piece tracker,
the sender of fatal errors, the cancellation token and the storage. A `take` returns the new storage
or an error, and the storage that is left in the live state. The storages of `storage/` are below;
`Box<dyn TorrentStorage>` is any of them. -/

namespace Rtbit

structure TorrentStateLive (l : Lengths) (σ : Type) where
  /-- `cancellation_token` is cancelled. -/
  cancelled : Bool
  /-- `fatal_errors_tx` is there. -/
  fatalErrorsTx : Bool
  pieces : Option (PieceTracker l)
  files : σ

structure TorrentStatePaused (l : Lengths) (σ : Type) where
  files : σ
  chunkTracker : ChunkTracker l

inductive TorrentData (l : Lengths) (σ : Type) where
  | initializing
  | paused (paused : TorrentStatePaused l σ)
  | live (live : TorrentStateLive l σ)
  | error (message : String)
  | none

/-- `ManagedTorrentLocked`, and how often `cancel_and_reset_token` was called. -/
structure ManagedTorrentLocked (l : Lengths) (σ : Type) where
  paused : Bool
  state : TorrentData l σ
  generation : ℕ

section Pause

variable {l : Lengths} {σ : Type} (take : σ → Except String σ × σ)

def TorrentStateLive.pause (live : TorrentStateLive l σ) :
    Except String (TorrentStatePaused l σ) × TorrentStateLive l σ :=
  -- "It should be impossible to make a fatal error after pausing."
  let live := { live with cancelled := true, fatalErrorsTx := false }
  match live.pieces with
  | none => (.error "bug: pausing already paused torrent", live)
  | some pieceTracker =>
    let chunkTracker := pieceTracker.intoChunks
    let taken := take live.files
    (taken.1.map fun files => ⟨files, chunkTracker⟩, { live with pieces := none, files := taken.2 })

def ManagedTorrentLocked.pause (g : ManagedTorrentLocked l σ) :
    Except String Unit × ManagedTorrentLocked l σ :=
  match g.state with
  | .live live =>
    match live.pause take with
    | (.ok paused, _) => (.ok (), { g with state := .paused paused, paused := true })
    | (.error e, live) => (.error e, { g with state := .live live })
  | .initializing =>
    (.ok (), { g with
      state := .error "paused during initialization"
      paused := true
      generation := g.generation + 1 })
  | .paused _ => (.error "torrent is already paused", g)
  | .error _ => (.error "can't pause torrent in error state", g)
  | .none => (.error "bug: torrent is in empty state", g)

end Pause

/-- The opened files and maps of a storage; `none` for a file that was taken and for a dummy map. -/
inductive FileStorage where
  | filesystem (openedFiles : List (Option ℕ))
  | mmap (openedMmaps openedFiles : List (Option ℕ))
  | timing (underlying : FileStorage)
  | slow (underlying : FileStorage)
  | writeThroughCache (capacity : ℕ) (lru : List ℕ) (underlying : FileStorage)
  deriving DecidableEq, Repr

namespace FileStorage

/-- `OpenedFile::take_clone` of every file: it cannot fail. -/
def takeFs (openedFiles : List (Option ℕ)) : List (Option ℕ) × List (Option ℕ) :=
  (openedFiles, openedFiles.map fun _ => none)

variable (dummyMmap : ℕ → Except String Unit)

/-- The maps from the `k`th on are replaced one by one, each after its `dummy_mmap`. -/
def takeMmaps : ℕ → List (Option ℕ) → Except String (List (Option ℕ)) × List (Option ℕ)
  | _, [] => (.ok [], [])
  | k, m :: ms =>
    match dummyMmap k with
    -- the maps that were taken are dropped with the vector they were collected in
    | .error e => (.error e, m :: ms)
    | .ok () =>
      let rest := takeMmaps (k + 1) ms
      (rest.1.map (m :: ·), none :: rest.2)

/-- `take`; `dummyMmap k` is the result of the `k`th call of `dummy_mmap`. -/
def take : FileStorage → Except String FileStorage × FileStorage
  | .filesystem openedFiles =>
    let taken := takeFs openedFiles
    (.ok (.filesystem taken.1), .filesystem taken.2)
  | .mmap openedMmaps openedFiles =>
    match takeMmaps dummyMmap 0 openedMmaps with
    | (.error e, left) => (.error e, .mmap left openedFiles)
    | (.ok mmaps, left) =>
      let taken := takeFs openedFiles
      (.ok (.mmap mmaps taken.1), .mmap left taken.2)
  | .timing underlying =>
    let taken := take underlying
    (taken.1.map .timing, .timing taken.2)
  | .slow underlying => (.error "not implemented", .slow underlying)
  | .writeThroughCache capacity lru underlying =>
    let taken := take underlying
    (taken.1.map (.writeThroughCache capacity lru), .writeThroughCache 1 [] taken.2)

end FileStorage

end Rtbit
