import Rtbit.Lib.Lru
import Rtbit.Spec.Chunks

/-! `storage/middleware/write_through_cache.rs`. `compute_current_piece` comes from the crate
`librtbit-core`, which is not part of this repository; it is a parameter. So is the underlying
storage, with the states that it has. -/

namespace Rtbit

open Lib

/-- What the cache calls of the underlying storage, and `pwrite_all_vectored`, which it does not. -/
structure TorrentStorage (σ E : Type) where
  preadExact : σ → (fileId offset len : ℕ) → Except E (List UInt8)
  pwriteAll : σ → (fileId offset : ℕ) → List UInt8 → σ × Except E Unit
  pwriteAllVectored : σ → (fileId offset : ℕ) → List UInt8 × List UInt8 → σ × Except E ℕ

/-- The default of the trait: `pwrite_all` of each slice in turn. -/
def pwriteAllVectoredDefault {σ E : Type}
    (pwriteAll : σ → (fileId offset : ℕ) → List UInt8 → σ × Except E Unit) (st : σ)
    (fileId offset : ℕ) (bufs : List UInt8 × List UInt8) : σ × Except E ℕ :=
  match pwriteAll st fileId offset bufs.1 with
  | (st, .error e) => (st, .error e)
  | (st, .ok ()) =>
    match pwriteAll st fileId (offset + bufs.1.length) bufs.2 with
    | (st, .error e) => (st, .error e)
    | (st, .ok ()) => (st, .ok (bufs.1.length + bufs.2.length))

/-- The piece of a position, and where in the piece it is. -/
structure CurrentPosition (l : Lengths) where
  id : ValidPieceIndex l
  pieceOffset : ℕ

inductive CacheError (E : Type) where
  /-- "wrong file" -/
  | wrongFile
  /-- "wrong piece" -/
  | wrongPiece
  /-- "bugged length" -/
  | buggedLength
  /-- "bugged range" -/
  | buggedRange
  | underlying (e : E)
  deriving DecidableEq, Repr

structure WriteThroughCacheStorage (l : Lengths) (σ : Type) where
  lru : Lru (ValidPieceIndex l) (List UInt8)
  underlying : σ

namespace WriteThroughCacheStorage

variable {l : Lengths} {σ E : Type}

/-- `create`; the error is "bug: pieces == 0". -/
def create (l : Lengths) (maxCacheBytes : ℕ) (underlying : σ) :
    Option (WriteThroughCacheStorage l σ) :=
  let pieces := (maxCacheBytes + l.defaultPieceLength - 1) / l.defaultPieceLength
  if h : 0 < pieces then some ⟨Lru.new pieces h, underlying⟩ else none

variable (computeCurrentPiece : ℕ → ℕ → Option (CurrentPosition l)) (fs : List FileInfo)
  (u : TorrentStorage σ E)

/-- The file, and the position in it, that a call is about. -/
def locate (fileId offset : ℕ) : Except (CacheError E) (CurrentPosition l) :=
  match fs[fileId]? with
  | none => .error .wrongFile
  | some file =>
    match computeCurrentPiece offset file.offsetInTorrent with
    | none => .error .wrongPiece
    | some current => .ok current

def preadExact (s : WriteThroughCacheStorage l σ) (fileId offset len : ℕ) :
    WriteThroughCacheStorage l σ × Except (CacheError E) (List UInt8) :=
  match locate computeCurrentPiece fs fileId offset with
  | .error e => (s, .error e)
  | .ok current =>
    match s.lru.get current.id with
    | (some p, lru) =>
      let start := current.pieceOffset
      if start + len ≤ p.length then ({ s with lru }, .ok ((p.drop start).take len))
      else ({ s with lru }, .error .buggedLength)
    | (none, lru) =>
      ({ s with lru }, (u.preadExact s.underlying fileId offset len).mapError .underlying)

def pwriteAll (s : WriteThroughCacheStorage l σ) (fileId offset : ℕ) (buf : List UInt8) :
    WriteThroughCacheStorage l σ × Except (CacheError E) Unit :=
  match locate computeCurrentPiece fs fileId offset with
  | .error e => (s, .error e)
  | .ok current =>
    let init := List.replicate (l.pieceLength current.id) 0
    let start := current.pieceOffset
    let pbuf := (s.lru.find current.id).getD init
    if start + buf.length ≤ pbuf.length then
      let lru := s.lru.getOrInsertMut current.id init fun p => Storage.overwrite p start buf
      let (underlying, r) := u.pwriteAll s.underlying fileId offset buf
      (⟨lru, underlying⟩, r.mapError .underlying)
    else ({ s with lru := s.lru.getOrInsertMut current.id init id }, .error .buggedRange)

/-- The cache does not override the default of the trait. -/
def pwriteAllVectored : WriteThroughCacheStorage l σ → (fileId offset : ℕ) →
    List UInt8 × List UInt8 → WriteThroughCacheStorage l σ × Except (CacheError E) ℕ :=
  pwriteAllVectoredDefault (pwriteAll computeCurrentPiece fs u)

end WriteThroughCacheStorage

/-! The calls, made through the cache and made directly. -/

inductive StorageCall where
  | preadExact (fileId offset len : ℕ)
  | pwriteAll (fileId offset : ℕ) (buf : List UInt8)
  | pwriteAllVectored (fileId offset : ℕ) (bufs : List UInt8 × List UInt8)
  deriving DecidableEq, Repr

/-- What the caller sees, errors alike. -/
inductive StorageReply where
  | error
  | bytes (b : List UInt8)
  | done
  | written (n : ℕ)
  deriving DecidableEq, Repr

namespace StorageReply

variable {E α : Type}

def of (ok : α → StorageReply) : Except E α → StorageReply
  | .error _ => .error
  | .ok a => ok a

end StorageReply

section

variable {l : Lengths} {σ E : Type} (computeCurrentPiece : ℕ → ℕ → Option (CurrentPosition l))
  (fs : List FileInfo) (u : TorrentStorage σ E)

def TorrentStorage.call (st : σ) : StorageCall → σ × StorageReply
  | .preadExact fileId offset len => (st, .of .bytes (u.preadExact st fileId offset len))
  | .pwriteAll fileId offset buf =>
    let (st, r) := u.pwriteAll st fileId offset buf
    (st, .of (fun _ => .done) r)
  | .pwriteAllVectored fileId offset bufs =>
    let (st, r) := u.pwriteAllVectored st fileId offset bufs
    (st, .of .written r)

def WriteThroughCacheStorage.call (s : WriteThroughCacheStorage l σ) :
    StorageCall → WriteThroughCacheStorage l σ × StorageReply
  | .preadExact fileId offset len =>
    let (s, r) := s.preadExact computeCurrentPiece fs u fileId offset len
    (s, .of .bytes r)
  | .pwriteAll fileId offset buf =>
    let (s, r) := s.pwriteAll computeCurrentPiece fs u fileId offset buf
    (s, .of (fun _ => .done) r)
  | .pwriteAllVectored fileId offset bufs =>
    let (s, r) := s.pwriteAllVectored computeCurrentPiece fs u fileId offset bufs
    (s, .of .written r)

end

end Rtbit
