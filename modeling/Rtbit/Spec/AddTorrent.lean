import Mathlib.Tactic

/-! `Session::add_torrent_internal` from where it asks for an id, for calls without `preferred_id`.
A call runs from one await point to the next, and the calls of a session are interleaved there.
The info hashes are of any type. `nextval k` is the answer to the `k`th query of the PostgreSQL
sequence, `none` if the query failed. -/

namespace Rtbit

/-- `ManagedTorrentHandle`, by the `id` and `info_hash` of its `ManagedTorrentShared`. -/
structure TorrentHandle (H : Type) where
  id : ℕ
  infoHash : H
  deriving DecidableEq, Repr

structure SessionDatabase (H : Type) where
  torrents : ℕ → Option (TorrentHandle H)
  infoHashToId : H → Option ℕ

namespace SessionDatabase

variable {H : Type} [DecidableEq H]

def addTorrent (db : SessionDatabase H) (torrent : TorrentHandle H) (id : ℕ) :
    SessionDatabase H where
  torrents := Function.update db.torrents id (some torrent)
  infoHashToId := Function.update db.infoHashToId torrent.infoHash (some id)

def removeTorrent (db : SessionDatabase H) (id : ℕ) : SessionDatabase H where
  torrents := Function.update db.torrents id none
  infoHashToId :=
    match db.torrents id with
    | some handle => Function.update db.infoHashToId handle.infoHash none
    | none => db.infoHashToId

def getByInfoHash (db : SessionDatabase H) (infoHash : H) : Option (ℕ × TorrentHandle H) :=
  (db.infoHashToId infoHash).bind fun id => (db.torrents id).map fun handle => (id, handle)

/-- "Check for duplicate by ID or info_hash using the index" -/
def existing (db : SessionDatabase H) (id : ℕ) (infoHash : H) : Option (ℕ × TorrentHandle H) :=
  ((db.torrents id).map fun handle => (id, handle)).or (db.getByInfoHash infoHash)

end SessionDatabase

/-- The torrents in `db_content`, or the number of `nextval` queries and the rows of the table. -/
inductive PersistenceStore (H : Type) where
  | json (torrents : List (ℕ × H))
  | postgres (queries : ℕ) (torrents : List (ℕ × H))
  deriving DecidableEq, Repr

/-- `JsonSessionPersistenceStore::next_id`. -/
def jsonNextId {H : Type} (torrents : List (ℕ × H)) : ℕ :=
  ((torrents.map Prod.fst).max?.map (· + 1)).getD 0

/-- `store`, up to where the torrent is in the map or in the table. -/
def PersistenceStore.store {H : Type} (p : PersistenceStore H) (id : ℕ) (infoHash : H) :
    PersistenceStore H :=
  match p with
  | .json torrents => .json ((id, infoHash) :: torrents.filter fun t => t.1 ≠ id)
  | .postgres queries torrents =>
    .postgres queries
      -- "ON CONFLICT(id) DO NOTHING"
      (if torrents.any fun t => t.1 = id then torrents else (id, infoHash) :: torrents)

inductive AddError where
  /-- The id could not be read. -/
  | nextId
  /-- `create_and_init` failed. -/
  | storage
  /-- The torrent could not be stored. -/
  | store
  /-- "error starting torrent" -/
  | start
  deriving DecidableEq, Repr

inductive AddTorrentResponse (H : Type) where
  | added (id : ℕ) (handle : TorrentHandle H)
  | alreadyManaged (id : ℕ) (handle : TorrentHandle H)
  deriving DecidableEq, Repr

/-- How far a call is. -/
inductive AddPhase (H : Type) where
  | called
  /-- It has read its id and waits for a permit. -/
  | numbered (id : ℕ)
  | permitted (id : ℕ)
  /-- Its torrent is in the database of the session; `store` runs. -/
  | inserted (id : ℕ)
  /-- The store holds its torrent; `flush` may still run. -/
  | stored (id : ℕ)
  | returned (result : Except AddError (AddTorrentResponse H))
  deriving DecidableEq

structure AddCall (H : Type) where
  infoHash : H
  phase : AddPhase H
  deriving DecidableEq

/-- The part of a `Session` that `add_torrent` works on, with the calls made so far. -/
structure AddSession (H : Type) where
  db : SessionDatabase H
  /-- The counter that is used without persistence. -/
  nextId : ℕ
  persistence : Option (PersistenceStore H)
  /-- The free permits of the semaphore of the spawner. -/
  permits : ℕ
  calls : List (AddCall H)

inductive AddEvent (H : Type) where
  | call (infoHash : H)
  | nextId (k : ℕ)
  | acquire (k : ℕ)
  | check (k : ℕ) (storageFails : Bool)
  | store (k : ℕ) (fails : Bool)
  | flushFails (k : ℕ)
  | finish (k : ℕ) (startFails : Bool)

namespace AddSession

variable {H : Type}

def setPhase (s : AddSession H) (k : ℕ) (infoHash : H) (phase : AddPhase H) : AddSession H :=
  { s with calls := s.calls.set k ⟨infoHash, phase⟩ }

/-- The call returns and drops its permit. -/
def endCall (s : AddSession H) (k : ℕ) (infoHash : H)
    (result : Except AddError (AddTorrentResponse H)) : AddSession H :=
  { s.setPhase k infoHash (.returned result) with permits := s.permits + 1 }

def readId (nextval : ℕ → Option ℕ) (s : AddSession H) : Option ℕ × AddSession H :=
  match s.persistence with
  | none => (some s.nextId, { s with nextId := s.nextId + 1 })
  | some (.json torrents) => (some (jsonNextId torrents), s)
  | some (.postgres queries torrents) =>
    (nextval queries, { s with persistence := some (.postgres (queries + 1) torrents) })

section Steps

variable [DecidableEq H]

/-- The section under `self.db.write()`. -/
def check (s : AddSession H) (k : ℕ) (infoHash : H) (id : ℕ) (storageFails : Bool) : AddSession H :=
  match s.db.existing id infoHash with
  | some (id, handle) => s.endCall k infoHash (.ok (.alreadyManaged id handle))
  | none =>
    if storageFails then s.endCall k infoHash (.error .storage)
    else { s.setPhase k infoHash (.inserted id) with db := s.db.addTorrent ⟨id, infoHash⟩ id }

/-- `store` has failed: the torrent is removed again. -/
def storeFailed (s : AddSession H) (k : ℕ) (infoHash : H) (id : ℕ) : AddSession H :=
  { s.endCall k infoHash (.error .store) with db := s.db.removeTorrent id }

def store (s : AddSession H) (k : ℕ) (infoHash : H) (id : ℕ) (fails : Bool) : AddSession H :=
  match s.persistence with
  | none => s.setPhase k infoHash (.stored id)
  | some p =>
    if fails then s.storeFailed k infoHash id
    else { s.setPhase k infoHash (.stored id) with persistence := some (p.store id infoHash) }

def step (nextval : ℕ → Option ℕ) (s : AddSession H) : AddEvent H → Option (AddSession H)
  | .call infoHash => some { s with calls := s.calls ++ [⟨infoHash, .called⟩] }
  | .nextId k =>
    match s.calls[k]? with
    | some ⟨infoHash, .called⟩ =>
      match s.readId nextval with
      | (some id, s) => some (s.setPhase k infoHash (.numbered id))
      | (none, s) => some (s.setPhase k infoHash (.returned (.error .nextId)))
    | _ => none
  | .acquire k =>
    match s.calls[k]? with
    | some ⟨infoHash, .numbered id⟩ =>
      if 0 < s.permits then
        some { s.setPhase k infoHash (.permitted id) with permits := s.permits - 1 }
      else none
    | _ => none
  | .check k storageFails =>
    match s.calls[k]? with
    | some ⟨infoHash, .permitted id⟩ => some (s.check k infoHash id storageFails)
    | _ => none
  | .store k fails =>
    match s.calls[k]? with
    | some ⟨infoHash, .inserted id⟩ => some (s.store k infoHash id fails)
    | _ => none
  | .flushFails k =>
    match s.calls[k]?, s.persistence with
    | some ⟨infoHash, .stored id⟩, some (.json _) => some (s.storeFailed k infoHash id)
    | _, _ => none
  | .finish k startFails =>
    match s.calls[k]? with
    | some ⟨infoHash, .stored id⟩ =>
      some (s.endCall k infoHash
        (if startFails then .error .start else .ok (.added id ⟨id, infoHash⟩)))
    | _ => none

end Steps

end AddSession

end Rtbit
