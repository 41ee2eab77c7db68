import Rtbit.Spec.AddTorrent

/-! `add_torrent_internal` and `Session::delete` as they work on the `SessionDatabase`, with any
store. The id of an add is its `preferred_id`, or whatever the store or the counter returned. Each
step is one section under the lock of the database. -/

namespace Rtbit

inductive TorrentIdOrHash (H : Type) where
  | id (id : ℕ)
  | hash (infoHash : H)
  deriving DecidableEq, Repr

inductive DeleteError where
  /-- "no such torrent in db" -/
  | noSuchTorrent
  /-- "torrent with id {id} did not exist" -/
  | didNotExist
  deriving DecidableEq, Repr

/-- How far a call of `add_torrent_internal` or of `delete` is. -/
inductive IndexCall (H : Type) where
  /-- It has its id and waits for the lock. -/
  | adding (infoHash : H) (id : ℕ)
  /-- Its torrent is in the database; `store` runs. -/
  | storing (infoHash : H) (id : ℕ)
  | added (result : Except AddError (AddTorrentResponse H))
  | deleting (id : TorrentIdOrHash H)
  /-- The id is known and the torrent is still to be removed. -/
  | removing (id : ℕ)
  | deleted (result : Except DeleteError (TorrentHandle H))

structure IndexSession (H : Type) where
  db : SessionDatabase H
  calls : List (IndexCall H)

inductive IndexEvent (H : Type) where
  | add (infoHash : H) (id : ℕ)
  | check (k : ℕ) (storageFails : Bool)
  | store (k : ℕ) (fails startFails : Bool)
  | delete (id : TorrentIdOrHash H)
  | lookup (k : ℕ)
  | remove (k : ℕ)

namespace IndexSession

variable {H : Type}

def start : IndexSession H := ⟨⟨fun _ => none, fun _ => none⟩, []⟩

def call (s : IndexSession H) (c : IndexCall H) : IndexSession H := { s with calls := s.calls ++ [c] }

def setCall (s : IndexSession H) (k : ℕ) (c : IndexCall H) : IndexSession H :=
  { s with calls := s.calls.set k c }

variable [DecidableEq H]

def check (s : IndexSession H) (k : ℕ) (infoHash : H) (id : ℕ) (storageFails : Bool) :
    IndexSession H :=
  match s.db.existing id infoHash with
  | some (id, handle) => s.setCall k (.added (.ok (.alreadyManaged id handle)))
  | none =>
    if storageFails then s.setCall k (.added (.error .storage))
    else { s.setCall k (.storing infoHash id) with db := s.db.addTorrent ⟨id, infoHash⟩ id }

/-- Where `store` fails the torrent is removed again, by its id. -/
def store (s : IndexSession H) (k : ℕ) (infoHash : H) (id : ℕ) (fails startFails : Bool) :
    IndexSession H :=
  if fails then { s.setCall k (.added (.error .store)) with db := s.db.removeTorrent id }
  else if startFails then s.setCall k (.added (.error .start))
  else s.setCall k (.added (.ok (.added id ⟨id, infoHash⟩)))

def lookup (s : IndexSession H) (k : ℕ) : TorrentIdOrHash H → IndexSession H
  | .id id => s.setCall k (.removing id)
  | .hash infoHash =>
    match s.db.getByInfoHash infoHash with
    | some (id, _) => s.setCall k (.removing id)
    | none => s.setCall k (.deleted (.error .noSuchTorrent))

def remove (s : IndexSession H) (k id : ℕ) : IndexSession H :=
  match s.db.torrents id with
  | some handle => { s.setCall k (.deleted (.ok handle)) with db := s.db.removeTorrent id }
  | none => s.setCall k (.deleted (.error .didNotExist))

def step (s : IndexSession H) : IndexEvent H → Option (IndexSession H)
  | .add infoHash id => some (s.call (.adding infoHash id))
  | .check k storageFails =>
    match s.calls[k]? with
    | some (.adding infoHash id) => some (s.check k infoHash id storageFails)
    | _ => none
  | .store k fails startFails =>
    match s.calls[k]? with
    | some (.storing infoHash id) => some (s.store k infoHash id fails startFails)
    | _ => none
  | .delete id => some (s.call (.deleting id))
  | .lookup k =>
    match s.calls[k]? with
    | some (.deleting id) => some (s.lookup k id)
    | _ => none
  | .remove k =>
    match s.calls[k]? with
    | some (.removing id) => some (s.remove k id)
    | _ => none

end IndexSession

end Rtbit
