import Rtbit.Spec.SessionCalls

/-! The calls of a session with the JSON store, one after the other, where every flush may fail.
A call is what its steps in `SessionCalls` do when no other call comes between them. -/

namespace Rtbit

namespace SessionPersistence

inductive Op (H : Type) where
  | add (t : ManagedTorrent H) (preferredId : Option ℕ) (storageFails startOk : Bool)
  | pause (j : ℕ) (ok : Bool)
  | unpause (j : ℕ) (ok : Bool)
  | updateOnlyFiles (j : ℕ) (onlyFiles : List ℕ) (ok : Bool)
  | delete (id : TorrentIdOrHash H) (pauseOk : Bool)

inductive OpResult where
  | ok
  /-- `p.store` has failed; the torrent with this id is taken back. -/
  | notStored (id : ℕ) (e : StoreError)
  /-- `p.delete` has failed, which is only logged. -/
  | notForgotten (e : StoreError)
  | error
  deriving DecidableEq, Repr

/-- What a call returns, and the `session.json` that it has written. -/
structure Outcome (H : Type) where
  result : OpResult
  written : Option (Entries H)
  session : Session H

namespace Session

variable {H : Type} [DecidableEq H]

def addId (s : Session H) (preferredId : Option ℕ) : ℕ := preferredId.getD s.store.nextId

def duplicate (s : Session H) (id : ℕ) (infoHash : H) : Bool :=
  (s.torrents id).isSome || (s.getByInfoHash infoHash).isSome

/-- The torrent `t` is no duplicate, and its storage could be created. -/
def addNew (s : Session H) (t : ManagedTorrent H) (startOk flushFails : Bool) : Outcome H :=
  let s := s.addTorrent t
  match s.store.store t.id t flushFails with
  | (.ok (), store) => ⟨if startOk then .ok else .error, some store.file, { s with store }⟩
  | (.error e, store) => ⟨.notStored t.id e, none, { s with store }.removeTorrent t.id⟩

def addOp (s : Session H) (t : ManagedTorrent H) (preferredId : Option ℕ)
    (storageFails startOk flushFails : Bool) : Outcome H :=
  let id := s.addId preferredId
  if s.duplicate id t.infoHash then ⟨.ok, none, s⟩
  else if storageFails then ⟨.error, none, s⟩
  else s.addNew { t with id } startOk flushFails

/-- `try_update_persistence_metadata` of torrent `j`, which is now `t`. -/
def updateMetadata (s : Session H) (j : ℕ) (t : ManagedTorrent H) (flushFails : Bool) : Outcome H :=
  let s := s.setObject j t
  match s.store.updateMetadata t.id t flushFails with
  | (.ok (), store) => ⟨.ok, some store.file, { s with store }⟩
  | (.error _, store) => ⟨.ok, none, { s with store }⟩

/-- The id and the torrent that a delete removes. -/
def deleteId (s : Session H) (id : TorrentIdOrHash H) : Option (ℕ × ℕ) :=
  let id := match id with
    | .id id => some id
    | .hash infoHash => (s.getByInfoHash infoHash).map Prod.fst
  id.bind fun id => (s.torrents id).map fun j => (id, j)

def pauseRemoved (s : Session H) (j : ℕ) (ok : Bool) : Session H :=
  match s.objects[j]? with
  | some t => s.setObject j { t with paused := t.paused || ok }
  | none => s

def deleteOp (s : Session H) (id : TorrentIdOrHash H) (pauseOk flushFails : Bool) : Outcome H :=
  match s.deleteId id with
  | none => ⟨.error, none, s⟩
  | some (id, j) =>
    let s := (s.removeTorrent id).pauseRemoved j pauseOk
    match s.store.delete id flushFails with
    | (.ok (), store) => ⟨.ok, some store.file, { s with store }⟩
    | (.error e, store) => ⟨.notForgotten e, none, { s with store }⟩

def perform (s : Session H) (op : Op H) (flushFails : Bool) : Outcome H :=
  match op with
  | .add t preferredId storageFails startOk =>
    s.addOp t preferredId storageFails startOk flushFails
  | .pause j ok =>
    match s.objects[j]? with
    | some t =>
      if ok then s.updateMetadata j { t with paused := true } flushFails else ⟨.error, none, s⟩
    | none => ⟨.error, none, s⟩
  | .unpause j ok =>
    match s.objects[j]? with
    | some t =>
      let t := { t with paused := false }
      if ok then s.updateMetadata j t flushFails else ⟨.error, none, s.setObject j t⟩
    | none => ⟨.error, none, s⟩
  | .updateOnlyFiles j onlyFiles ok =>
    match s.objects[j]? with
    | some t =>
      if ok then s.updateMetadata j { t with onlyFiles := some onlyFiles } flushFails
      else ⟨.error, none, s⟩
    | none => ⟨.error, none, s⟩
  | .delete id pauseOk => s.deleteOp id pauseOk flushFails

def stepOp (s : Session H) (e : Op H × Bool) : Option (Session H) :=
  some (s.perform e.1 e.2).session

/-- The id under which the call would put an entry into the map of the store. -/
def storedId (s : Session H) : Op H → Option ℕ
  | .add _ preferredId _ _ => some (s.addId preferredId)
  | .pause j _ | .unpause j _ | .updateOnlyFiles j _ _ => (s.objects[j]?).map (·.id)
  | .delete _ _ => none

end Session

end SessionPersistence

end Rtbit
