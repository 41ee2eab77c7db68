import Rtbit.Spec.SessionIndex
import Rtbit.Spec.SessionPersistence

/-! Concurrent `add_torrent`, `pause`, `unpause`, `update_only_files` and `delete` calls of a
session with the JSON store. A step is what a call does under one lock. What `pause`, `start` and
`update_only_files` of the torrent return depends on its state and is part of the event. -/

namespace Rtbit

namespace SessionPersistence

/-- Who waits for `update_db`. -/
inductive Updater where
  /-- `add_torrent`, with its `opts.paused`. -/
  | store (paused : Bool)
  /-- `try_update_persistence_metadata`, which only logs an error. -/
  | updateMetadata
  deriving DecidableEq, Repr

/-- How far a call is. `j` is the torrent it works on, by its place in `Session.objects`. -/
inductive Call (H : Type) where
  | adding (t : ManagedTorrent H) (preferredId : Option ℕ)
  | numbered (t : ManagedTorrent H)
  | pausing (j : ℕ)
  | unpausing (j : ℕ)
  | selecting (j : ℕ) (onlyFiles : List ℕ)
  /-- `update_db` is called. -/
  | updating (j : ℕ) (who : Updater)
  /-- `update_db` has read `only_files`, and not yet `is_paused`. -/
  | reading (j : ℕ) (onlyFiles : Option (List ℕ)) (who : Updater)
  /-- It waits for the lock of `db_content`. -/
  | writing (j : ℕ) (st : SerializedTorrent H) (who : Updater)
  /-- The entry is in the map; `flush` is called. -/
  | flushing (j : ℕ) (who : Updater)
  | starting (j : ℕ) (paused : Bool)
  | deleting (id : TorrentIdOrHash H)
  | removing (id : ℕ)
  /-- The torrent is out of the session, and is now paused. -/
  | removed (id j : ℕ)
  /-- The `delete` of the store is called. -/
  | forgetting (id : ℕ)
  | forgot (infoHash : H)
  | returned (ok : Bool)
  deriving DecidableEq

structure Session (H : Type) where
  /-- Every `ManagedTorrent` that was made. -/
  objects : List (ManagedTorrent H)
  torrents : ℕ → Option ℕ
  infoHashToId : H → Option ℕ
  store : JsonStore H
  calls : List (Call H)

inductive Event (H : Type) where
  | call (c : Call H)
  | nextId (k : ℕ)
  | check (k : ℕ) (storageFails : Bool)
  | apply (k : ℕ) (ok : Bool)
  | readOnlyFiles (k : ℕ)
  | readIsPaused (k : ℕ)
  | insert (k : ℕ)
  | flush (k : ℕ) (fails : Bool)
  | start (k : ℕ) (ok : Bool)
  | lookup (k : ℕ)
  | remove (k : ℕ)
  | pauseRemoved (k : ℕ) (ok : Bool)
  | forget (k : ℕ)

/-- The calls begin with their arguments. -/
def Call.isNew {H : Type} : Call H → Bool
  | .adding _ _ | .pausing _ | .unpausing _ | .selecting _ _ | .deleting _ => true
  | _ => false

namespace Session

variable {H : Type}

def new : Session H := ⟨[], fun _ => none, fun _ => none, .new, []⟩

def setCall (s : Session H) (k : ℕ) (c : Call H) : Session H := { s with calls := s.calls.set k c }

def setObject (s : Session H) (j : ℕ) (t : ManagedTorrent H) : Session H :=
  { s with objects := s.objects.set j t }

def getByInfoHash (s : Session H) (infoHash : H) : Option (ℕ × ℕ) :=
  (s.infoHashToId infoHash).bind fun id => (s.torrents id).map fun j => (id, j)

/-- `handle.pause()`, `handle.start(..)` and `handle.update_only_files(..)`. -/
def apply (s : Session H) (k : ℕ) (ok : Bool) : Option (Session H) :=
  match s.calls[k]? with
  | some (.pausing j) => (s.objects[j]?).map fun t =>
    if ok then (s.setObject j { t with paused := true }).setCall k (.updating j .updateMetadata)
    else s.setCall k (.returned false)
  | some (.unpausing j) => (s.objects[j]?).map fun t =>
    -- `start` sets the flag before it looks at the state
    let s := s.setObject j { t with paused := false }
    if ok then s.setCall k (.updating j .updateMetadata) else s.setCall k (.returned false)
  | some (.selecting j onlyFiles) => (s.objects[j]?).map fun t =>
    if ok then
      (s.setObject j { t with onlyFiles := some onlyFiles }).setCall k (.updating j .updateMetadata)
    else s.setCall k (.returned false)
  | _ => none

/-- What follows an `update_db` that has succeeded. -/
def stored (s : Session H) (k j : ℕ) : Updater → Session H
  | .store paused => s.setCall k (.starting j paused)
  | .updateMetadata => s.setCall k (.returned true)

section Maps

variable [DecidableEq H]

def addTorrent (s : Session H) (t : ManagedTorrent H) : Session H :=
  { s with
    objects := s.objects ++ [t]
    infoHashToId := Function.update s.infoHashToId t.infoHash (some t.id)
    torrents := Function.update s.torrents t.id (some s.objects.length) }

def removeTorrent (s : Session H) (id : ℕ) : Session H :=
  { s with
    torrents := Function.update s.torrents id none
    infoHashToId :=
      match (s.torrents id).bind fun j => s.objects[j]? with
      | some t => Function.update s.infoHashToId t.infoHash none
      | none => s.infoHashToId }

def check (s : Session H) (k : ℕ) (t : ManagedTorrent H) (storageFails : Bool) : Session H :=
  if (s.torrents t.id).isSome || (s.getByInfoHash t.infoHash).isSome then
    -- `AlreadyManaged`
    s.setCall k (.returned true)
  else if storageFails then s.setCall k (.returned false)
  else (s.addTorrent t).setCall k (.updating s.objects.length (.store t.paused))

/-- `update_db` has failed: a call of `add_torrent` takes its torrent back. -/
def storeFailed (s : Session H) (k id : ℕ) : Updater → Session H
  | .store _ => (s.removeTorrent id).setCall k (.returned false)
  | .updateMetadata => s.setCall k (.returned true)

def readOnlyFiles (s : Session H) (k j : ℕ) (t : ManagedTorrent H) (who : Updater) : Session H :=
  if t.filesystem then s.setCall k (.reading j t.onlyFiles who) else s.storeFailed k t.id who

def insert (s : Session H) (k j : ℕ) (t : ManagedTorrent H) (st : SerializedTorrent H)
    (who : Updater) : Session H :=
  let store := match who with
    | .store _ => s.store.writeTorrentFile t
    | .updateMetadata => s.store
  { s with store := store.insert t.id st, calls := s.calls.set k (.flushing j who) }

def flush (s : Session H) (k : ℕ) (fails : Bool) : Option (Session H) :=
  match s.calls[k]? with
  | some (.flushing j who) => (s.objects[j]?).map fun t =>
    match s.store.flush fails with
    | (.ok (), store) => { s with store }.stored k j who
    | (.error _, store) => { s with store }.storeFailed k t.id who
  | some (.forgot infoHash) =>
    match s.store.flush fails with
    | (.ok (), store) =>
      let torrentFiles := Function.update store.torrentFiles infoHash none
      some ({ s with store := { store with torrentFiles } }.setCall k (.returned true))
    -- the error is only logged
    | (.error _, store) => some ({ s with store }.setCall k (.returned true))
  | _ => none

def lookup (s : Session H) (k : ℕ) : TorrentIdOrHash H → Session H
  | .id id => s.setCall k (.removing id)
  | .hash infoHash =>
    match s.getByInfoHash infoHash with
    | some (id, _) => s.setCall k (.removing id)
    | none => s.setCall k (.returned false)

def remove (s : Session H) (k id : ℕ) : Session H :=
  match s.torrents id with
  | some j => (s.removeTorrent id).setCall k (.removed id j)
  | none => s.setCall k (.returned false)

/-- The `delete` of the store up to its flush; "didn't find torrent" is only logged. -/
def forget (s : Session H) (k id : ℕ) : Session H :=
  match s.store.dbContent.lookup id with
  | some st =>
    { s with
      store := { s.store with dbContent := s.store.dbContent.erase id }
      calls := s.calls.set k (.forgot st.infoHash) }
  | none => s.setCall k (.returned true)

def step (s : Session H) : Event H → Option (Session H)
  | .call c => if c.isNew then some { s with calls := s.calls ++ [c] } else none
  | .nextId k =>
    match s.calls[k]? with
    | some (.adding t preferredId) =>
      some (s.setCall k (.numbered { t with id := preferredId.getD s.store.nextId }))
    | _ => none
  | .check k storageFails =>
    match s.calls[k]? with
    | some (.numbered t) => some (s.check k t storageFails)
    | _ => none
  | .apply k ok => s.apply k ok
  | .readOnlyFiles k =>
    match s.calls[k]? with
    | some (.updating j who) => (s.objects[j]?).map fun t => s.readOnlyFiles k j t who
    | _ => none
  | .readIsPaused k =>
    match s.calls[k]? with
    | some (.reading j onlyFiles who) => (s.objects[j]?).map fun t =>
      s.setCall k (.writing j { snapshot t with onlyFiles } who)
    | _ => none
  | .insert k =>
    match s.calls[k]? with
    | some (.writing j st who) => (s.objects[j]?).map fun t => s.insert k j t st who
    | _ => none
  | .flush k fails => s.flush k fails
  | .start k ok =>
    match s.calls[k]? with
    | some (.starting j paused) => (s.objects[j]?).map fun t =>
      (s.setObject j { t with paused }).setCall k (.returned ok)
    | _ => none
  | .lookup k =>
    match s.calls[k]? with
    | some (.deleting id) => some (s.lookup k id)
    | _ => none
  | .remove k =>
    match s.calls[k]? with
    | some (.removing id) => some (s.remove k id)
    | _ => none
  | .pauseRemoved k ok =>
    match s.calls[k]? with
    | some (.removed id j) => (s.objects[j]?).map fun t =>
      (s.setObject j { t with paused := t.paused || ok }).setCall k (.forgetting id)
    | _ => none
  | .forget k =>
    match s.calls[k]? with
    | some (.forgetting id) => some (s.forget k id)
    | _ => none

end Maps

end Session

end SessionPersistence

end Rtbit
