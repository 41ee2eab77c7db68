import Mathlib.Data.Finmap
import Mathlib.Tactic

/-! The stores of `session_persistence` and the way from a stored torrent back into the session.
A URL is its serialization, and a path is valid UTF-8. What lies outside of the repository (URL,
magnet and bencode parsers, HTTP, the peers that send metadata, the regular expressions) is
`Crates`. Calls of `add_torrent` with `list_only` add nothing and are left out. -/

namespace Rtbit

namespace SessionPersistence

/-- A validated info dictionary: its bytes, and the name of each file if it is UTF-8. -/
structure TorrentInfo where
  bytes : List UInt8
  fileNames : List (Option String)
  deriving DecidableEq, Repr

structure TorrentMetadata where
  info : TorrentInfo
  torrentBytes : List UInt8
  deriving DecidableEq, Repr

/-- `ManagedTorrent`, by what the session and its stores read of it. -/
structure ManagedTorrent (H : Type) where
  id : ℕ
  infoHash : H
  trackers : Finset String
  outputFolder : String
  category : Option String
  /-- `storage_factory` is the `FilesystemStorageFactory`. -/
  filesystem : Bool
  metadata : TorrentMetadata
  paused : Bool
  onlyFiles : Option (List ℕ)
  deriving DecidableEq

structure SerializedTorrent (H : Type) where
  infoHash : H
  torrentBytes : List UInt8
  trackers : Finset String
  outputFolder : String
  onlyFiles : Option (List ℕ)
  isPaused : Bool
  category : Option String
  deriving DecidableEq

/-- A parsed torrent file: `announce` are the values of `iter_announce` that are UTF-8. -/
structure TorrentMeta (H : Type) where
  infoHash : H
  announce : List String
  info : TorrentInfo
  deriving DecidableEq

/-- `Magnet`; `infoHash` is what `as_id20` returns. -/
structure Magnet (H : Type) where
  infoHash : Option H
  trackers : List String
  selectOnly : Option (List ℕ)
  name : Option String
  deriving DecidableEq

/-- `AddTorrent`, a URL by the arm of `add_torrent` that takes it. -/
inductive AddTorrent where
  | magnet (magnet : String)
  | http (url : String)
  | unsupported (url : String)
  | torrentFileBytes (bytes : List UInt8)
  deriving DecidableEq, Repr

structure AddTorrentOptions where
  paused : Bool := false
  onlyFiles : Option (List ℕ) := none
  onlyFilesRegex : Option String := none
  outputFolder : Option String := none
  subFolder : Option String := none
  /-- The storage factory of the call, or else of the session, is the one for the filesystem. -/
  filesystem : Bool := true
  preferredId : Option ℕ := none
  trackers : Option (List String) := none
  category : Option String := none
  deriving DecidableEq, Repr

/-- What `add_torrent` calls outside of the repository. -/
structure Crates (H : Type) where
  urlParse : String → Option String
  magnetToString : Magnet H → String
  magnetParse : String → Option (Magnet H)
  torrentFromBytes : List UInt8 → Option (TorrentMeta H)
  /-- A torrent file with `announce`, `announce-list` and the bytes of `info`. -/
  bencode : String → List (List String) → List UInt8 → List UInt8
  /-- The body of the answer to a request for the URL. -/
  get : String → Option (List UInt8)
  /-- `read_metainfo_from_peer_receiver`, with `validate`; `none` if it fails or times out. -/
  readMetainfo : H → Option TorrentInfo
  regexNew : String → Option (String → Bool)
  join : String → String → String
  /-- The order in which a `HashSet` yields its elements. -/
  iter : Finset String → List String

/-- The output folder of the session, and `get_default_subfolder_for_torrent`. -/
structure Folders where
  outputFolder : String
  defaultSubfolder : TorrentInfo → Option String → Option String

namespace Crates

variable {H : Type} (c : Crates H)

def torrentFileFromInfoBytes (infoBytes : List UInt8) (trackers : List String) : List UInt8 :=
  c.bencode (trackers.head?.getD "") [trackers] infoBytes

structure InternalAddResult (H : Type) where
  infoHash : H
  metadata : Option TorrentMetadata
  trackers : List String
  name : Option String

def addFromBytes (bytes : List UInt8) (opts : AddTorrentOptions) :
    Option (InternalAddResult H × AddTorrentOptions) :=
  (c.torrentFromBytes bytes).map fun torrent =>
    let trackers := torrent.announce.dedup ++ opts.trackers.getD []
    (⟨torrent.infoHash, some ⟨torrent.info, bytes⟩, trackers.filterMap c.urlParse, none⟩, opts)

/-- The match on `add` in `Session::add_torrent`. -/
def addResult (add : AddTorrent) (opts : AddTorrentOptions) :
    Option (InternalAddResult H × AddTorrentOptions) :=
  match add with
  | .magnet magnet =>
    (c.magnetParse magnet).bind fun magnet => magnet.infoHash.map fun infoHash =>
      (⟨infoHash, none, magnet.trackers.filterMap c.urlParse, magnet.name⟩,
        -- "Only overwrite opts.only_files if user didn't specify"
        { opts with onlyFiles := opts.onlyFiles.or magnet.selectOnly })
  | .http url => (c.get url).bind fun bytes => c.addFromBytes bytes opts
  | .unsupported _ => none
  | .torrentFileBytes bytes => c.addFromBytes bytes opts

def computeOnlyFilesRegex (info : TorrentInfo) (filenameRe : String) : Option (List ℕ) :=
  (c.regexNew filenameRe).bind fun isMatch =>
    let onlyFiles := (List.range info.fileNames.length).filter fun i =>
      (info.fileNames[i]?.join).any isMatch
    if onlyFiles = [] then none else some onlyFiles

/-- `none` is the error; the selection itself is optional. -/
def computeOnlyFiles (info : TorrentInfo) (onlyFiles : Option (List ℕ))
    (onlyFilesRegex : Option String) : Option (Option (List ℕ)) :=
  match onlyFiles, onlyFilesRegex with
  | some _, some _ => none
  | some onlyFiles, none =>
    if ∀ id ∈ onlyFiles, id < info.fileNames.length then some (some onlyFiles) else none
  | none, some re => (c.computeOnlyFilesRegex info re).map some
  | none, none => some none

def outputFolder (folders : Folders) (info : TorrentInfo) (name : Option String)
    (opts : AddTorrentOptions) : Option String :=
  match opts.outputFolder, opts.subFolder with
  | none, none => (folders.defaultSubfolder info name).map (c.join folders.outputFolder)
  | some o, none => some o
  | some _, some _ => none
  | none, some s => some (c.join folders.outputFolder s)

/-- `add_torrent_internal` up to the torrent that it puts into the session, which has none with
this id or info hash. `nextId` is the id it would get from the store. -/
def addTorrentInternal (folders : Folders) (nextId : ℕ) (add : InternalAddResult H)
    (opts : AddTorrentOptions) : Option (ManagedTorrent H) :=
  let metadata := add.metadata.or ((c.readMetainfo add.infoHash).map fun info =>
    ⟨info, c.torrentFileFromInfoBytes info.bytes add.trackers⟩)
  metadata.bind fun metadata =>
    (c.computeOnlyFiles metadata.info opts.onlyFiles opts.onlyFilesRegex).bind fun onlyFiles =>
      (c.outputFolder folders metadata.info add.name opts).map fun outputFolder =>
        { id := opts.preferredId.getD nextId, infoHash := add.infoHash,
          trackers := add.trackers.toFinset, outputFolder, category := opts.category,
          filesystem := opts.filesystem, metadata, paused := opts.paused, onlyFiles }

def addTorrent (folders : Folders) (nextId : ℕ) (add : AddTorrent) (opts : AddTorrentOptions) :
    Option (ManagedTorrent H) :=
  (c.addResult add opts).bind fun r => c.addTorrentInternal folders nextId r.1 r.2

/-- `SerializedTorrent::into_add_torrent`. -/
def intoAddTorrent (st : SerializedTorrent H) : AddTorrent × AddTorrentOptions :=
  (if st.torrentBytes ≠ [] then .torrentFileBytes st.torrentBytes
    else .magnet (c.magnetToString ⟨some st.infoHash, c.iter st.trackers, st.onlyFiles, none⟩),
    { paused := st.isPaused, outputFolder := some st.outputFolder, onlyFiles := st.onlyFiles,
      category := st.category })

/-- A stored torrent is added again when the session starts, with its id. -/
def restore (folders : Folders) (id nextId : ℕ) (st : SerializedTorrent H) :
    Option (ManagedTorrent H) :=
  let (add, opts) := c.intoAddTorrent st
  c.addTorrent folders nextId add { opts with preferredId := some id }

end Crates

inductive StoreError where
  /-- "storages other than FilesystemStorageFactory are not supported" -/
  | storage
  | flush
  /-- "error deleting: didn't find torrent id={id}" -/
  | notFound
  /-- The id does not fit into the column. -/
  | id
  deriving DecidableEq, Repr

/-- The torrents of a `SerializedSessionDatabase`. -/
abbrev Entries (H : Type) := Finmap fun _ : ℕ => SerializedTorrent H

/-- `JsonSessionPersistenceStore`, with the files it writes. -/
structure JsonStore (H : Type) where
  dbContent : Entries H
  /-- The content of `session.json`. -/
  file : Entries H
  /-- The torrent files, by the info hash in their name. -/
  torrentFiles : H → Option (List UInt8)

/-- The `SerializedTorrent` that `update_db` builds: the bytes go "to a file instead". -/
def snapshot {H : Type} (t : ManagedTorrent H) : SerializedTorrent H where
  infoHash := t.infoHash
  torrentBytes := []
  trackers := t.trackers
  outputFolder := t.outputFolder
  onlyFiles := t.onlyFiles
  isPaused := t.paused
  category := t.category

namespace JsonStore

variable {H : Type}

def new : JsonStore H := ⟨∅, ∅, fun _ => none⟩

def insert (db : JsonStore H) (id : ℕ) (st : SerializedTorrent H) : JsonStore H :=
  { db with dbContent := db.dbContent.insert id st }

/-- The map is written to a temporary file that then takes the place of `session.json`. -/
def flush (db : JsonStore H) (fails : Bool) : Except StoreError Unit × JsonStore H :=
  if fails then (.error .flush, db) else (.ok (), { db with file := db.dbContent })

def nextId (db : JsonStore H) : ℕ := ((db.dbContent.keys.max).map (· + 1)).unbotD 0

section Files

variable [DecidableEq H]

def writeTorrentFile (db : JsonStore H) (t : ManagedTorrent H) : JsonStore H :=
  if t.metadata.torrentBytes = [] then db
  else { db with
    torrentFiles := Function.update db.torrentFiles t.infoHash (some t.metadata.torrentBytes) }

def updateDb (db : JsonStore H) (id : ℕ) (t : ManagedTorrent H) (writeTorrentFile fails : Bool) :
    Except StoreError Unit × JsonStore H :=
  if !t.filesystem then (.error .storage, db)
  else
    let db := if writeTorrentFile then db.writeTorrentFile t else db
    (db.insert id (snapshot t)).flush fails

def store (db : JsonStore H) (id : ℕ) (t : ManagedTorrent H) (fails : Bool) :
    Except StoreError Unit × JsonStore H :=
  db.updateDb id t true fails

def updateMetadata (db : JsonStore H) (id : ℕ) (t : ManagedTorrent H) (fails : Bool) :
    Except StoreError Unit × JsonStore H :=
  db.updateDb id t false fails

def delete (db : JsonStore H) (id : ℕ) (fails : Bool) : Except StoreError Unit × JsonStore H :=
  match db.dbContent.lookup id with
  | some t =>
    match ({ db with dbContent := db.dbContent.erase id }).flush fails with
    | (.ok (), db) =>
      (.ok (), { db with torrentFiles := Function.update db.torrentFiles t.infoHash none })
    | (.error e, db) => (.error e, db)
  | none => (.error .notFound, db)

end Files

/-- The entry with the bytes of the torrent file, or without them if that cannot be read. -/
def get (db : JsonStore H) (id : ℕ) (readable : Bool) : Option (SerializedTorrent H) :=
  (db.dbContent.lookup id).map fun st =>
    { st with torrentBytes := if readable then (db.torrentFiles st.infoHash).getD [] else [] }

/-- A new `JsonSessionPersistenceStore` over the files of this one. -/
def reopen (db : JsonStore H) : JsonStore H := { db with dbContent := db.file }

end JsonStore

/-- A row of the table `torrents`. -/
structure TorrentsTableRecord (H : Type) where
  id : ℕ
  infoHash : H
  torrentBytes : List UInt8
  trackers : Finset String
  outputFolder : String
  onlyFiles : Option (List ℕ)
  isPaused : Bool

/-- The values that fit into an `i32`. -/
def toI32 (l : List ℕ) : List ℕ := l.filter fun i => i < 2 ^ 31

namespace TorrentsTableRecord

variable {H : Type}

/-- The row that `PostgresSessionStorage::store` inserts. -/
def store (id : ℕ) (t : ManagedTorrent H) : Except StoreError (TorrentsTableRecord H) :=
  if id < 2 ^ 31 then
    .ok
      { id, infoHash := t.infoHash, torrentBytes := t.metadata.torrentBytes, trackers := t.trackers,
        outputFolder := t.outputFolder, onlyFiles := t.onlyFiles.map toI32, isPaused := t.paused }
  else .error .id

def updateMetadata (r : TorrentsTableRecord H) (t : ManagedTorrent H) : TorrentsTableRecord H :=
  { r with onlyFiles := t.onlyFiles.map toI32, isPaused := t.paused }

def intoSerializedTorrent (r : TorrentsTableRecord H) : ℕ × SerializedTorrent H :=
  (r.id, {
    infoHash := r.infoHash, torrentBytes := r.torrentBytes, trackers := r.trackers,
    outputFolder := r.outputFolder, onlyFiles := r.onlyFiles, isPaused := r.isPaused,
    category := none })

end TorrentsTableRecord

end SessionPersistence

end Rtbit
