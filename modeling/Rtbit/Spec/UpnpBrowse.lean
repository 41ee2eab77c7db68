import Rtbit.Spec.UpnpTree

/-! What the UPnP server answers to a client that browses (`UpnpServerSessionAdapter`). An object has
one number for its torrent and its node in the tree of that torrent, which is built anew for each
answer. Of the URL of a file the host and the encoding are left out. -/

namespace Rtbit

namespace UpnpBrowse

structure TorrentMetadata where
  info : ValidatedTorrentMetaV1Info
  /-- `len` of `file_infos[fid]`. -/
  fileLen : ℕ → ℕ

structure ManagedTorrent where
  id : ℕ
  metadata : Option TorrentMetadata

/-- The torrents of the `db`, which has one for an id. -/
structure Session where
  torrents : List ManagedTorrent
  nodup : (torrents.map ManagedTorrent.id).Nodup

def Session.get (s : Session) (id : ℕ) : Option ManagedTorrent :=
  s.torrents.find? fun t => t.id = id

/-- "http://{}/torrents/{}/stream/{}/{}" -/
structure Url where
  torrentId : ℕ
  fid : ℕ
  lastUrlBit : List String
  deriving DecidableEq, Repr

structure Item where
  id : ℕ
  parentId : ℕ
  title : String
  url : Url
  size : ℕ
  deriving DecidableEq, Repr

structure Container where
  id : ℕ
  parentId : Option ℕ
  title : String
  childrenCount : Option ℕ
  deriving DecidableEq, Repr

inductive ItemOrContainer where
  | item (i : Item)
  | container (c : Container)
  deriving DecidableEq, Repr

namespace ItemOrContainer

def id : ItemOrContainer → ℕ
  | .item i => i.id
  | .container c => c.id

def parentId : ItemOrContainer → Option ℕ
  | .item i => some i.parentId
  | .container c => c.parentId

def title : ItemOrContainer → String
  | .item i => i.title
  | .container c => c.title

/-- A container has none. -/
def url : ItemOrContainer → Option Url
  | .item i => some i.url
  | .container _ => none

end ItemOrContainer

def encodeId (localId torrentId : ℕ) : ℕ := (localId <<< 16) % 2 ^ 64 ||| (torrentId + 1)

/-- `none` is "invalid id". -/
def decodeId (id : ℕ) : Option (ℕ × ℕ) :=
  let torrentId := id &&& 0xffff
  if torrentId = 0 then none else some (id >>> 16, torrentId - 1)

def asItemOrContainer (node : TorrentFileTreeNode) (id torrentId : ℕ) (metadata : TorrentMetadata) :
    ItemOrContainer :=
  let encodedId := encodeId id torrentId
  let encodedParentId := node.parentId.map fun p => encodeId p torrentId
  match node.realTorrentFileId with
  | some fid =>
    .item {
      id := encodedId
      parentId := encodedParentId.getD 0
      title := node.title
      url := ⟨torrentId, fid, metadata.info.files[fid]?.getD [node.title]⟩
      size := metadata.fileLen fid }
  | none =>
    .container {
      id := encodedId
      parentId := some (encodedParentId.getD 0)
      title := node.title
      childrenCount := some node.children.length }

/-- What `build_root` has for a torrent. The `file_name` of a path is the last of its components,
which are those of a name that is valid. -/
def rootObject (t : ManagedTorrent) : Option ItemOrContainer :=
  let upnpId := t.id + 1
  t.metadata.bind fun metadata =>
    if isSingleFileAtRoot metadata.info then
      (metadata.info.files[0]?.bind List.getLast?).map fun title =>
        asItemOrContainer ⟨title, none, [], some 0⟩ 0 t.id metadata
    else
      let title := metadata.info.name.getD s!"torrent {t.id}"
      some (.container ⟨upnpId, some 0, title, none⟩)

def buildRoot (s : Session) : List ItemOrContainer :=
  (s.torrents.insertionSort fun a b => a.id ≤ b.id).filterMap rootObject

def buildImpl (s : Session) (objectId : ℕ) (metadata : Bool) : List ItemOrContainer :=
  if objectId = 0 then
    let root := buildRoot s
    if metadata then [.container ⟨0, none, "root", some root.length⟩] else root
  else
    match decodeId objectId with
    | none => []
    | some (nodeId, torrentId) =>
      match s.get torrentId with
      | none => []
      | some torrent =>
        match torrent.metadata with
        | none => []
        | some tMetadata =>
          match TorrentFileTree.build torrent.id tMetadata.info with
          | none => []
          | some nodes =>
            match nodes[nodeId]? with
            | none => []
            | some node =>
              if node.realTorrentFileId.isSome || metadata then
                [asItemOrContainer node nodeId torrent.id tMetadata]
              else
                node.children.filterMap fun childNodeId =>
                  nodes[childNodeId]?.map fun childNode =>
                    asItemOrContainer childNode childNodeId torrent.id tMetadata

def browseDirectChildren (s : Session) (objectId : ℕ) : List ItemOrContainer :=
  buildImpl s objectId false

def browseMetadata (s : Session) (objectId : ℕ) : List ItemOrContainer :=
  buildImpl s objectId true

/-- What a client finds that begins at the root and opens one container after the other, with the
titles on its way. -/
inductive Finds (s : Session) : List String → ItemOrContainer → Prop
  | root {o} : o ∈ browseDirectChildren s 0 → Finds s [o.title] o
  | child {path o} {c : Container} : Finds s path (.container c) →
      o ∈ browseDirectChildren s c.id → Finds s (path ++ [o.title]) o

end UpnpBrowse

end Rtbit
