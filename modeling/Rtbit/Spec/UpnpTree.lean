import Mathlib.Tactic

/-! The tree of the files of a torrent that the UPnP server browses (`upnp_server_adapter.rs`). -/

namespace Rtbit

/-- `ValidatedTorrentMetaV1Info`, as far as the tree reads it: a torrent has files, and each of them a
name with components. -/
structure ValidatedTorrentMetaV1Info where
  name : Option String
  /-- The components of the names that `iter_file_details` gives. -/
  files : List (List String)
  files_ne : files ≠ []
  components_ne : ∀ components ∈ files, components ≠ []
  deriving DecidableEq, Repr

structure TorrentFileTreeNode where
  title : String
  /-- Set to none for the root. -/
  parentId : Option ℕ
  children : List ℕ
  realTorrentFileId : Option ℕ
  deriving DecidableEq, Repr

/-- At most one component is in all the names. -/
def isSingleFileAtRoot (info : ValidatedTorrentMetaV1Info) : Bool := info.files.flatten[1]?.isNone

namespace TorrentFileTree

/-- The tree while it is built, with `name_cache`. -/
structure Building where
  nodes : List TorrentFileTreeNode
  nameCache : List ((ℕ × String) × ℕ)
  deriving DecidableEq, Repr

/-- Pushes a node and adds it to the children of its parent; `none` is the panic of the index. -/
def push (nodes : List TorrentFileTreeNode) (parentId : ℕ) (title : String)
    (realTorrentFileId : Option ℕ) : Option (List TorrentFileTreeNode) :=
  let currentId := nodes.length
  let nodes := nodes ++ [⟨title, some parentId, [], realTorrentFileId⟩]
  match nodes[parentId]? with
  | some parent =>
    some (nodes.set parentId { parent with children := parent.children ++ [currentId] })
  | none => none

/-- The loop over the components of a file. -/
def addComponents (fid : ℕ) (tree : Building) (parentId : ℕ) : List String → Option Building
  | [] => some tree
  | [component] => do
    let nodes ← push tree.nodes parentId component (some fid)
    return { tree with nodes := nodes }
  | component :: next :: rest =>
    match tree.nameCache.lookup (parentId, component) with
    | some id => addComponents fid tree id (next :: rest)
    | none => do
      let id := tree.nodes.length
      let nodes ← push tree.nodes parentId component none
      addComponents fid ⟨nodes, ((parentId, component), id) :: tree.nameCache⟩ id (next :: rest)

def addFile (tree : Building) (file : List String × ℕ) : Option Building :=
  addComponents file.2 tree 0 file.1

def build (torrentId : ℕ) (info : ValidatedTorrentMetaV1Info) : Option (List TorrentFileTreeNode) :=
  if isSingleFileAtRoot info then do
    let components ← info.files.head?
    let filename ← components.getLast?
    return [⟨filename, none, [], some 0⟩]
  else do
    let rootNode : TorrentFileTreeNode :=
      ⟨info.name.getD s!"torrent {torrentId}", none, [], none⟩
    let tree ← info.files.zipIdx.foldlM addFile ⟨[rootNode], []⟩
    return tree.nodes

end TorrentFileTree

end Rtbit
