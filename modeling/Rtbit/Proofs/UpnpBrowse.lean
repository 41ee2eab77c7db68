import Rtbit.Proofs.UpnpTree
import Rtbit.Spec.UpnpBrowse

/-! What a client of the UPnP server finds. The number of an object gives back its torrent and its
node, and the trees are built the same way for each answer, so that the containers lead to each file
of each torrent, under the titles of its path, and no number is found in two places. -/

namespace Rtbit

namespace UpnpBrowse

open TorrentFileTree
open Lib (Linked PathTo parentAt labelAt childrenAt)

variable {s : Session} {t t' : ManagedTorrent} {metadata : TorrentMetadata} {o : ItemOrContainer}
  {nodes : List TorrentFileTreeNode} {node : TorrentFileTreeNode} {path : List String} {i : ℕ}

/-! The numbers. -/

theorem encodeId_eq {localId torrentId : ℕ} (hl : localId < 2 ^ 48) (ht : torrentId < 65535) :
    encodeId localId torrentId = localId * 65536 + (torrentId + 1) := by
  have hshift : localId <<< 16 = localId * 65536 := Nat.shiftLeft_eq localId 16
  have hlow : torrentId + 1 < 2 ^ 16 := by omega
  rw [encodeId, Nat.mod_eq_of_lt (by omega), ← Nat.shiftLeft_add_eq_or_of_lt hlow, hshift]

@[simp] theorem encodeId_zero (torrentId : ℕ) : encodeId 0 torrentId = torrentId + 1 := by
  rw [encodeId, Nat.zero_shiftLeft, Nat.zero_mod, Nat.zero_or]

theorem decodeId_encodeId {localId torrentId : ℕ} (hl : localId < 2 ^ 48) (ht : torrentId < 65535) :
    decodeId (encodeId localId torrentId) = some (localId, torrentId) := by
  have hmask : encodeId localId torrentId &&& 0xffff = torrentId + 1 := by
    rw [show 0xffff = 2 ^ 16 - 1 from rfl, Nat.and_two_pow_sub_one_eq_mod, encodeId_eq hl ht]
    omega
  have hshift : encodeId localId torrentId >>> 16 = localId := by
    rw [Nat.shiftRight_eq_div_pow, encodeId_eq hl ht]
    omega
  rw [decodeId, hmask, hshift]
  rfl

/-- The number of a torrent from 65535 on runs into that of the node. -/
example : decodeId (encodeId 0 65535) = none ∧ encodeId 1 65536 = encodeId 1 0 := by decide

/-! The tree of a torrent. -/

def titleOf (t : ManagedTorrent) (metadata : TorrentMetadata) : String :=
  metadata.info.name.getD s!"torrent {t.id}"

/-- The title of the root stays. -/
theorem push_root {nodes' : List TorrentFileTreeNode} {p : ℕ} {title : String} {real : Option ℕ}
    (hpos : 0 < nodes.length) (h : push nodes p title real = some nodes') :
    0 < nodes'.length ∧ labelAt nodes' 0 = labelAt nodes 0 := by
  rw [push_eq] at h
  obtain ⟨parent, hparent, rfl⟩ := Option.map_eq_some_iff.1 h
  refine ⟨by simp, ?_⟩
  rcases Nat.eq_zero_or_pos p with rfl | hp
  · rw [List.getElem?_append_left hpos] at hparent
    rw [labelAt, labelAt, List.getElem?_set_self (by simp), hparent]
    exact congrArg some (Lib.TreeNode.label_addChild parent _)
  · rw [labelAt, labelAt, List.getElem?_set_ne hp.ne', List.getElem?_append_left hpos]

theorem addComponents_root {fid p : ℕ} {components : List String} {b b' : Building}
    (hpos : 0 < b.nodes.length) (h : addComponents fid b p components = some b') :
    0 < b'.nodes.length ∧ labelAt b'.nodes 0 = labelAt b.nodes 0 := by
  induction components generalizing b p with
  | nil =>
    cases h
    exact ⟨hpos, rfl⟩
  | cons component rest ih =>
    cases rest with
    | nil =>
      obtain ⟨nodes, hpush, hb'⟩ := Option.bind_eq_some_iff.1 h
      cases hb'
      exact push_root hpos hpush
    | cons next rest =>
      rw [addComponents] at h
      split at h
      · exact ih hpos h
      · obtain ⟨nodes, hpush, hrest⟩ := Option.bind_eq_some_iff.1 h
        obtain ⟨hpos', hlabel⟩ := push_root hpos hpush
        obtain ⟨hpos'', hlabel'⟩ := ih hpos' hrest
        exact ⟨hpos'', hlabel'.trans hlabel⟩

theorem addFiles_root {files : List (List String × ℕ)} {b b' : Building}
    (hpos : 0 < b.nodes.length) (h : files.foldlM addFile b = some b') :
    labelAt b'.nodes 0 = labelAt b.nodes 0 := by
  induction files generalizing b with
  | nil =>
    cases h
    rfl
  | cons file rest ih =>
    rw [List.foldlM_cons] at h
    obtain ⟨b₁, hb₁, hrest⟩ := Option.bind_eq_some_iff.1 h
    obtain ⟨hpos', hlabel⟩ := addComponents_root hpos hb₁
    exact (ih hpos' hrest).trans hlabel

/-- The tree of a torrent with a directory or with several files. -/
structure TreeOf (t : ManagedTorrent) (metadata : TorrentMetadata)
    (nodes : List TorrentFileTreeNode) : Prop where
  many : isSingleFileAtRoot metadata.info = false
  build : build t.id metadata.info = some nodes
  linked : Linked nodes
  title : labelAt nodes 0 = some (titleOf t metadata)
  root : IsDir nodes 0
  parents : ∀ i p, parentAt nodes i = some p → IsDir nodes p
  file : ∀ fid components, metadata.info.files[fid]? = some components →
    ∃ i, PathTo nodes i components ∧ ∀ j, IsFile nodes j fid ↔ j = i
  onlyFiles : ∀ i fid, IsFile nodes i fid → fid < metadata.info.files.length

theorem exists_treeOf (t : ManagedTorrent) (h : isSingleFileAtRoot metadata.info = false) :
    ∃ nodes, TreeOf t metadata nodes := by
  obtain ⟨b, hb, hinv⟩ := (inv_root (titleOf t metadata)).addFiles metadata.info.components_ne
  rw [List.length_nil] at hb
  rw [List.nil_append] at hinv
  obtain ⟨i, hi, hpath⟩ := (hinv.dir []).1 (Or.inl rfl)
  obtain rfl := hpath.nil_inv
  refine ⟨b.nodes, h, ?_, hinv.linked, ?_, hi, hinv.parents, hinv.file, hinv.onlyFiles⟩
  · rw [TorrentFileTree.build, if_neg (by simp [h])]
    exact congrArg (fun b => Option.bind b fun b => some b.nodes) hb
  · rw [addFiles_root (by simp) hb]
    rfl

theorem Session.get_of_mem (ht : t ∈ s.torrents) : s.get t.id = some t := by
  have hnodup := s.nodup
  rw [Session.get]
  generalize s.torrents = torrents at ht hnodup
  induction torrents with
  | nil => cases ht
  | cons t' rest ih =>
    rw [List.map_cons, List.nodup_cons] at hnodup
    rcases List.mem_cons.1 ht with rfl | ht
    · exact List.find?_cons_of_pos (by simp)
    · have hne : ¬t'.id = t.id := fun he => hnodup.1 (he ▸ List.mem_map_of_mem ht)
      rw [List.find?_cons_of_neg (by simpa using hne)]
      exact ih ht hnodup.2

theorem Session.id_injective (ht : t ∈ s.torrents) (ht' : t' ∈ s.torrents) (h : t.id = t'.id) :
    t = t' := by
  have hget := s.get_of_mem ht
  rw [h, s.get_of_mem ht'] at hget
  exact (Option.some.inj hget).symm

/-- The answer for a node. -/
theorem buildImpl_encodeId {m : Bool} (ht : t ∈ s.torrents) (hid : t.id < 65535)
    (hmeta : t.metadata = some metadata) (hbuild : build t.id metadata.info = some nodes)
    (hi : nodes[i]? = some node) (hsmall : i < 2 ^ 48) :
    buildImpl s (encodeId i t.id) m =
      if node.realTorrentFileId.isSome || m then [asItemOrContainer node i t.id metadata]
      else node.children.filterMap fun j =>
        nodes[j]?.map fun child => asItemOrContainer child j t.id metadata := by
  have hne : encodeId i t.id ≠ 0 := by
    rw [encodeId_eq hsmall hid]
    omega
  rw [buildImpl, if_neg hne, decodeId_encodeId hsmall hid]
  simp only [s.get_of_mem ht, hmeta, hbuild, hi]

/-! Where an object is. -/

/-- A node of the tree of a torrent with the path to it. -/
structure NodeAt (s : Session) (t : ManagedTorrent) (metadata : TorrentMetadata)
    (nodes : List TorrentFileTreeNode) (i : ℕ) (node : TorrentFileTreeNode) (path : List String) :
    Prop where
  mem : t ∈ s.torrents
  resolved : t.metadata = some metadata
  tree : TreeOf t metadata nodes
  node : nodes[i]? = some node
  path : PathTo nodes i path

/-- The object that a node is found as. -/
def objectAt (t : ManagedTorrent) (metadata : TorrentMetadata) (i : ℕ)
    (node : TorrentFileTreeNode) : ItemOrContainer :=
  if i = 0 then .container ⟨t.id + 1, some 0, titleOf t metadata, none⟩
  else asItemOrContainer node i t.id metadata

/-- An object of a torrent with the titles on the way to it: the file of a torrent that has one file
alone, or a node of the tree of any other. -/
inductive Located (s : Session) : List String → ItemOrContainer → Prop
  | single {t : ManagedTorrent} {metadata : TorrentMetadata} {component : String} :
      t ∈ s.torrents → t.metadata = some metadata → metadata.info.files = [[component]] →
      Located s [component] (asItemOrContainer ⟨component, none, [], some 0⟩ 0 t.id metadata)
  | node {t : ManagedTorrent} {metadata : TorrentMetadata} {nodes : List TorrentFileTreeNode} {i : ℕ}
      {node : TorrentFileTreeNode} {path : List String} : NodeAt s t metadata nodes i node path →
      Located s (titleOf t metadata :: path) (objectAt t metadata i node)

/-- The numbers of the torrents and of the nodes have room in that of an object. -/
def Session.Fits (s : Session) : Prop :=
  ∀ t ∈ s.torrents, t.id < 65535 ∧ ∀ metadata ∈ t.metadata, ∀ nodes,
    build t.id metadata.info = some nodes → nodes.length < 2 ^ 48

theorem isSingle_cases (info : ValidatedTorrentMetaV1Info) :
    (∃ component, info.files = [[component]]) ∨ isSingleFileAtRoot info = false := by
  cases h : isSingleFileAtRoot info with
  | true => exact Or.inl ((isSingleFileAtRoot_iff info).1 h)
  | false => exact Or.inr rfl

theorem mem_root : o ∈ browseDirectChildren s 0 ↔ ∃ t ∈ s.torrents, rootObject t = some o := by
  rw [browseDirectChildren, buildImpl, if_pos rfl, if_neg (by decide), buildRoot, List.mem_filterMap]
  simp only [List.mem_insertionSort]

theorem rootObject_single {component : String} (hmeta : t.metadata = some metadata)
    (hfiles : metadata.info.files = [[component]]) :
    rootObject t = some (asItemOrContainer ⟨component, none, [], some 0⟩ 0 t.id metadata) := by
  have hsingle := (isSingleFileAtRoot_iff metadata.info).2 ⟨component, hfiles⟩
  rw [rootObject, hmeta, Option.bind_some, if_pos hsingle, hfiles]
  rfl

theorem rootObject_torrent (hmeta : t.metadata = some metadata)
    (hmany : isSingleFileAtRoot metadata.info = false) :
    rootObject t = some (.container ⟨t.id + 1, some 0, titleOf t metadata, none⟩) := by
  rw [rootObject, hmeta, Option.bind_some, if_neg (by simp [hmany])]
  rfl

/-- What the root lists. -/
theorem located_of_root (h : o ∈ browseDirectChildren s 0) : Located s [o.title] o := by
  obtain ⟨t, ht, ho⟩ := mem_root.1 h
  cases hmeta : t.metadata with
  | none =>
    rw [rootObject, hmeta] at ho
    cases ho
  | some metadata =>
    rcases isSingle_cases metadata.info with ⟨component, hfiles⟩ | hmany
    · rw [rootObject_single hmeta hfiles] at ho
      cases ho
      exact .single ht hmeta hfiles
    · rw [rootObject_torrent hmeta hmany] at ho
      cases ho
      obtain ⟨nodes, htree⟩ := exists_treeOf t hmany
      have hroot := List.getElem?_eq_getElem htree.linked.nonempty
      exact .node ⟨ht, hmeta, htree, hroot, .root⟩

/-! Below the root of a tree. -/

theorem title_asItemOrContainer (node : TorrentFileTreeNode) (i torrentId : ℕ)
    (metadata : TorrentMetadata) :
    (asItemOrContainer node i torrentId metadata).title = node.title := by
  rw [asItemOrContainer]
  cases node.realTorrentFileId <;> rfl

theorem id_asItemOrContainer (node : TorrentFileTreeNode) (i torrentId : ℕ)
    (metadata : TorrentMetadata) :
    (asItemOrContainer node i torrentId metadata).id = encodeId i torrentId := by
  rw [asItemOrContainer]
  cases node.realTorrentFileId <;> rfl

theorem parentId_asItemOrContainer (node : TorrentFileTreeNode) (i torrentId : ℕ)
    (metadata : TorrentMetadata) : (asItemOrContainer node i torrentId metadata).parentId =
      some ((node.parentId.map fun p => encodeId p torrentId).getD 0) := by
  rw [asItemOrContainer]
  cases node.realTorrentFileId <;> rfl

theorem parentAt_eq (h : nodes[i]? = some node) : parentAt nodes i = node.parentId := by
  rw [parentAt, h]
  rfl

theorem labelAt_eq (h : nodes[i]? = some node) : labelAt nodes i = some node.title := by
  rw [labelAt, h]
  rfl

theorem isDir_iff (h : nodes[i]? = some node) : IsDir nodes i ↔ node.realTorrentFileId = none := by
  rw [IsDir, fileAt, h, Option.map_some, Option.some_inj]

/-- The children that are listed are the nodes that have the parent. -/
theorem mem_children (hl : Linked nodes) (hi : nodes[i]? = some node) {j : ℕ} :
    j ∈ node.children ↔ parentAt nodes j = some i := by
  have hcount := hl.listed i j
  rw [childrenAt, hi] at hcount
  change node.children.count j = _ at hcount
  rw [← List.count_pos_iff, hcount]
  split_ifs with h <;> simp [h]

section

variable (hfits : s.Fits) (h : NodeAt s t metadata nodes i node path)

include hfits h

theorem NodeAt.small : t.id < 65535 ∧ i < 2 ^ 48 := by
  obtain ⟨hid, hnodes⟩ := hfits t h.mem
  have hlen := hnodes metadata h.resolved nodes h.tree.build
  have hi := (List.getElem?_eq_some_iff.1 h.node).1
  exact ⟨hid, by omega⟩

theorem NodeAt.answer (m : Bool) : buildImpl s (encodeId i t.id) m =
    if node.realTorrentFileId.isSome || m then [asItemOrContainer node i t.id metadata]
    else node.children.filterMap fun j =>
      nodes[j]?.map fun child => asItemOrContainer child j t.id metadata :=
  buildImpl_encodeId h.mem (h.small hfits).1 h.resolved h.tree.build h.node (h.small hfits).2

/-- A directory lists the nodes below it. -/
theorem NodeAt.mem_listed (hdir : node.realTorrentFileId = none) :
    o ∈ browseDirectChildren s (encodeId i t.id) ↔
      ∃ j child, NodeAt s t metadata nodes j child (path ++ [child.title]) ∧
        child.parentId = some i ∧ o = asItemOrContainer child j t.id metadata := by
  rw [browseDirectChildren, h.answer hfits, hdir, if_neg (by decide), List.mem_filterMap]
  constructor
  · rintro ⟨j, hj, ho⟩
    obtain ⟨child, hchild, rfl⟩ := Option.map_eq_some_iff.1 ho
    have hparent := (mem_children h.tree.linked h.node).1 hj
    refine ⟨j, child, ⟨h.mem, h.resolved, h.tree, hchild, ?_⟩, ?_, rfl⟩
    · exact h.path.child hparent (labelAt_eq hchild)
    · rw [← parentAt_eq hchild]
      exact hparent
  · rintro ⟨j, child, hat, hparent, rfl⟩
    refine ⟨j, (mem_children h.tree.linked h.node).2 ?_, by rw [hat.node]; rfl⟩
    rw [parentAt_eq hat.node]
    exact hparent

end

theorem id_objectAt (t : ManagedTorrent) (metadata : TorrentMetadata) (i : ℕ)
    (node : TorrentFileTreeNode) : (objectAt t metadata i node).id = encodeId i t.id := by
  rw [objectAt]
  split_ifs with hi
  · subst hi
    exact (encodeId_zero t.id).symm
  · exact id_asItemOrContainer node i t.id metadata

/-- A directory is found as a container, and a file is not. -/
theorem NodeAt.isContainer_iff (h : NodeAt s t metadata nodes i node path) :
    (∃ c, objectAt t metadata i node = .container c) ↔ node.realTorrentFileId = none := by
  rw [objectAt]
  split_ifs with hi
  · subst hi
    exact iff_of_true ⟨_, rfl⟩ ((isDir_iff h.node).1 h.tree.root)
  · rw [asItemOrContainer]
    cases node.realTorrentFileId with
    | none => exact iff_of_true ⟨_, rfl⟩ rfl
    | some fid => exact iff_of_false nofun nofun

/-- What a container is that a client finds. -/
theorem container_located {c : Container} (h : Located s path (.container c)) :
    ∃ t metadata nodes i node below, NodeAt s t metadata nodes i node below ∧
      node.realTorrentFileId = none ∧ path = titleOf t metadata :: below ∧
      c.id = encodeId i t.id := by
  generalize ho : ItemOrContainer.container c = o at h
  cases h with
  | single ht hmeta hfiles => cases ho
  | @node t metadata nodes i node below hat =>
    refine ⟨t, metadata, nodes, i, node, below, hat, hat.isContainer_iff.1 ⟨c, ho.symm⟩, rfl, ?_⟩
    rw [← id_objectAt, ← ho]
    rfl

/-- By induction on the path: the parent of a node is a directory, and lists it. -/
theorem NodeAt.finds (hfits : s.Fits) (h : NodeAt s t metadata nodes i node path) :
    Finds s (titleOf t metadata :: path) (objectAt t metadata i node) := by
  obtain ⟨ht, hmeta, htree, hnode, hpath⟩ := h
  induction hpath generalizing node with
  | root =>
    have hroot : objectAt t metadata 0 node ∈ browseDirectChildren s 0 :=
      mem_root.2 ⟨t, ht, rootObject_torrent hmeta htree.many⟩
    exact .root hroot
  | @child p i path l hpath hparent hlabel ih =>
    have hlt := htree.linked.lt hparent
    have hp : nodes[p]? = some nodes[p] := List.getElem?_eq_getElem _
    have hat : NodeAt s t metadata nodes p nodes[p] path := ⟨ht, hmeta, htree, hp, hpath⟩
    have hdir : nodes[p].realTorrentFileId = none := (isDir_iff hp).1 (htree.parents i p hparent)
    obtain ⟨c, hc⟩ := hat.isContainer_iff.2 hdir
    have hid : c.id = encodeId p t.id := by
      rw [← id_objectAt, hc]
      rfl
    obtain rfl : node.title = l := by
      rw [labelAt_eq hnode] at hlabel
      exact Option.some.inj hlabel
    have hobject : objectAt t metadata i node = asItemOrContainer node i t.id metadata :=
      if_neg (by omega)
    have hlisted : objectAt t metadata i node ∈ browseDirectChildren s c.id := by
      rw [hid, hobject]
      refine (hat.mem_listed hfits hdir).2 ⟨i, node, ?_, ?_, rfl⟩
      · exact ⟨ht, hmeta, htree, hnode, hpath.child hparent (labelAt_eq hnode)⟩
      · rw [← parentAt_eq hnode]
        exact hparent
    have hfound := ih hp
    rw [hc] at hfound
    have hchild := hfound.child hlisted
    rwa [hobject, title_asItemOrContainer, List.cons_append, ← hobject] at hchild

theorem finds_iff (hfits : s.Fits) : Finds s path o ↔ Located s path o := by
  constructor
  · intro h
    induction h with
    | root h => exact located_of_root h
    | child _ ho ih =>
      obtain ⟨t, metadata, nodes, i, node, below, hat, hdir, rfl, hid⟩ := container_located ih
      rw [hid] at ho
      obtain ⟨j, child, hchild, hparent, rfl⟩ := (hat.mem_listed hfits hdir).1 ho
      have hlt := hat.tree.linked.lt ((parentAt_eq hchild.node).trans hparent)
      have hobject := Located.node hchild
      rw [objectAt, if_neg (by omega)] at hobject
      rwa [title_asItemOrContainer, List.cons_append]
  · intro h
    cases h with
    | @single t metadata component ht hmeta hfiles =>
      have hroot := mem_root.2 ⟨t, ht, rootObject_single hmeta hfiles⟩
      have hfound := Finds.root hroot
      rwa [title_asItemOrContainer] at hfound
    | node hat => exact hat.finds hfits

/-! What the client concludes. -/

theorem encodeId_injective {i j torrentId torrentId' : ℕ} (hi : i < 2 ^ 48) (hj : j < 2 ^ 48)
    (ht : torrentId < 65535) (ht' : torrentId' < 65535)
    (h : encodeId i torrentId = encodeId j torrentId') : i = j ∧ torrentId = torrentId' := by
  have hdecode := congrArg decodeId h
  rw [decodeId_encodeId hi ht, decodeId_encodeId hj ht', Option.some_inj, Prod.mk.injEq] at hdecode
  exact hdecode

theorem TreeOf.ne_single (h : TreeOf t metadata nodes) (component : String) :
    metadata.info.files ≠ [[component]] := by
  intro hfiles
  have hmany := h.many
  rw [(isSingleFileAtRoot_iff metadata.info).2 ⟨component, hfiles⟩] at hmany
  cases hmany

/-- A file that is alone and a node are of different torrents. -/
theorem single_ne_node (hfits : s.Fits) (ht : t ∈ s.torrents) (hmeta : t.metadata = some metadata)
    {component : String} (hfiles : metadata.info.files = [[component]])
    {metadata' : TorrentMetadata} (h : NodeAt s t' metadata' nodes i node path) :
    encodeId 0 t.id ≠ encodeId i t'.id := by
  intro hid
  obtain ⟨-, hsame⟩ := encodeId_injective (by decide) (h.small hfits).2 (hfits t ht).1
    (h.small hfits).1 hid
  obtain rfl := s.id_injective ht h.mem hsame
  obtain rfl := Option.some.inj (hmeta.symm.trans h.resolved)
  exact h.tree.ne_single component hfiles

/-- The torrent and the node of an object are those of its number. -/
theorem located_unique (hfits : s.Fits) {path' : List String} {o' : ItemOrContainer}
    (h : Located s path o) (h' : Located s path' o') (hid : o.id = o'.id) :
    path = path' ∧ o = o' := by
  cases h with
  | @single t metadata component ht hmeta hfiles =>
    rw [id_asItemOrContainer] at hid
    cases h' with
    | @single t' metadata' component' ht' hmeta' hfiles' =>
      rw [id_asItemOrContainer] at hid
      obtain ⟨-, hsame⟩ := encodeId_injective (by decide) (by decide) (hfits t ht).1
        (hfits t' ht').1 hid
      obtain rfl := s.id_injective ht ht' hsame
      obtain rfl := Option.some.inj (hmeta.symm.trans hmeta')
      rw [hfiles] at hfiles'
      cases hfiles'
      exact ⟨rfl, rfl⟩
    | node hat' =>
      rw [id_objectAt] at hid
      exact absurd hid (single_ne_node hfits ht hmeta hfiles hat')
  | @node t metadata nodes i node below hat =>
    rw [id_objectAt] at hid
    cases h' with
    | @single t' metadata' component' ht' hmeta' hfiles' =>
      rw [id_asItemOrContainer] at hid
      exact absurd hid.symm (single_ne_node hfits ht' hmeta' hfiles' hat)
    | @node t' metadata' nodes' j node' below' hat' =>
      rw [id_objectAt] at hid
      obtain ⟨rfl, hsame⟩ := encodeId_injective (hat.small hfits).2 (hat'.small hfits).2
        (hat.small hfits).1 (hat'.small hfits).1 hid
      obtain rfl := s.id_injective hat.mem hat'.mem hsame
      obtain rfl := Option.some.inj (hat.resolved.symm.trans hat'.resolved)
      obtain rfl := Option.some.inj (hat.tree.build.symm.trans hat'.tree.build)
      obtain rfl := Option.some.inj (hat.node.symm.trans hat'.node)
      exact ⟨by rw [hat.path.unique hat.tree.linked hat'.path], rfl⟩

/-- The titles on the way to a file. -/
def pathOf (t : ManagedTorrent) (metadata : TorrentMetadata) (components : List String) :
    List String :=
  if isSingleFileAtRoot metadata.info then components else titleOf t metadata :: components

/-- What a client can rely on that browses. -/
structure Browsable (s : Session) : Prop where
  /-- Each file of each torrent is found, under the titles of its path, and as one object. -/
  files : ∀ t ∈ s.torrents, ∀ metadata ∈ t.metadata, ∀ fid components,
    metadata.info.files[fid]? = some components →
    ∃ o, Finds s (pathOf t metadata components) o ∧ o.url = some ⟨t.id, fid, components⟩ ∧
      ∀ path' o', Finds s path' o' → o'.url = some ⟨t.id, fid, components⟩ → o' = o
  onlyFiles : ∀ path o url, Finds s path o → o.url = some url →
    ∃ t ∈ s.torrents, ∃ metadata ∈ t.metadata, url.torrentId = t.id ∧
      metadata.info.files[url.fid]? = some url.lastUrlBit ∧
      path = pathOf t metadata url.lastUrlBit
  /-- No number is found in two places, and none twice in one listing. -/
  once : ∀ path path' o o', Finds s path o → Finds s path' o' → o.id = o'.id →
    path = path' ∧ o = o'
  root : ((browseDirectChildren s 0).map ItemOrContainer.id).Nodup ∧
    ∀ o ∈ browseDirectChildren s 0, o.parentId = some 0
  listing : ∀ path c, Finds s path (.container c) →
    ((browseDirectChildren s c.id).map ItemOrContainer.id).Nodup ∧
      ∀ o ∈ browseDirectChildren s c.id, o.parentId = some c.id
  /-- What `browse_metadata` tells of an object is what was found. -/
  metadata : ∀ path o, Finds s path o → ∃ o', browseMetadata s o.id = [o'] ∧ o'.id = o.id ∧
    o'.parentId = o.parentId ∧ o'.title = o.title ∧ o'.url = o.url

/-- The object of a file is the node that has it. -/
theorem NodeAt.url_objectAt (h : NodeAt s t metadata nodes i node path) :
    (objectAt t metadata i node).url = node.realTorrentFileId.map fun fid =>
      ⟨t.id, fid, metadata.info.files[fid]?.getD [node.title]⟩ := by
  rw [objectAt]
  split_ifs with hi
  · subst hi
    rw [(isDir_iff h.node).1 h.tree.root]
    rfl
  · rw [asItemOrContainer]
    cases node.realTorrentFileId <;> rfl

theorem isFile_iff {fid : ℕ} (h : nodes[i]? = some node) :
    IsFile nodes i fid ↔ node.realTorrentFileId = some fid := by
  rw [IsFile, fileAt, h, Option.map_some, Option.some_inj]

theorem pathOf_single {component : String} (hfiles : metadata.info.files = [[component]])
    (components : List String) : pathOf t metadata components = components :=
  if_pos ((isSingleFileAtRoot_iff metadata.info).2 ⟨component, hfiles⟩)

theorem TreeOf.pathOf (h : TreeOf t metadata nodes) (components : List String) :
    pathOf t metadata components = titleOf t metadata :: components := by
  rw [UpnpBrowse.pathOf, h.many]
  rfl

/-- A file node stands at the end of the path of its file. -/
theorem NodeAt.file_path (h : NodeAt s t metadata nodes i node path) {fid : ℕ}
    (hreal : node.realTorrentFileId = some fid) : metadata.info.files[fid]? = some path := by
  have hfile := (isFile_iff h.node).2 hreal
  have hf := List.getElem?_eq_getElem (h.tree.onlyFiles i fid hfile)
  obtain ⟨j, hpath, honly⟩ := h.tree.file fid _ hf
  obtain rfl := (honly i).1 hfile
  rw [hf, hpath.unique h.tree.linked h.path]

/-- The number under which a file is found. -/
inductive FileId (t : ManagedTorrent) (metadata : TorrentMetadata) (fid : ℕ) : ℕ → Prop
  | single {component : String} : metadata.info.files = [[component]] →
      FileId t metadata fid (encodeId 0 t.id)
  | node {nodes : List TorrentFileTreeNode} {i : ℕ} : TreeOf t metadata nodes → IsFile nodes i fid →
      FileId t metadata fid (encodeId i t.id)

theorem FileId.unique {fid id id' : ℕ} {components : List String}
    (hf : metadata.info.files[fid]? = some components) (h : FileId t metadata fid id)
    (h' : FileId t metadata fid id') : id = id' := by
  cases h with
  | single hfiles =>
    cases h' with
    | single _ => rfl
    | node htree _ => exact absurd hfiles (htree.ne_single _)
  | node htree hi =>
    cases h' with
    | single hfiles => exact absurd hfiles (htree.ne_single _)
    | node htree' hj =>
      obtain rfl := Option.some.inj (htree.build.symm.trans htree'.build)
      obtain ⟨k, -, honly⟩ := htree.file fid components hf
      rw [(honly _).1 hi, (honly _).1 hj]

theorem located_url (h : Located s path o) {url : Url} (hurl : o.url = some url) :
    ∃ t ∈ s.torrents, ∃ metadata ∈ t.metadata, url.torrentId = t.id ∧
      metadata.info.files[url.fid]? = some url.lastUrlBit ∧
      path = pathOf t metadata url.lastUrlBit ∧ FileId t metadata url.fid o.id := by
  cases h with
  | @single t metadata component ht hmeta hfiles =>
    cases hurl
    refine ⟨t, ht, metadata, hmeta, rfl, ?_, ?_, .single hfiles⟩
    · rw [hfiles]
      rfl
    · rw [pathOf_single hfiles, hfiles]
      rfl
  | @node t metadata nodes i node below hat =>
    rw [hat.url_objectAt] at hurl
    obtain ⟨fid, hreal, rfl⟩ := Option.map_eq_some_iff.1 hurl
    have hf := hat.file_path hreal
    refine ⟨t, hat.mem, metadata, hat.resolved, rfl, ?_, ?_, ?_⟩
    · rw [hf]
      rfl
    · rw [hat.tree.pathOf, hf]
      rfl
    · rw [id_objectAt]
      exact .node hat.tree ((isFile_iff hat.node).2 hreal)

theorem exists_located {fid : ℕ} {components : List String} (ht : t ∈ s.torrents)
    (hmeta : t.metadata = some metadata) (hf : metadata.info.files[fid]? = some components) :
    ∃ o, Located s (pathOf t metadata components) o ∧ o.url = some ⟨t.id, fid, components⟩ := by
  rcases isSingle_cases metadata.info with ⟨component, hfiles⟩ | hmany
  · obtain ⟨rfl, rfl⟩ : fid = 0 ∧ components = [component] := by
      rw [hfiles, List.getElem?_singleton] at hf
      split_ifs at hf with hzero
      exact ⟨hzero, (Option.some.inj hf).symm⟩
    rw [pathOf_single hfiles]
    refine ⟨_, .single ht hmeta hfiles, ?_⟩
    rw [asItemOrContainer, hfiles]
    rfl
  · obtain ⟨nodes, htree⟩ := exists_treeOf t hmany
    obtain ⟨i, hpath, honly⟩ := htree.file fid components hf
    have hnode := List.getElem?_eq_getElem (hpath.lt htree.linked)
    have hat : NodeAt s t metadata nodes i _ components := ⟨ht, hmeta, htree, hnode, hpath⟩
    rw [htree.pathOf]
    refine ⟨_, .node hat, ?_⟩
    rw [hat.url_objectAt, (isFile_iff hnode).1 ((honly i).2 rfl), Option.map_some, hf]
    rfl

/-- A file is one object. -/
theorem located_of_url (hfits : s.Fits) {path' : List String} {o' : ItemOrContainer} {url : Url}
    (h : Located s path o) (h' : Located s path' o') (hurl : o.url = some url)
    (hurl' : o'.url = some url) : o = o' := by
  obtain ⟨t, ht, metadata, hmeta, hid, hf, -, hfile⟩ := located_url h hurl
  obtain ⟨t', ht', metadata', hmeta', hid', -, -, hfile'⟩ := located_url h' hurl'
  obtain rfl := s.id_injective ht ht' (hid.symm.trans hid')
  obtain rfl := Option.some.inj (Eq.trans (Eq.symm hmeta) hmeta')
  exact (located_unique hfits h h' (hfile.unique hf hfile')).2

/-! The listings. -/

theorem rootObject_cases (h : rootObject t = some o) :
    o.id = encodeId 0 t.id ∧ o.parentId = some 0 := by
  obtain ⟨metadata, hmeta, -⟩ := Option.bind_eq_some_iff.1 h
  rcases isSingle_cases metadata.info with ⟨component, hfiles⟩ | hmany
  · rw [rootObject_single hmeta hfiles] at h
    cases h
    exact ⟨rfl, rfl⟩
  · rw [rootObject_torrent hmeta hmany] at h
    cases h
    exact ⟨(encodeId_zero t.id).symm, rfl⟩

theorem nodup_root (s : Session) : ((browseDirectChildren s 0).map ItemOrContainer.id).Nodup := by
  have hperm := List.perm_insertionSort (fun a b => a.id ≤ b.id) s.torrents
  have hids : (s.torrents.insertionSort fun a b => a.id ≤ b.id).Pairwise fun a b => a.id ≠ b.id :=
    List.pairwise_map.1 ((hperm.map ManagedTorrent.id).nodup_iff.2 s.nodup)
  rw [browseDirectChildren, buildImpl, if_pos rfl, if_neg (by decide), buildRoot]
  refine List.pairwise_map.2 (List.pairwise_filterMap.2 (hids.imp ?_))
  intro t t' hne o ho o' ho' hid
  rw [(rootObject_cases ho).1, (rootObject_cases ho').1, encodeId_zero, encodeId_zero] at hid
  exact hne (Nat.succ.inj hid)

theorem NodeAt.nodup_listed (hfits : s.Fits) (h : NodeAt s t metadata nodes i node path)
    (hdir : node.realTorrentFileId = none) :
    ((browseDirectChildren s (encodeId i t.id)).map ItemOrContainer.id).Nodup := by
  have hchildren : node.children.Nodup := by
    refine List.nodup_iff_count_le_one.2 fun j => ?_
    have hcount := h.tree.linked.listed i j
    rw [childrenAt, h.node] at hcount
    change node.children.count j = _ at hcount
    rw [hcount]
    split_ifs <;> omega
  have hlen := (hfits t h.mem).2 metadata h.resolved nodes h.tree.build
  rw [browseDirectChildren, h.answer hfits, hdir, if_neg (by decide)]
  refine List.pairwise_map.2 (List.pairwise_filterMap.2 (hchildren.imp ?_))
  intro j j' hne o ho o' ho' hid
  obtain ⟨child, hchild, rfl⟩ := Option.map_eq_some_iff.1 ho
  obtain ⟨child', hchild', rfl⟩ := Option.map_eq_some_iff.1 ho'
  have hj := (List.getElem?_eq_some_iff.1 hchild).1
  have hj' := (List.getElem?_eq_some_iff.1 hchild').1
  have hsmall := (h.small hfits).1
  rw [id_asItemOrContainer, id_asItemOrContainer] at hid
  exact hne (encodeId_injective (by omega) (by omega) hsmall hsmall hid).1

theorem located_metadata (hfits : s.Fits) (h : Located s path o) :
    ∃ o', browseMetadata s o.id = [o'] ∧ o'.id = o.id ∧ o'.parentId = o.parentId ∧
      o'.title = o.title ∧ o'.url = o.url := by
  cases h with
  | @single t metadata component ht hmeta hfiles =>
    have hbuild : build t.id metadata.info = some [⟨component, none, [], some 0⟩] := by
      rw [build, if_pos ((isSingleFileAtRoot_iff metadata.info).2 ⟨component, hfiles⟩), hfiles]
      rfl
    rw [id_asItemOrContainer, browseMetadata,
      buildImpl_encodeId ht (hfits t ht).1 hmeta hbuild rfl (by decide)]
    exact ⟨_, rfl, rfl, rfl, rfl, rfl⟩
  | @node t metadata nodes i node below hat =>
    rw [id_objectAt, browseMetadata, hat.answer hfits, if_pos (Bool.or_true _)]
    refine ⟨_, rfl, id_asItemOrContainer _ _ _ _, ?_⟩
    rw [hat.url_objectAt]
    rcases Nat.eq_zero_or_pos i with rfl | hpos
    · -- the container of the torrent
      have hdir := (isDir_iff hat.node).1 hat.tree.root
      have hparent := (parentAt_eq hat.node).symm.trans hat.tree.linked.root
      have htitle := (labelAt_eq hat.node).symm.trans hat.tree.title
      rw [objectAt, if_pos rfl, parentId_asItemOrContainer, title_asItemOrContainer, hparent, hdir]
      refine ⟨rfl, Option.some.inj htitle, ?_⟩
      rw [asItemOrContainer, hdir]
      rfl
    · rw [objectAt, if_neg hpos.ne']
      refine ⟨rfl, rfl, ?_⟩
      rw [asItemOrContainer]
      cases node.realTorrentFileId <;> rfl

theorem browsable_of_fits (hfits : s.Fits) : Browsable s := by
  constructor
  case files =>
    intro t ht metadata hmeta fid components hf
    obtain ⟨o, ho, hurl⟩ := exists_located ht hmeta hf
    refine ⟨o, (finds_iff hfits).2 ho, hurl, fun path' o' ho' hurl' => ?_⟩
    exact located_of_url hfits ((finds_iff hfits).1 ho') ho hurl' hurl
  case onlyFiles =>
    intro path o url h hurl
    obtain ⟨t, ht, metadata, hmeta, hid, hf, hpath, -⟩ :=
      located_url ((finds_iff hfits).1 h) hurl
    exact ⟨t, ht, metadata, hmeta, hid, hf, hpath⟩
  case once =>
    intro path path' o o' h h' hid
    exact located_unique hfits ((finds_iff hfits).1 h) ((finds_iff hfits).1 h') hid
  case root =>
    refine ⟨nodup_root s, fun o ho => ?_⟩
    obtain ⟨t, -, hobject⟩ := mem_root.1 ho
    exact (rootObject_cases hobject).2
  case listing =>
    intro path c h
    obtain ⟨t, metadata, nodes, i, node, below, hat, hdir, -, hid⟩ :=
      container_located ((finds_iff hfits).1 h)
    rw [hid]
    refine ⟨hat.nodup_listed hfits hdir, fun o ho => ?_⟩
    obtain ⟨j, child, -, hparent, rfl⟩ := (hat.mem_listed hfits hdir).1 ho
    rw [parentId_asItemOrContainer, hparent]
    rfl
  case metadata => exact fun path o h => located_metadata hfits ((finds_iff hfits).1 h)

/-- A directory and a file of one name, a file alone, and a magnet. -/
def threeTorrents : Session where
  torrents := [
    ⟨7, some ⟨⟨some "film", [["film"]], by decide, by decide⟩, fun _ => 5⟩⟩,
    ⟨3, some ⟨⟨some "x", [["a"], ["a", "b"]], by decide, by decide⟩, fun fid => fid⟩⟩,
    ⟨4, none⟩]
  nodup := by decide

theorem threeTorrents_browsable : Browsable threeTorrents ∧
    (browseDirectChildren threeTorrents 0).map ItemOrContainer.id = [4, 8] ∧
    (browseDirectChildren threeTorrents 4).map ItemOrContainer.title = ["a", "a"] := by
  have hnodes : ∀ t ∈ threeTorrents.torrents, ∀ metadata ∈ t.metadata,
      (build t.id metadata.info).all (fun nodes => decide (nodes.length < 2 ^ 48)) = true := by
    intro t ht
    simp only [threeTorrents, List.mem_cons, List.not_mem_nil, or_false] at ht
    rcases ht with rfl | rfl | rfl
    · rintro metadata ⟨⟩
      decide +kernel
    · rintro metadata ⟨⟩
      decide +kernel
    · intro metadata hnone
      cases hnone
  have hfits : threeTorrents.Fits := by
    refine fun t ht => ⟨?_, fun metadata hmeta nodes hbuild => ?_⟩
    · revert t
      decide
    · have hall := hnodes t ht metadata hmeta
      rw [hbuild] at hall
      exact of_decide_eq_true hall
  exact ⟨browsable_of_fits hfits, by decide +kernel, by decide +kernel⟩

end UpnpBrowse

end Rtbit
