import Rtbit.Lib.FlatTree
import Rtbit.Spec.UpnpTree

/-! `TorrentFileTree::build` gives the tree of the files. The cache of names knows each directory node by
its parent and its title, so that a directory has one node; along the loops the nodes are linked, the
files so far have their nodes, and the directories are the ones above the files and on the way to the
current one. -/

namespace Rtbit

namespace TorrentFileTree

instance : Lib.TreeNode TorrentFileTreeNode String where
  label := TorrentFileTreeNode.title
  parent := TorrentFileTreeNode.parentId
  children := TorrentFileTreeNode.children
  addChild n i := { n with children := n.children ++ [i] }
  label_addChild _ _ := rfl
  parent_addChild _ _ := rfl
  children_addChild _ _ := rfl

open Lib (Linked PathTo parentAt labelAt childrenAt prefix_concat_ne_iff)

variable {nodes nodes' : List TorrentFileTreeNode} {p i : ℕ} {title : String} {real : Option ℕ}

theorem push_eq (nodes : List TorrentFileTreeNode) (p : ℕ) (title : String) (real : Option ℕ) :
    push nodes p title real = Lib.pushNode nodes p ⟨title, some p, [], real⟩ := by
  unfold push Lib.pushNode
  simp only
  cases (nodes ++ [(⟨title, some p, [], real⟩ : TorrentFileTreeNode)])[p]? <;> rfl

/-- What a node is: a directory, or a file with its id. -/
def fileAt (nodes : List TorrentFileTreeNode) (i : ℕ) : Option (Option ℕ) :=
  nodes[i]?.map TorrentFileTreeNode.realTorrentFileId

def IsDir (nodes : List TorrentFileTreeNode) (i : ℕ) : Prop := fileAt nodes i = some none

def IsFile (nodes : List TorrentFileTreeNode) (i fid : ℕ) : Prop := fileAt nodes i = some (some fid)

theorem IsDir.lt (h : IsDir nodes i) : i < nodes.length := by
  by_contra hge
  simp [IsDir, fileAt, List.getElem?_eq_none (Nat.le_of_not_lt hge)] at h

theorem fileAt_push (hp : p < nodes.length) (h : push nodes p title real = some nodes') (i : ℕ) :
    fileAt nodes' i = if i = nodes.length then some real else fileAt nodes i := by
  rw [push_eq] at h
  exact Lib.map_pushNode hp h TorrentFileTreeNode.realTorrentFileId (fun _ _ => rfl) i

theorem parentAt_push (hp : p < nodes.length) (h : push nodes p title real = some nodes') (i : ℕ) :
    parentAt nodes' i = if i = nodes.length then some p else parentAt nodes i := by
  rw [push_eq] at h
  exact Lib.parentAt_pushNode hp h i

theorem labelAt_push (hp : p < nodes.length) (h : push nodes p title real = some nodes') (i : ℕ) :
    labelAt nodes' i = if i = nodes.length then some title else labelAt nodes i := by
  rw [push_eq] at h
  exact Lib.labelAt_pushNode hp h i

theorem isDir_push (hp : p < nodes.length) (h : push nodes p title real = some nodes') :
    IsDir nodes' i ↔ IsDir nodes i ∨ i = nodes.length ∧ real = none := by
  unfold IsDir
  rw [fileAt_push hp h]
  split_ifs with hi
  · subst hi
    simp [fileAt]
  · simp [hi]

theorem isFile_push {fid : ℕ} (hp : p < nodes.length) (h : push nodes p title real = some nodes') :
    IsFile nodes' i fid ↔ IsFile nodes i fid ∨ i = nodes.length ∧ real = some fid := by
  unfold IsFile
  rw [fileAt_push hp h]
  split_ifs with hi
  · subst hi
    simp [fileAt]
  · simp [hi]

/-- A directory above a file. -/
def IsDirOf (files : List (List String)) (d : List String) : Prop :=
  ∃ components ∈ files, d <+: components ∧ d ≠ components

theorem isDirOf_append {files : List (List String)} {components d : List String} :
    IsDirOf (files ++ [components]) d ↔ IsDirOf files d ∨ d <+: components ∧ d ≠ components := by
  simp [IsDirOf, or_and_right, exists_or]

/-- The nodes are the tree of the files: linked, with one node for each file and one for each directory,
at the end of its path, and no others. -/
structure IsTreeOf (files : List (List String)) (nodes : List TorrentFileTreeNode) : Prop where
  linked : Linked nodes
  file : ∀ fid components, files[fid]? = some components →
    ∃ i, PathTo nodes i components ∧ ∀ j, IsFile nodes j fid ↔ j = i
  dir : ∀ d, IsDirOf files d → ∃ i, PathTo nodes i d ∧ ∀ j, IsDir nodes j ∧ PathTo nodes j d ↔ j = i
  onlyFiles : ∀ i fid, IsFile nodes i fid → fid < files.length
  onlyDirs : ∀ i, IsDir nodes i → ∃ d, PathTo nodes i d ∧ IsDirOf files d

/-- The tree after the loops for some files, with the directories that are there. -/
structure Inv (files : List (List String)) (dirs : List String → Prop) (s : Building) : Prop where
  linked : Linked s.nodes
  parents : ∀ i p, parentAt s.nodes i = some p → IsDir s.nodes p
  cache : ∀ p component i, s.nameCache.lookup (p, component) = some i ↔
    parentAt s.nodes i = some p ∧ labelAt s.nodes i = some component ∧ IsDir s.nodes i
  file : ∀ fid components, files[fid]? = some components →
    ∃ i, PathTo s.nodes i components ∧ ∀ j, IsFile s.nodes j fid ↔ j = i
  onlyFiles : ∀ i fid, IsFile s.nodes i fid → fid < files.length
  dir : ∀ d, dirs d ↔ ∃ i, IsDir s.nodes i ∧ PathTo s.nodes i d

variable {files : List (List String)} {dirs dirs' : List String → Prop} {s : Building} {fid : ℕ}
  {d components : List String} {component : String}

theorem Inv.congr (h : Inv files dirs s) (hd : ∀ d, dirs' d ↔ dirs d) : Inv files dirs' s :=
  ⟨h.linked, h.parents, h.cache, h.file, h.onlyFiles, fun d => (hd d).trans (h.dir d)⟩

/-- A directory has one node. -/
theorem Inv.dir_unique (h : Inv files dirs s) {j : ℕ} (hi : IsDir s.nodes i) (hj : IsDir s.nodes j)
    (hpi : PathTo s.nodes i d) (hpj : PathTo s.nodes j d) : i = j := by
  induction d using List.reverseRecOn generalizing i j with
  | nil => rw [hpi.nil_inv, hpj.nil_inv]
  | append_singleton d component ih =>
    obtain ⟨p, hp, hparent, hlabel⟩ := hpi.child_inv
    obtain ⟨q, hq, hparent', hlabel'⟩ := hpj.child_inv
    obtain rfl : p = q := ih (h.parents i p hparent) (h.parents j q hparent') hp hq
    have hlookup := (h.cache p component i).2 ⟨hparent, hlabel, hi⟩
    rw [(h.cache p component j).2 ⟨hparent', hlabel', hj⟩] at hlookup
    exact (Option.some.inj hlookup).symm

/-- The loop finds the next directory in the cache. -/
theorem Inv.found (h : Inv files dirs s) (hd : PathTo s.nodes p d)
    (hfound : s.nameCache.lookup (p, component) = some i) :
    IsDir s.nodes i ∧ PathTo s.nodes i (d ++ [component]) ∧ dirs (d ++ [component]) := by
  obtain ⟨hparent, hlabel, hdir⟩ := (h.cache p component i).1 hfound
  have hpath := hd.child hparent hlabel
  exact ⟨hdir, hpath, (h.dir _).2 ⟨i, hdir, hpath⟩⟩

/-- A push below a directory. -/
theorem Inv.push (h : Inv files dirs s) (hp : IsDir s.nodes p) (hd : PathTo s.nodes p d)
    (component : String) (real : Option ℕ) :
    ∃ nodes', TorrentFileTree.push s.nodes p component real = some nodes' ∧ Linked nodes' ∧
      (∀ i q, parentAt nodes' i = some q → IsDir nodes' q) ∧
      ∀ i path, PathTo nodes' i path ↔
        PathTo s.nodes i path ∨ i = s.nodes.length ∧ path = d ++ [component] := by
  have hlt := hp.lt
  obtain ⟨nodes', hpush⟩ := Lib.pushNode_isSome ⟨component, some p, [], real⟩ hlt
  have hpush' : TorrentFileTree.push s.nodes p component real = some nodes' := by rwa [push_eq]
  refine ⟨nodes', hpush', h.linked.push hlt rfl rfl hpush, fun i q hq => ?_,
    fun i path => Lib.pathTo_push_iff hlt h.linked rfl rfl hpush hd⟩
  rw [parentAt_push hlt hpush'] at hq
  refine (isDir_push hlt hpush').2 (.inl ?_)
  split_ifs at hq
  · cases hq
    exact hp
  · exact h.parents i q hq

/-- A new directory. -/
theorem Inv.pushDir (h : Inv files dirs s) (hp : IsDir s.nodes p) (hd : PathTo s.nodes p d)
    (hnew : s.nameCache.lookup (p, component) = none) :
    ∃ nodes', TorrentFileTree.push s.nodes p component none = some nodes' ∧
      Inv files (fun d' => dirs d' ∨ d' = d ++ [component])
        ⟨nodes', ((p, component), s.nodes.length) :: s.nameCache⟩ ∧
      IsDir nodes' s.nodes.length ∧ PathTo nodes' s.nodes.length (d ++ [component]) := by
  have hlt := hp.lt
  obtain ⟨nodes', hpush, hlinked, hparents, hpaths⟩ := h.push hp hd component none
  have hfile := fileAt_push hlt hpush
  have hnewDir : IsDir nodes' s.nodes.length := (isDir_push hlt hpush).2 (.inr ⟨rfl, rfl⟩)
  have hnewPath : PathTo nodes' s.nodes.length (d ++ [component]) := (hpaths _ _).2 (.inr ⟨rfl, rfl⟩)
  have hisFile : ∀ i fid, IsFile nodes' i fid ↔ IsFile s.nodes i fid := fun i fid => by
    simp [isFile_push hlt hpush]
  have hcache : ∀ q component' i,
      (((p, component), s.nodes.length) :: s.nameCache).lookup (q, component') = some i ↔
        parentAt nodes' i = some q ∧ labelAt nodes' i = some component' ∧ IsDir nodes' i := by
    intro q component' i
    have hold := h.cache q component' i
    rw [IsDir] at hold
    rw [List.lookup_cons, parentAt_push hlt hpush, labelAt_push hlt hpush, IsDir, hfile]
    by_cases hkey : (q, component') = (p, component)
    · obtain ⟨rfl, rfl⟩ := Prod.mk.inj hkey
      rw [hnew] at hold
      by_cases hi : i = s.nodes.length
      · simp [hi]
      · simpa [hi, Ne.symm hi] using hold
    · rw [beq_false_of_ne hkey]
      by_cases hi : i = s.nodes.length
      · have hnone : s.nameCache.lookup (q, component') ≠ some s.nodes.length := fun hlookup =>
          ((h.cache q component' _).1 hlookup).2.2.lt.false
        have hother : p = q → component ≠ component' := fun hq hc => hkey (by rw [hq, hc])
        simpa [hi, hnone] using hother
      · simpa [hi] using hold
  refine ⟨nodes', hpush, ⟨hlinked, hparents, hcache, fun fid components hf => ?_,
    fun i fid hi => h.onlyFiles i fid ((hisFile i fid).1 hi), fun d' => ?_⟩, hnewDir, hnewPath⟩
  · obtain ⟨i, hpath, honly⟩ := h.file fid components hf
    exact ⟨i, (hpaths i _).2 (.inl hpath), fun j => (hisFile j fid).trans (honly j)⟩
  · constructor
    · rintro (hd' | rfl)
      · obtain ⟨i, hi, hpath⟩ := (h.dir d').1 hd'
        exact ⟨i, (isDir_push hlt hpush).2 (.inl hi), (hpaths i d').2 (.inl hpath)⟩
      · exact ⟨_, hnewDir, hnewPath⟩
    · rintro ⟨i, hi, hpath⟩
      rcases (hpaths i d').1 hpath with hpath | ⟨-, rfl⟩
      · rcases (isDir_push hlt hpush).1 hi with hi | ⟨rfl, -⟩
        · exact .inl ((h.dir d').2 ⟨i, hi, hpath⟩)
        · exact absurd (hpath.lt h.linked) (lt_irrefl _)
      · exact .inr rfl

/-- A new file. -/
theorem Inv.pushFile (h : Inv files dirs s) (hp : IsDir s.nodes p) (hd : PathTo s.nodes p d)
    (component : String) :
    ∃ nodes', TorrentFileTree.push s.nodes p component (some files.length) = some nodes' ∧
      Inv (files ++ [d ++ [component]]) dirs ⟨nodes', s.nameCache⟩ := by
  have hlt := hp.lt
  obtain ⟨nodes', hpush, hlinked, hparents, hpaths⟩ := h.push hp hd component (some files.length)
  have hisDir : ∀ i, IsDir nodes' i ↔ IsDir s.nodes i := fun i => by simp [isDir_push hlt hpush]
  have hisFile : ∀ i fid, IsFile nodes' i fid ↔
      IsFile s.nodes i fid ∨ i = s.nodes.length ∧ fid = files.length := fun i fid => by
    rw [isFile_push hlt hpush, Option.some_inj, @eq_comm _ fid]
  refine ⟨nodes', hpush, hlinked, hparents, fun q component' i => ?_, fun fid components hf => ?_,
    fun i fid hi => ?_, fun d' => ?_⟩
  · rw [h.cache, parentAt_push hlt hpush, labelAt_push hlt hpush, hisDir]
    by_cases hi : i = s.nodes.length
    · have hnot : ¬ IsDir s.nodes i := fun hdir => hi.not_lt hdir.lt
      simp [hnot]
    · rw [if_neg hi, if_neg hi]
  · rcases Nat.lt_or_ge fid files.length with hfid | hfid
    · rw [List.getElem?_append_left hfid] at hf
      obtain ⟨i, hpath, honly⟩ := h.file fid components hf
      refine ⟨i, (hpaths i _).2 (.inl hpath), fun j => ?_⟩
      rw [hisFile, honly]
      simp [hfid.ne]
    · -- the new file
      obtain ⟨rfl, rfl⟩ : fid = files.length ∧ components = d ++ [component] := by
        rw [List.getElem?_append_right hfid, List.getElem?_singleton] at hf
        split_ifs at hf
        cases hf
        exact ⟨by omega, rfl⟩
      refine ⟨s.nodes.length, (hpaths _ _).2 (.inr ⟨rfl, rfl⟩), fun j => ?_⟩
      have hnone : ¬ IsFile s.nodes j files.length := fun hj => (h.onlyFiles j _ hj).false
      simp [hisFile, hnone]
  · rw [List.length_append, List.length_singleton]
    rcases (hisFile i fid).1 hi with hi | ⟨-, rfl⟩
    · exact Nat.lt_succ_of_lt (h.onlyFiles i fid hi)
    · exact Nat.lt_succ_self _
  · simp only [h.dir, hisDir, hpaths]
    refine exists_congr fun i => and_congr_right fun hi => ?_
    simp [hi.lt.ne]

/-- The loop over the components that are left of a file adds the directories on their way, and the
file. -/
theorem Inv.addComponents (h : Inv files (fun d' => IsDirOf files d' ∨ d' <+: d) s)
    (hp : IsDir s.nodes p) (hd : PathTo s.nodes p d) {rest : List String} (hrest : rest ≠ []) :
    ∃ s', TorrentFileTree.addComponents files.length s p rest = some s' ∧
      Inv (files ++ [d ++ rest]) (IsDirOf (files ++ [d ++ rest])) s' := by
  induction rest generalizing d p s with
  | nil => exact absurd rfl hrest
  | cons component rest ih =>
    cases rest with
    | nil =>
      obtain ⟨nodes', hpush, hinv⟩ := h.pushFile hp hd component
      refine ⟨⟨nodes', s.nameCache⟩, ?_, hinv.congr fun d' => ?_⟩
      · simp [TorrentFileTree.addComponents, hpush]
      · rw [isDirOf_append, prefix_concat_ne_iff]
    | cons next rest =>
      have hsplit : d ++ component :: next :: rest = d ++ [component] ++ next :: rest := by simp
      rw [TorrentFileTree.addComponents, hsplit]
      cases hlookup : s.nameCache.lookup (p, component) with
      | some id =>
        obtain ⟨hdir, hpath, hmem⟩ := h.found hd hlookup
        refine ih (h.congr fun d' => ?_) hdir hpath (List.cons_ne_nil _ _)
        constructor
        · rintro (hd' | hd')
          · exact .inl hd'
          · rcases List.prefix_concat_iff.1 hd' with rfl | hd'
            · exact hmem
            · exact .inr hd'
        · exact Or.imp_right fun hd' => hd'.trans (List.prefix_append _ _)
      | none =>
        obtain ⟨nodes', hpush, hinv, hdir, hpath⟩ := h.pushDir hp hd hlookup
        have hnext : Inv files (fun d' => IsDirOf files d' ∨ d' <+: d ++ [component])
            ⟨nodes', ((p, component), s.nodes.length) :: s.nameCache⟩ := by
          refine hinv.congr fun d' => ?_
          rw [or_assoc, or_comm (a := d' <+: d), ← List.prefix_concat_iff]
        obtain ⟨s', hs', hinv'⟩ := ih hnext hdir hpath (List.cons_ne_nil _ _)
        refine ⟨s', ?_, hinv'⟩
        simpa [hpush] using hs'

theorem Inv.addFile (h : Inv files (fun d => d = [] ∨ IsDirOf files d) s)
    (hne : components ≠ []) :
    ∃ s', TorrentFileTree.addFile s (components, files.length) = some s' ∧
      Inv (files ++ [components]) (fun d => d = [] ∨ IsDirOf (files ++ [components]) d) s' := by
  have hroot : IsDir s.nodes 0 := by
    obtain ⟨i, hi, hpath⟩ := (h.dir []).1 (.inl rfl)
    rwa [hpath.nil_inv] at hi
  have hstart : Inv files (fun d => IsDirOf files d ∨ d <+: []) s := h.congr fun d => by
    rw [List.prefix_nil, or_comm]
  obtain ⟨s', hs', hinv⟩ := hstart.addComponents hroot .root hne
  refine ⟨s', hs', hinv.congr fun d => or_iff_right_of_imp ?_⟩
  rintro rfl
  exact ⟨components, List.mem_append_right _ (List.mem_singleton_self _), List.nil_prefix, hne.symm⟩

/-- The loop over the files. -/
theorem Inv.addFiles (h : Inv files (fun d => d = [] ∨ IsDirOf files d) s)
    {rest : List (List String)} (hne : ∀ components ∈ rest, components ≠ []) :
    ∃ s', (rest.zipIdx files.length).foldlM TorrentFileTree.addFile s = some s' ∧
      Inv (files ++ rest) (fun d => d = [] ∨ IsDirOf (files ++ rest) d) s' := by
  induction rest generalizing files s with
  | nil => exact ⟨s, rfl, by rwa [List.append_nil]⟩
  | cons components rest ih =>
    obtain ⟨s₁, hs₁, h₁⟩ := h.addFile (hne _ List.mem_cons_self)
    obtain ⟨s', hs', h'⟩ := ih h₁ fun c hc => hne c (List.mem_cons_of_mem _ hc)
    rw [List.length_append, List.length_singleton] at hs'
    rw [List.append_assoc] at h'
    refine ⟨s', ?_, h'⟩
    rw [List.zipIdx_cons, List.foldlM_cons, hs₁]
    exact hs'

/-- The tree of the root alone. -/
theorem inv_root (title : String) :
    Inv [] (fun d => d = [] ∨ IsDirOf [] d) ⟨[⟨title, none, [], none⟩], []⟩ := by
  set root : List TorrentFileTreeNode := [⟨title, none, [], none⟩] with hroot
  have hparent : ∀ i, parentAt root i = none := fun i => by
    cases i <;> rfl
  have hchildren : ∀ i, childrenAt root i = [] := fun i => by
    cases i <;> rfl
  have hlinked : Linked root := by
    refine ⟨Nat.one_pos, hparent 0, fun i hpos hi => ?_, fun i j => ?_⟩
    · rw [hroot, List.length_singleton] at hi
      omega
    · simp [hparent, hchildren]
  have hdir : IsDir root 0 := rfl
  refine ⟨hlinked, fun i p hp => ?_, fun p component i => ?_, fun fid components hf => ?_,
    fun i fid hi => ?_, fun d => ?_⟩
  · simp [hparent] at hp
  · simp [hparent]
  · simp at hf
  · exfalso
    cases i with
    | zero => simp [IsFile, fileAt, hroot] at hi
    | succ i => simp [IsFile, fileAt, hroot] at hi
  · constructor
    · rintro (rfl | ⟨components, hc, -⟩)
      · exact ⟨0, hdir, .root⟩
      · simp at hc
    · rintro ⟨i, -, hpath⟩
      have hi := hpath.lt hlinked
      obtain rfl : i = 0 := by
        rw [hroot, List.length_singleton] at hi
        omega
      exact .inl (hpath.unique hlinked .root)

theorem isSingleFileAtRoot_iff (info : ValidatedTorrentMetaV1Info) :
    isSingleFileAtRoot info = true ↔ ∃ component, info.files = [[component]] := by
  unfold isSingleFileAtRoot
  constructor
  · intro h
    obtain ⟨file, rest, hfiles⟩ := List.exists_cons_of_ne_nil info.files_ne
    have hne := info.components_ne
    rw [hfiles] at h hne ⊢
    obtain ⟨component, more, rfl⟩ := List.exists_cons_of_ne_nil (hne _ List.mem_cons_self)
    have hlen : (more ++ rest.flatten).length = 0 := by
      have hle : (more ++ rest.flatten)[0]? = none := by simpa using h
      simpa using hle
    obtain ⟨rfl, hflat⟩ := List.append_eq_nil_iff.1 (List.length_eq_zero_iff.1 hlen)
    obtain rfl : rest = [] := List.eq_nil_iff_forall_not_mem.2 fun f hf =>
      hne f (List.mem_cons_of_mem _ hf) (List.flatten_eq_nil_iff.1 hflat f hf)
    exact ⟨component, rfl⟩
  · rintro ⟨component, hfiles⟩
    rw [hfiles]
    rfl

/-- The tree of a torrent: the file itself when it is alone at the root, and else the tree of its
files. -/
theorem build_isTreeOf (torrentId : ℕ) (info : ValidatedTorrentMetaV1Info) :
    ∃ nodes, build torrentId info = some nodes ∧
      (∀ component, info.files = [[component]] → nodes = [⟨component, none, [], some 0⟩]) ∧
      ((∀ component, info.files ≠ [[component]]) → IsTreeOf info.files nodes) := by
  unfold build
  split_ifs with hsingle
  · obtain ⟨component, hfiles⟩ := (isSingleFileAtRoot_iff info).1 hsingle
    refine ⟨[⟨component, none, [], some 0⟩], ?_, fun component' hf => ?_,
      fun hf => absurd hfiles (hf component)⟩
    · rw [hfiles]
      rfl
    · rw [hfiles] at hf
      cases hf
      rfl
  · obtain ⟨s, hs, hinv⟩ :=
      (inv_root (info.name.getD s!"torrent {torrentId}")).addFiles info.components_ne
    refine ⟨s.nodes, ?_, fun component hf =>
      absurd ((isSingleFileAtRoot_iff info).2 ⟨component, hf⟩) hsingle, fun _ => ?_⟩
    · simp only [List.length_nil] at hs
      simp only [hs]
      rfl
    · rw [List.nil_append] at hinv
      have hdirs : ∀ d, IsDirOf info.files d ↔ ∃ i, IsDir s.nodes i ∧ PathTo s.nodes i d := fun d => by
        rw [← hinv.dir, iff_or_self]
        rintro rfl
        obtain ⟨file, hfile⟩ := List.exists_mem_of_ne_nil _ info.files_ne
        exact ⟨file, hfile, List.nil_prefix, (info.components_ne file hfile).symm⟩
      refine ⟨hinv.linked, hinv.file, fun d hd => ?_, hinv.onlyFiles, fun i hi => ?_⟩
      · obtain ⟨i, hi, hpath⟩ := (hdirs d).1 hd
        refine ⟨i, hpath, fun j => ⟨fun hj => hinv.dir_unique hj.1 hi hj.2 hpath, ?_⟩⟩
        rintro rfl
        exact ⟨hi, hpath⟩
      · obtain ⟨d, hpath⟩ := hinv.linked.exists_path hi.lt
        exact ⟨d, hpath, (hdirs d).2 ⟨i, hi, hpath⟩⟩

/-- A directory and a file of one name. -/
def sameName : ValidatedTorrentMetaV1Info :=
  ⟨none, [["a"], ["a", "b"], ["a", "a", "c"]], by decide, by decide⟩

theorem sameName_isTreeOf :
    ∃ nodes, build 0 sameName = some nodes ∧ IsTreeOf [["a"], ["a", "b"], ["a", "a", "c"]] nodes := by
  obtain ⟨nodes, hbuild, -, htree⟩ := build_isTreeOf 0 sameName
  exact ⟨nodes, hbuild, htree fun component hf => by simp [sameName] at hf⟩

end TorrentFileTree

end Rtbit
