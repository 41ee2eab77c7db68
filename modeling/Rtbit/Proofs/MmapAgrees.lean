import Rtbit.Lib.Runs
import Rtbit.Sanity.Chunks
import Rtbit.Sanity.Filesystem
import Rtbit.Spec.MmapStorage

/-! The two filesystem storages under the same calls, each on a folder of its own. The maps of the
one are of the files that the other has opened, and a byte that has been written is the same in both
folders. What stands between them is `init`, which fails to lock the dummy of a padding file. -/

namespace Rtbit

open Lib

namespace Filesystem

/-- A call of the storage with number `i` of those that there are by then: `take` adds one. -/
inductive StorageOp where
  | init (i : ℕ) (allowOverwrite : Bool) (errors : OpenErrors)
  | pwriteAll (i fileId offset : ℕ) (buf : List UInt8) (failsAfter : Option ℕ)
  | pwriteAllVectored (i fileId offset : ℕ) (bufs : List UInt8 × List UInt8)
      (failsAfter : Option ℕ)
  | preadExact (i fileId offset len : ℕ) (fails : Bool)
  | take (i : ℕ)

/-- A folder, and the storages that use it. -/
structure World (S : Type) where
  folder : Folder
  storages : List S

variable (files : List FileInfo)

/-- The world after the call, and the reply; the errors of the system are those of `FilesystemStorage`. -/
def World.fsCall (w : World FilesystemStorage) : StorageOp → World FilesystemStorage × Reply
  | .init i allowOverwrite errors =>
    match w.storages[i]? with
    | none => (w, .failed)
    | some s =>
      match s.init allowOverwrite errors files w.folder with
      | (s, d, .error _) => (⟨d, w.storages.set i s⟩, .failed)
      | (s, d, .ok ()) => (⟨d, w.storages.set i s⟩, .ok [])
  | .pwriteAll i fileId offset buf failsAfter =>
    match w.storages[i]? with
    | none => (w, .failed)
    | some s =>
      let (d, r) := s.write failsAfter w.folder fileId offset buf
      ({ w with folder := d }, r)
  | .pwriteAllVectored i fileId offset bufs failsAfter =>
    match w.storages[i]? with
    | none => (w, .failed)
    | some s =>
      let (d, r) := s.write failsAfter w.folder fileId offset (bufs.1 ++ bufs.2)
      ({ w with folder := d }, r)
  | .preadExact i fileId offset len fails =>
    match w.storages[i]? with
    | none => (w, .failed)
    | some s => (w, s.read fails w.folder fileId offset len)
  | .take i =>
    match w.storages[i]? with
    | none => (w, .failed)
    | some s => ({ w with storages := w.storages.set i s.taken ++ [s] }, .ok [])

def World.mmapCall (w : World MmapFilesystemStorage) :
    StorageOp → World MmapFilesystemStorage × Reply
  | .init i allowOverwrite errors =>
    match w.storages[i]? with
    | none => (w, .failed)
    | some s =>
      match s.init allowOverwrite errors files w.folder with
      | (s, d, .error _) => (⟨d, w.storages.set i s⟩, .failed)
      | (s, d, .ok ()) => (⟨d, w.storages.set i s⟩, .ok [])
  | .pwriteAll i fileId offset buf _ =>
    match w.storages[i]? with
    | none => (w, .failed)
    | some s =>
      let (s, d, r) := s.pwriteAll w.folder fileId offset buf
      (⟨d, w.storages.set i s⟩, r)
  | .pwriteAllVectored i fileId offset bufs _ =>
    match w.storages[i]? with
    | none => (w, .failed)
    | some s =>
      let (s, d, r) := s.pwriteAllVectored w.folder fileId offset bufs
      (⟨d, w.storages.set i s⟩, r)
  | .preadExact i fileId offset len _ =>
    match w.storages[i]? with
    | none => (w, .failed)
    | some s => (w, s.preadExact w.folder fileId offset len)
  | .take i =>
    match w.storages[i]? with
    | none => (w, .failed)
    | some s => ({ w with storages := w.storages.set i s.taken ++ [s] }, .ok [])

/-- Both worlds, and the bytes of the files that have been written. -/
structure Both where
  fs : World FilesystemStorage
  mmap : World MmapFilesystemStorage
  written : File → ℕ → Bool

/-- `written` behind a write that ends with `r`: if it fails its range is no longer written, unless
the file is not open at all. -/
def Both.writtenBehind (b : Both) (i fileId offset len : ℕ) (r : Reply) : File → ℕ → Bool :=
  fun f k =>
    if f = fileId ∧ offset ≤ k ∧ k < offset + len ∧
        (b.fs.storages[i]?.map fun s => (s.lockRead fileId).isOk) = some true then
      decide (r ≠ .failed)
    else b.written f k

def Both.step (b : Both) (op : StorageOp) : Option Both :=
  let (fs, r) := b.fs.fsCall files op
  let (mmap, _) := b.mmap.mmapCall files op
  some ⟨fs, mmap,
    match op with
    | .pwriteAll i fileId offset buf _ => b.writtenBehind i fileId offset buf.length r
    | .pwriteAllVectored i fileId offset bufs _ =>
      b.writtenBehind i fileId offset (bufs.1 ++ bufs.2).length r
    | _ => b.written⟩

/-- Writes stay in the bounds of their file, and what is read has been written. -/
def Both.Allowed (b : Both) : StorageOp → Prop
  | .pwriteAll _ fileId offset buf _ =>
    ∃ fi, files[fileId]? = some fi ∧ offset + buf.length ≤ fi.len
  | .pwriteAllVectored _ fileId offset bufs _ =>
    ∃ fi, files[fileId]? = some fi ∧ offset + (bufs.1 ++ bufs.2).length ≤ fi.len
  | .preadExact _ fileId offset len _ =>
    (∃ fi, files[fileId]? = some fi ∧ offset + len ≤ fi.len) ∧
      ∀ k, offset ≤ k → k < offset + len → b.written fileId k = true
  | _ => True

/-- One storage of each kind, on the same folder. -/
def Both.start (d : Folder) : Both :=
  ⟨⟨d, [FilesystemStorage.create]⟩, ⟨d, [MmapFilesystemStorage.create]⟩, fun _ _ => false⟩

/-- Whenever the call succeeds on `FilesystemStorage`, it does on `MmapFilesystemStorage`, with the
same bytes. -/
def Both.Agree (b : Both) (op : StorageOp) : Prop :=
  (b.fs.fsCall files op).2 ≠ .failed → (b.mmap.mmapCall files op).2 = (b.fs.fsCall files op).2

/-- In every run from the same folder. -/
def StoragesAgree : Prop :=
  ∀ d ops b, Run (Both.step files) (Both.Allowed files) (Both.start d) ops b →
    ∀ op, b.Allowed files op → b.Agree files op

variable {files} {d d' e e' : Folder} {f : File} {k : ℕ} {x : UInt8}

/-- The byte at `k` of a file that is there. -/
def Folder.byte (d : Folder) (f : File) (k : ℕ) : Option UInt8 := (d f).bind (·[k]?)

/-! Opening the files. -/

section

variable {allowOverwrite : Bool} {errors : OpenErrors}

/-- The same files are there before, and so the same calls fail. -/
theorem initFiles_parallel (allowOverwrite : Bool) (errors : OpenErrors) (i : ℕ)
    (fs : List FileInfo) (h : ∀ f, (d f).isSome = (e f).isSome) :
    (initFiles allowOverwrite errors i fs d).2 = (initFiles allowOverwrite errors i fs e).2 ∧
      ∀ f, ((initFiles allowOverwrite errors i fs d).1 f).isSome =
        ((initFiles allowOverwrite errors i fs e).1 f).isSome := by
  induction fs generalizing i d e with
  | nil => exact ⟨rfl, h⟩
  | cons fi fs ih =>
    have hcreate (x y : List UInt8) (f : File) : (Function.update d i (some x) f).isSome =
        (Function.update e i (some y) f).isSome := by
      by_cases hf : f = i
      · subst hf
        rw [Function.update_self, Function.update_self]
        rfl
      · rw [Function.update_of_ne hf, Function.update_of_ne hf]
        exact h f
    rw [initFiles, initFiles, h i]
    by_cases hp : fi.padding = true
    · rw [if_pos hp, if_pos hp]
      exact ⟨congrArg (Option.map (none :: ·)) (ih (i + 1) h).1, (ih (i + 1) h).2⟩
    rw [if_neg hp, if_neg hp]
    dsimp only
    split_ifs
    · exact ⟨rfl, h⟩
    · exact ⟨rfl, h⟩
    · have hrest := ih (i + 1) (hcreate ((d i).getD []) ((e i).getD []))
      exact ⟨congrArg (Option.map (some i :: ·)) hrest.1, hrest.2⟩
    · exact ⟨rfl, h⟩
    · exact ⟨rfl, hcreate [] []⟩
    · have hrest := ih (i + 1) (hcreate [] [])
      exact ⟨congrArg (Option.map (some i :: ·)) hrest.1, hrest.2⟩

/-- The bytes of a file that is there stay. -/
theorem initFiles_keeps {i : ℕ} {fs : List FileInfo} {bytes : List UInt8} (h : d f = some bytes) :
    (initFiles allowOverwrite errors i fs d).1 f = some bytes := by
  induction fs generalizing i d with
  | nil => exact h
  | cons fi fs ih =>
    rw [initFiles]
    by_cases hp : fi.padding = true
    · rw [if_pos hp]
      exact ih h
    rw [if_neg hp]
    dsimp only
    have hopen : Function.update d i (some ((d i).getD [])) f = some bytes := by
      by_cases hf : f = i
      · subst hf
        rw [Function.update_self, h, Option.getD_some]
      · rw [Function.update_of_ne hf, h]
    have hcreate (hnew : ¬(errors.openFile i || (d i).isSome) = true) :
        Function.update d i (some []) f = some bytes := by
      have hf : f ≠ i := by
        rintro rfl
        rw [h] at hnew
        simp at hnew
      rw [Function.update_of_ne hf, h]
    split_ifs with _ _ _ hnew
    · exact h
    · exact h
    · exact ih hopen
    · exact h
    · exact hcreate hnew
    · exact ih (hcreate hnew)

/-- What has been opened is there. -/
theorem initFiles_there {i : ℕ} {fs : List FileInfo} {opened : List (Option File)}
    (h : initFiles allowOverwrite errors i fs d = (d', some opened)) (hf : some f ∈ opened) :
    (d' f).isSome := by
  induction fs generalizing i d opened with
  | nil =>
    cases h
    cases hf
  | cons fi fs ih =>
    have hrest {d₁ : Folder} {head : Option File}
        (h : ((initFiles allowOverwrite errors (i + 1) fs d₁).1,
          (initFiles allowOverwrite errors (i + 1) fs d₁).2.map (head :: ·)) = (d', some opened))
        (hhead : head = some f → (d₁ f).isSome) : (d' f).isSome := by
      obtain ⟨hd, hopened⟩ := Prod.mk.inj h
      obtain ⟨rest, hr, rfl⟩ := Option.map_eq_some_iff.1 hopened
      rcases List.mem_cons.1 hf with heq | hmem
      · obtain ⟨bytes, hbytes⟩ := Option.isSome_iff_exists.1 (hhead heq.symm)
        rw [← hd, initFiles_keeps hbytes]
        rfl
      · exact ih (Prod.ext hd hr) hmem
    have hnew (bytes : List UInt8) (heq : some i = some f) :
        (Function.update d i (some bytes) f).isSome := by
      obtain rfl := Option.some.inj heq
      rw [Function.update_self]
      rfl
    rw [initFiles] at h
    by_cases hp : fi.padding = true
    · rw [if_pos hp] at h
      exact hrest h fun heq => by cases heq
    rw [if_neg hp] at h
    dsimp only at h
    split_ifs at h
    · cases h
    · cases h
    · exact hrest h (hnew _)
    · cases h
    · cases h
    · exact hrest h (hnew _)

end

/-! Mapping them. -/

theorem setLen_length (bytes : List UInt8) (n : ℕ) : (setLen bytes n).length = n := by
  simp only [setLen, List.length_append, List.length_take, List.length_replicate]
  omega

theorem setLen_get {bytes : List UInt8} {n : ℕ} (hk : k < n) (h : bytes[k]? = some x) :
    (setLen bytes n)[k]? = some x := by
  have hlt := (List.getElem?_eq_some_iff.1 h).1
  rw [setLen, List.getElem?_append_left (by rw [List.length_take]; omega),
    List.getElem?_take_of_lt hk, h]

/-- A file that is opened is mapped with the length that it is set to. -/
theorem mapFiles_ok (i : ℕ) (fs : List FileInfo) (d : Folder) :
    ∃ d', MmapFilesystemStorage.mapFiles (((fs.zipIdx i).map fun x => some x.2).zip fs) d =
        (d', .ok ((fs.zipIdx i).map fun x => .file x.2 x.1.len)) ∧
      (∀ f, f < i ∨ i + fs.length ≤ f → d' f = d f) ∧
      ∀ j fi, fs[j]? = some fi → d' (i + j) = some (setLen ((d (i + j)).getD []) fi.len) := by
  induction fs generalizing i d with
  | nil => exact ⟨d, rfl, fun _ _ => rfl, by rintro j fi ⟨⟩⟩
  | cons fi fs ih =>
    obtain ⟨d', hmap, hothers, hset⟩ :=
      ih (i + 1) (Function.update d i (some (setLen ((d i).getD []) fi.len)))
    refine ⟨d', ?_, ?_, ?_⟩
    · rw [List.zipIdx_cons, List.map_cons, List.map_cons, List.zip_cons_cons,
        MmapFilesystemStorage.mapFiles, hmap]
      rfl
    · intro f hf
      rw [List.length_cons] at hf
      have hne : f ≠ i := by
        rintro rfl
        omega
      rw [hothers f (by omega), Function.update_of_ne hne]
    · intro j fj hj
      cases j with
      | zero =>
        obtain rfl := Option.some.inj hj
        rw [Nat.add_zero, hothers i (Or.inl (Nat.lt_succ_self i)), Function.update_self]
      | succ j =>
        have hne : i + 1 + j ≠ i := by omega
        have hj := hset j fj (by simpa using hj)
        rw [Function.update_of_ne hne] at hj
        have hidx : i + 1 + j = i + (j + 1) := by omega
        rwa [hidx] at hj

theorem mapFiles_padding {opened : List (Option File × FileInfo)} (d : Folder) {fi : FileInfo}
    (h : (none, fi) ∈ opened) :
    ∃ d' e, MmapFilesystemStorage.mapFiles opened d = (d', .error e) := by
  induction opened generalizing d with
  | nil => cases h
  | cons x rest ih =>
    obtain ⟨g, fj⟩ := x
    cases g with
    | none => exact ⟨d, _, rfl⟩
    | some g =>
      have hrest := (List.mem_cons.1 h).resolve_left (fun heq => by cases heq)
      obtain ⟨d', e, he⟩ := ih (Function.update d g (some (setLen ((d g).getD []) fj.len))) hrest
      exact ⟨d', e, by rw [MmapFilesystemStorage.mapFiles, he]; rfl⟩

/-! Writing to them. -/

section

variable {off n : ℕ} {buf : List UInt8} {g : File}

theorem isSome_write (hf : (d f).isSome) : (d.write f off buf g).isSome = (d g).isSome := by
  unfold Folder.write
  split_ifs
  · rfl
  · by_cases hg : g = f
    · rw [hg, Function.update_self, hf]
      rfl
    · rw [Function.update_of_ne hg]

theorem byte_write_inside (hk : k < buf.length) : (d.write f off buf).byte f (off + k) = buf[k]? := by
  have hne : buf ≠ [] := List.ne_nil_of_length_pos (Nat.zero_lt_of_lt hk)
  rw [Folder.byte, Folder.write, if_neg hne, Function.update_self, Option.bind_some,
    ChunkOps.overwrite_get hk]

theorem byte_write_outside (h : d.byte g k = some x)
    (hout : g = f → k < off ∨ off + buf.length ≤ k) : (d.write f off buf).byte g k = some x := by
  unfold Folder.byte Folder.write at *
  split_ifs
  · exact h
  · obtain ⟨bytes, hg, hb⟩ := Option.bind_eq_some_iff.1 h
    by_cases hgf : g = f
    · subst hgf
      rw [Function.update_self, Option.bind_some, hg, Option.getD_some]
      exact ChunkOps.overwrite_get_outside hb (hout rfl)
    · rw [Function.update_of_ne hgf, hg]
      exact hb

/-- A write inside the file leaves it as long as it was. -/
theorem write_length {bytes : List UInt8} (h : d f = some bytes) (hend : off + buf.length ≤ bytes.length) :
    ∃ bytes', d.write f off buf f = some bytes' ∧ bytes'.length = bytes.length := by
  unfold Folder.write
  split_ifs
  · exact ⟨bytes, h, rfl⟩
  · rw [Function.update_self, h, Option.getD_some]
    exact ⟨_, rfl, ChunkOps.length_overwrite hend⟩

end

/-! The storages of both kinds side by side. -/

/-- The maps are of the files that are open, and as long as these. -/
structure Twin (files : List FileInfo) (e : Folder) (s : FilesystemStorage)
    (m : MmapFilesystemStorage) : Prop where
  opened : m.fs.openedFiles = s.openedFiles
  mapped : ∀ f g, s.openedFiles[f]? = some (some g) → g = f ∧ ∃ fi bytes, files[f]? = some fi ∧
    m.openedMmaps[f]? = some (.file f fi.len) ∧ e f = some bytes ∧ bytes.length = fi.len
  maps : ∀ (f : ℕ) g n, m.openedMmaps[f]? = some (.file g n) → s.openedFiles[f]? = some (some f)

theorem Twin.mono {s : FilesystemStorage} {m : MmapFilesystemStorage} (h : Twin files e s m)
    (hlen : ∀ f fi bytes, files[f]? = some fi → e f = some bytes → bytes.length = fi.len →
      ∃ bytes', e' f = some bytes' ∧ bytes'.length = fi.len) : Twin files e' s m := by
  refine ⟨h.opened, ?_, h.maps⟩
  intro f g hg
  obtain ⟨rfl, fi, bytes, hfi, hmap, he, hl⟩ := h.mapped f g hg
  obtain ⟨bytes', he', hl'⟩ := hlen g fi bytes hfi he hl
  exact ⟨rfl, fi, bytes', hfi, hmap, he', hl'⟩

structure Related (files : List FileInfo) (b : Both) : Prop where
  count : b.fs.storages.length = b.mmap.storages.length
  twin : ∀ (i : ℕ) s m, b.fs.storages[i]? = some s → b.mmap.storages[i]? = some m →
    Twin files b.mmap.folder s m
  present : ∀ f, (b.fs.folder f).isSome = (b.mmap.folder f).isSome
  bytes : ∀ f k, b.written f k = true → (∃ fi, files[f]? = some fi ∧ k < fi.len) ∧
    ∃ x, b.fs.folder.byte f k = some x ∧ b.mmap.folder.byte f k = some x

theorem related_start (files : List FileInfo) (d : Folder) : Related files (Both.start d) := by
  refine ⟨rfl, ?_, fun _ => rfl, by rintro f k ⟨⟩⟩
  intro i s m hs hm
  cases i with
  | zero =>
    obtain rfl := Option.some.inj hs
    obtain rfl := Option.some.inj hm
    exact ⟨rfl, by rintro f g ⟨⟩, by rintro f g n ⟨⟩⟩
  | succ i => cases hs

/-- The storages with one number. -/
theorem Related.pair {b : Both} (h : Related files b) (i : ℕ) :
    (b.fs.storages[i]? = none ∧ b.mmap.storages[i]? = none) ∨
      ∃ s m, b.fs.storages[i]? = some s ∧ b.mmap.storages[i]? = some m ∧
        Twin files b.mmap.folder s m := by
  rcases Nat.lt_or_ge i b.fs.storages.length with hlt | hge
  · have hlt' : i < b.mmap.storages.length := h.count ▸ hlt
    have hs := List.getElem?_eq_getElem hlt
    have hm := List.getElem?_eq_getElem hlt'
    exact Or.inr ⟨_, _, hs, hm, h.twin i _ _ hs hm⟩
  · exact Or.inl ⟨List.getElem?_eq_none hge, List.getElem?_eq_none (h.count ▸ hge)⟩

/-! A write to the maps. -/

/-- In a file that is open the bytes are put, and the write ends well; otherwise no file changes. -/
structure MapWrite (files : List FileInfo) (e : Folder) (s : FilesystemStorage)
    (m : MmapFilesystemStorage) (fileId off : ℕ) (buf : List UInt8)
    (r : MmapFilesystemStorage × Folder × Reply) : Prop where
  opened : s.openedFiles[fileId]? = some (some fileId) → r = (m, e.write fileId off buf, .ok [])
  closed : (∀ g, s.openedFiles[fileId]? ≠ some (some g)) → r.2.1 = e ∧ Twin files e s r.1

section

variable {s : FilesystemStorage} {m : MmapFilesystemStorage} {fileId off : ℕ} {buf : List UInt8}
  {bufs : List UInt8 × List UInt8} {fi : FileInfo}

/-- The map of an open file. -/
theorem Twin.map_eq (h : Twin files e s m) (hopen : s.openedFiles[fileId]? = some (some fileId))
    (hfi : files[fileId]? = some fi) : m.openedMmaps[fileId]? = some (.file fileId fi.len) ∧
      ∃ bytes, e fileId = some bytes ∧ bytes.length = fi.len := by
  obtain ⟨-, fi', bytes, hfi', hmap, he, hl⟩ := h.mapped _ _ hopen
  obtain rfl := Option.some.inj (hfi.symm.trans hfi')
  exact ⟨hmap, bytes, he, hl⟩

/-- Writing to a dummy touches no file. -/
theorem Twin.set_dummy (h : Twin files e s m) (hclosed : ∀ g, s.openedFiles[fileId]? ≠ some (some g))
    (b : UInt8) :
    Twin files e s { m with openedMmaps := m.openedMmaps.set fileId (.dummy b) } := by
  refine ⟨h.opened, ?_, ?_⟩
  · intro f g hg
    obtain ⟨rfl, fi, bytes, hfi, hmap, he, hl⟩ := h.mapped f g hg
    refine ⟨rfl, fi, bytes, hfi, ?_, he, hl⟩
    have hne : fileId ≠ g := by
      rintro rfl
      exact hclosed _ hg
    rw [List.getElem?_set_ne hne]
    exact hmap
  · intro f g n hf
    rcases get_set hf with ⟨-, hd⟩ | ⟨-, hf⟩
    · cases hd
    · exact h.maps f g n hf

theorem Twin.pwriteAll (h : Twin files e s m) (off : ℕ) (buf : List UInt8)
    (hfi : files[fileId]? = some fi) (hle : off + buf.length ≤ fi.len) :
    MapWrite files e s m fileId off buf (m.pwriteAll e fileId off buf) := by
  refine ⟨?_, ?_⟩
  · intro hopen
    have hmap := (h.map_eq hopen hfi).1
    obtain ⟨hlt, hget⟩ := List.getElem?_eq_some_iff.1 hmap
    rw [MmapFilesystemStorage.pwriteAll, hmap]
    simp only [Map.len, if_pos hle, Map.copyFromSlice, ← hget, List.set_getElem_self]
  · intro hclosed
    unfold MmapFilesystemStorage.pwriteAll
    cases hmap : m.openedMmaps[fileId]? with
    | none => exact ⟨rfl, h⟩
    | some map =>
      cases map with
      | file g n => exact absurd (h.maps _ _ _ hmap) (hclosed _)
      | dummy b =>
        dsimp only
        split_ifs
        · exact ⟨rfl, h.set_dummy hclosed _⟩
        · exact ⟨rfl, h⟩

theorem Twin.write (h : Twin files e s m) (off : ℕ) (buf : List UInt8)
    (hfi : files[fileId]? = some fi) (hle : off + buf.length ≤ fi.len) :
    Twin files (e.write fileId off buf) s m := by
  refine h.mono ?_
  intro f fj bytes hfj he hl
  by_cases hf : f = fileId
  · subst hf
    obtain rfl := Option.some.inj (hfi.symm.trans hfj)
    obtain ⟨bytes', he', hl'⟩ := write_length he (hl ▸ hle)
    exact ⟨bytes', he', hl'.trans hl⟩
  · refine ⟨bytes, ?_, hl⟩
    unfold Folder.write
    split_ifs
    · exact he
    · rw [Function.update_of_ne hf]
      exact he

theorem write_append (e : Folder) (f : File) (off : ℕ) (x y : List UInt8) :
    (e.write f off x).write f (off + x.length) y = e.write f off (x ++ y) := by
  unfold Folder.write
  by_cases hx : x = []
  · subst hx
    simp
  by_cases hy : y = []
  · subst hy
    simp
  · rw [if_neg hx, if_neg hy, if_neg (List.append_ne_nil_of_left_ne_nil hx y), Function.update_self,
      Function.update_idem, Option.getD_some, overwrite_append]

theorem Twin.pwriteAllVectored (h : Twin files e s m) (hfi : files[fileId]? = some fi)
    (hle : off + (bufs.1 ++ bufs.2).length ≤ fi.len) :
    MapWrite files e s m fileId off (bufs.1 ++ bufs.2) (m.pwriteAllVectored e fileId off bufs) := by
  rw [List.length_append] at hle
  have h₁ := h.pwriteAll off bufs.1 hfi (by omega)
  unfold MmapFilesystemStorage.pwriteAllVectored
  refine ⟨?_, ?_⟩
  · intro hopen
    have htwin := h.write off bufs.1 hfi (by omega)
    rw [h₁.opened hopen]
    dsimp only
    rw [(htwin.pwriteAll _ bufs.2 hfi (by omega)).opened hopen, write_append]
  · intro hclosed
    obtain ⟨he, htwin⟩ := h₁.closed hclosed
    generalize m.pwriteAll e fileId off bufs.1 = r at he htwin ⊢
    obtain ⟨m₁, e₁, _ | _⟩ := r
    · exact ⟨he, htwin⟩
    · obtain rfl : e₁ = e := he
      exact (htwin.pwriteAll _ bufs.2 hfi (by omega)).closed hclosed

end

section

variable {b : Both} {i fileId off : ℕ} {buf : List UInt8} {fi : FileInfo} {s : FilesystemStorage}
  {m : MmapFilesystemStorage} {failsAfter : Option ℕ}
  {r : MmapFilesystemStorage × Folder × Reply}

/-- The other storages, and the one that has been written to. -/
theorem Related.twin_set (h : Related files b) (hs : b.fs.storages[i]? = some s)
    (hmono : ∀ s m, Twin files b.mmap.folder s m → Twin files e s m) (ht : Twin files e s m) (j : ℕ)
    (s' : FilesystemStorage) (m' : MmapFilesystemStorage) (hs' : b.fs.storages[j]? = some s')
    (hm' : (b.mmap.storages.set i m)[j]? = some m') : Twin files e s' m' := by
  rcases get_set hm' with ⟨rfl, rfl⟩ | ⟨-, hm'⟩
  · obtain rfl := Option.some.inj (hs.symm.trans hs')
    exact ht
  · exact hmono _ _ (h.twin j s' m' hs' hm')

theorem Related.writeClosed (h : Related files b) (hs : b.fs.storages[i]? = some s)
    (hclosed : ∀ g, s.openedFiles[fileId]? ≠ some (some g))
    (hr : MapWrite files b.mmap.folder s m fileId off buf r) :
    s.write failsAfter b.fs.folder fileId off buf = (b.fs.folder, .failed) ∧
      Related files ⟨b.fs, ⟨r.2.1, b.mmap.storages.set i r.1⟩,
        b.writtenBehind i fileId off buf.length .failed⟩ := by
  have hlock : ∀ f, s.lockRead fileId ≠ .ok f := fun f hf =>
    hclosed f (FilesystemStorage.lockRead_eq_ok.1 hf)
  obtain ⟨he, ht⟩ := hr.closed hclosed
  refine ⟨?_, ?_, ?_, ?_, ?_⟩
  · unfold FilesystemStorage.write
    cases hf : s.lockRead fileId with
    | error err => rfl
    | ok f => exact absurd hf (hlock f)
  · exact h.count.trans (List.length_set ..).symm
  · simp only [he]
    exact h.twin_set hs (fun _ _ ht => ht) ht
  · simp only [he]
    exact h.present
  · intro f k hk
    simp only [he]
    refine h.bytes f k ?_
    change b.writtenBehind i fileId off buf.length .failed f k = true at hk
    rw [Both.writtenBehind, hs, if_neg] at hk
    · exact hk
    · rintro ⟨-, -, -, hok⟩
      cases hf : s.lockRead fileId with
      | error err =>
        rw [Option.map_some, hf] at hok
        cases hok
      | ok f => exact hlock f hf

theorem Related.writeOpened (h : Related files b) (hs : b.fs.storages[i]? = some s)
    (hm : b.mmap.storages[i]? = some m) (hfi : files[fileId]? = some fi)
    (hle : off + buf.length ≤ fi.len) (hopen : s.openedFiles[fileId]? = some (some fileId))
    (hr : MapWrite files b.mmap.folder s m fileId off buf r) :
    Related files ⟨⟨(s.write failsAfter b.fs.folder fileId off buf).1, b.fs.storages⟩,
        ⟨r.2.1, b.mmap.storages.set i r.1⟩,
        b.writtenBehind i fileId off buf.length (s.write failsAfter b.fs.folder fileId off buf).2⟩ ∧
      r.2.2 = .ok [] := by
  have htwin := h.twin i s m hs hm
  have hlock := FilesystemStorage.lockRead_eq_ok.2 hopen
  obtain ⟨-, bytes, he, hl⟩ := htwin.map_eq hopen hfi
  have hthere : (b.fs.folder fileId).isSome := by
    rw [h.present, he]
    rfl
  -- a part of the bytes, or all of them if the call succeeds
  obtain ⟨part, hpart, hfs, hall⟩ : ∃ part : List UInt8, part.length ≤ buf.length ∧
      (s.write failsAfter b.fs.folder fileId off buf).1 = b.fs.folder.write fileId off part ∧
      ((s.write failsAfter b.fs.folder fileId off buf).2 ≠ .failed → part = buf) := by
    unfold FilesystemStorage.write
    rw [hlock]
    cases failsAfter with
    | none => exact ⟨buf, le_rfl, rfl, fun _ => rfl⟩
    | some n =>
      exact ⟨buf.take n, by rw [List.length_take]; omega, rfl, fun hne => absurd rfl hne⟩
  rw [hr.opened hopen]
  refine ⟨⟨?_, ?_, ?_, ?_⟩, rfl⟩
  · exact h.count.trans (List.length_set ..).symm
  · exact h.twin_set hs (fun _ _ ht => ht.write off buf hfi hle) (htwin.write off buf hfi hle)
  · intro f
    simp only [hfs]
    rw [isSome_write hthere, isSome_write (by rw [he]; rfl)]
    exact h.present f
  · intro f k hk
    simp only [hfs]
    change b.writtenBehind i fileId off buf.length _ f k = true at hk
    unfold Both.writtenBehind at hk
    by_cases hin : f = fileId ∧ off ≤ k ∧ k < off + buf.length
    · obtain ⟨rfl, hoff, hlt⟩ := hin
      rw [hs, if_pos ⟨rfl, hoff, hlt, by rw [Option.map_some, hlock]; rfl⟩] at hk
      obtain rfl := hall (of_decide_eq_true hk)
      obtain ⟨j, rfl⟩ := Nat.exists_eq_add_of_le hoff
      have hj : j < part.length := by omega
      refine ⟨⟨fi, hfi, by omega⟩, part[j], ?_, ?_⟩
      · rw [byte_write_inside hj, List.getElem?_eq_getElem hj]
      · rw [byte_write_inside hj, List.getElem?_eq_getElem hj]
    · rw [if_neg (fun hc => hin ⟨hc.1, hc.2.1, hc.2.2.1⟩)] at hk
      obtain ⟨hbound, x, hx, hy⟩ := h.bytes f k hk
      have hout (n : ℕ) (hn : n ≤ buf.length) (hf : f = fileId) : k < off ∨ off + n ≤ k := by
        by_contra hno
        exact hin ⟨hf, by omega, by omega⟩
      exact ⟨hbound, x, byte_write_outside hx (hout _ hpart),
        byte_write_outside hy (hout _ le_rfl)⟩

theorem Related.write (h : Related files b) (hs : b.fs.storages[i]? = some s)
    (hm : b.mmap.storages[i]? = some m) (hfi : files[fileId]? = some fi)
    (hle : off + buf.length ≤ fi.len) (hr : MapWrite files b.mmap.folder s m fileId off buf r) :
    Related files ⟨⟨(s.write failsAfter b.fs.folder fileId off buf).1, b.fs.storages⟩,
        ⟨r.2.1, b.mmap.storages.set i r.1⟩,
        b.writtenBehind i fileId off buf.length (s.write failsAfter b.fs.folder fileId off buf).2⟩ ∧
      ((s.write failsAfter b.fs.folder fileId off buf).2 ≠ .failed →
        r.2.2 = (s.write failsAfter b.fs.folder fileId off buf).2) := by
  by_cases hopen : ∃ g, s.openedFiles[fileId]? = some (some g)
  · obtain ⟨g, hg⟩ := hopen
    obtain ⟨rfl, -⟩ := (h.twin i s m hs hm).mapped _ _ hg
    obtain ⟨hrel, hok⟩ := h.writeOpened hs hm hfi hle hg hr
    refine ⟨hrel, ?_⟩
    intro hne
    rw [hok]
    unfold FilesystemStorage.write at hne ⊢
    rw [FilesystemStorage.lockRead_eq_ok.2 hg] at hne ⊢
    cases failsAfter with
    | none => rfl
    | some n => exact absurd rfl hne
  · obtain ⟨hw, hrel⟩ := h.writeClosed hs (not_exists.1 hopen) hr
    rw [hw]
    exact ⟨hrel, fun hne => absurd rfl hne⟩

end

/-! `init`, `take` and reads. -/

section

variable {allowOverwrite : Bool} {errors : OpenErrors} {s : FilesystemStorage}
  {m : MmapFilesystemStorage} {b : Both} {i : ℕ}

/-- Either nothing is opened or every file is. -/
theorem FilesystemStorage.init_cases (allowOverwrite : Bool) (errors : OpenErrors)
    (fs : List FileInfo) (s : FilesystemStorage) (d : Folder) :
    ((initFiles allowOverwrite errors 0 fs d).2 = none ∧
        s.init allowOverwrite errors fs d =
          (s, (initFiles allowOverwrite errors 0 fs d).1, .error .os)) ∨
      ∃ s' : FilesystemStorage,
        (initFiles allowOverwrite errors 0 fs d).2 = some s'.openedFiles ∧
        s.init allowOverwrite errors fs d =
          (s', (initFiles allowOverwrite errors 0 fs d).1, .ok ()) := by
  unfold FilesystemStorage.init
  split
  · rename_i d' h
    rw [h]
    exact Or.inl ⟨rfl, rfl⟩
  · rename_i d' opened h
    exact Or.inr ⟨⟨opened, initFiles_distinct h⟩, congrArg Prod.snd h,
      Prod.ext rfl (Prod.ext (congrArg Prod.fst h).symm rfl)⟩

/-- The files of a layout without padding, opened and mapped. -/
theorem init_opened {opened : List (Option File)} (hpad : ∀ fi ∈ files, fi.padding = false)
    (h : (initFiles allowOverwrite errors 0 files d).2 = some opened) :
    opened = (files.zipIdx 0).map fun x => some x.2 := by
  rw [initFiles_get (Prod.ext rfl h)]
  refine List.map_congr_left ?_
  intro x hx
  rw [if_neg]
  rw [hpad x.1 (List.fst_mem_of_mem_zipIdx hx)]
  exact Bool.false_ne_true

theorem init_get {α : Type} {x : FileInfo × ℕ → α} {y : α}
    (h : ((files.zipIdx 0).map x)[k]? = some y) :
    ∃ fi, files[k]? = some fi ∧ y = x (fi, k) := by
  rw [List.getElem?_map, List.getElem?_zipIdx] at h
  obtain ⟨z, hz, rfl⟩ := Option.map_eq_some_iff.1 h
  obtain ⟨fi, hfi, rfl⟩ := Option.map_eq_some_iff.1 hz
  exact ⟨fi, hfi, by rw [Nat.zero_add]⟩

theorem init_map {α : Type} (x : FileInfo × ℕ → α) {fi : FileInfo} (h : files[k]? = some fi) :
    ((files.zipIdx 0).map x)[k]? = some (x (fi, k)) := by
  rw [List.getElem?_map, List.getElem?_zipIdx, h, Option.map_some, Option.map_some, Nat.zero_add]

/-- `init` of both, on a layout without padding: both fail, or both have opened every file, and the
maps are set up. -/
theorem inits_parallel (allowOverwrite : Bool) (errors : OpenErrors)
    (hpad : ∀ fi ∈ files, fi.padding = false) (h : ∀ f, (d f).isSome = (e f).isSome)
    (hopened : m.fs.openedFiles = s.openedFiles) :
    (∃ m' : MmapFilesystemStorage, m'.fs.openedFiles = s.openedFiles ∧
        m'.openedMmaps = m.openedMmaps ∧
        s.init allowOverwrite errors files d =
          (s, (initFiles allowOverwrite errors 0 files d).1, .error .os) ∧
        m.init allowOverwrite errors files e =
          (m', (initFiles allowOverwrite errors 0 files e).1, .error .os)) ∨
      ∃ (s' : FilesystemStorage) (m' : MmapFilesystemStorage) (e' : Folder),
        s.init allowOverwrite errors files d =
          (s', (initFiles allowOverwrite errors 0 files d).1, .ok ()) ∧
        m.init allowOverwrite errors files e = (m', e', .ok ()) ∧
        (initFiles allowOverwrite errors 0 files d).2 = some s'.openedFiles ∧
        s'.openedFiles = ((files.zipIdx 0).map fun x => some x.2) ∧
        m'.fs.openedFiles = s'.openedFiles ∧
        m'.openedMmaps = ((files.zipIdx 0).map fun x => .file x.2 x.1.len) ∧
        (∀ f, files.length ≤ f → e' f = (initFiles allowOverwrite errors 0 files e).1 f) ∧
        ∀ f fi, files[f]? = some fi → e' f = some
          (setLen (((initFiles allowOverwrite errors 0 files e).1 f).getD []) fi.len) := by
  obtain ⟨hres, -⟩ := initFiles_parallel allowOverwrite errors 0 files h
  unfold MmapFilesystemStorage.init
  rcases s.init_cases allowOverwrite errors files d with ⟨hd, hs⟩ | ⟨s', hd, hs⟩
  · rcases m.fs.init_cases allowOverwrite errors files e with ⟨-, hm⟩ | ⟨m', he, -⟩
    · refine Or.inl ⟨{ m with fs := m.fs }, hopened, rfl, hs, ?_⟩
      rw [hm]
    · rw [hres, he] at hd
      cases hd
  · rcases m.fs.init_cases allowOverwrite errors files e with ⟨he, -⟩ | ⟨m', he, hm⟩
    · rw [hres, he] at hd
      cases hd
    · have hs' := init_opened hpad hd
      have hm' := init_opened hpad he
      obtain ⟨e', hmap, hothers, hset⟩ := mapFiles_ok 0 files
        (initFiles allowOverwrite errors 0 files e).1
      refine Or.inr ⟨s', ⟨(files.zipIdx 0).map fun x => .file x.2 x.1.len, m'⟩, e', hs, ?_, hd, hs',
        hm'.trans hs'.symm, rfl, fun f hf => hothers f (Or.inr (by omega)), ?_⟩
      · rw [hm]
        dsimp only
        rw [hm', hmap]
      · intro f fi hfi
        have := hset f fi hfi
        rwa [Nat.zero_add] at this

/-- The storages behind a call that replaces the ones with number `i`. -/
theorem Related.twin_sets {s' : FilesystemStorage} {m' : MmapFilesystemStorage} {e' : Folder}
    (h : Related files b) (hmono : ∀ s m, Twin files b.mmap.folder s m → Twin files e' s m)
    (htwin : Twin files e' s' m') (j : ℕ) (hs : (b.fs.storages.set i s')[j]? = some s)
    (hm : (b.mmap.storages.set i m')[j]? = some m) : Twin files e' s m := by
  rcases get_set hs with ⟨hj, rfl⟩ | ⟨hj, hs⟩
  · rcases get_set hm with ⟨-, rfl⟩ | ⟨hne, -⟩
    · exact htwin
    · exact absurd hj hne
  · rcases get_set hm with ⟨hj', -⟩ | ⟨-, hm⟩
    · exact absurd hj' hj
    · exact hmono _ _ (h.twin j s m hs hm)

/-- The storages with their new numbers, and the folders after `init`. -/
theorem Related.inited {s' : FilesystemStorage} {m' : MmapFilesystemStorage} {d' e' : Folder}
    (h : Related files b) (hsome : ∀ f, (d' f).isSome = (e' f).isSome)
    (hmono : ∀ s m, Twin files b.mmap.folder s m → Twin files e' s m)
    (htwin : Twin files e' s' m')
    (hfs : ∀ f k x, b.fs.folder.byte f k = some x → d'.byte f k = some x)
    (hmmap : ∀ f k x fi, files[f]? = some fi → k < fi.len → b.mmap.folder.byte f k = some x →
      e'.byte f k = some x) :
    Related files ⟨⟨d', b.fs.storages.set i s'⟩, ⟨e', b.mmap.storages.set i m'⟩, b.written⟩ := by
  refine ⟨?_, ?_, hsome, ?_⟩
  · rw [List.length_set, List.length_set]
    exact h.count
  · exact fun j s₁ m₁ hs₁ hm₁ => h.twin_sets hmono htwin j hs₁ hm₁
  · intro f k hk
    obtain ⟨⟨fi, hfi, hlt⟩, x, hx, hy⟩ := h.bytes f k hk
    exact ⟨⟨fi, hfi, hlt⟩, x, hfs f k x hx, hmmap f k x fi hfi hlt hy⟩

theorem initFiles_byte {x : UInt8} (h : d.byte f k = some x) :
    (initFiles allowOverwrite errors 0 files d).1.byte f k = some x := by
  obtain ⟨bytes, hd, hk⟩ := Option.bind_eq_some_iff.1 h
  rw [Folder.byte, initFiles_keeps hd]
  exact hk

theorem Related.init (h : Related files b) (allowOverwrite : Bool) (errors : OpenErrors)
    (hpad : ∀ fi ∈ files, fi.padding = false) (hs : b.fs.storages[i]? = some s)
    (hm : b.mmap.storages[i]? = some m) :
    Related files ⟨⟨(s.init allowOverwrite errors files b.fs.folder).2.1,
          b.fs.storages.set i (s.init allowOverwrite errors files b.fs.folder).1⟩,
        ⟨(m.init allowOverwrite errors files b.mmap.folder).2.1,
          b.mmap.storages.set i (m.init allowOverwrite errors files b.mmap.folder).1⟩,
        b.written⟩ ∧
      (s.init allowOverwrite errors files b.fs.folder).2.2.isOk =
        (m.init allowOverwrite errors files b.mmap.folder).2.2.isOk := by
  have htwin := h.twin i s m hs hm
  have hthere := (initFiles_parallel allowOverwrite errors 0 files h.present).2
  rcases inits_parallel allowOverwrite errors hpad h.present htwin.opened with
    ⟨m', hfs, hmaps, hs', hm'⟩ |
    ⟨s', m', e', hs', hm', hd, hopen, hfs, hmaps, hout, hset⟩
  · rw [hs', hm']
    have hmono : ∀ s m, Twin files b.mmap.folder s m →
        Twin files (initFiles allowOverwrite errors 0 files b.mmap.folder).1 s m :=
      fun s m ht => ht.mono fun f fi bytes _ he hl => ⟨bytes, initFiles_keeps he, hl⟩
    refine ⟨h.inited hthere hmono (hmono _ _ ⟨hfs, ?_, ?_⟩) (fun f k x hx => initFiles_byte hx)
      (fun f k x _ _ _ hx => initFiles_byte hx), rfl⟩
    · rw [hmaps]
      exact htwin.mapped
    · rw [hmaps]
      exact htwin.maps
  · rw [hs', hm']
    refine ⟨h.inited ?_ ?_ ⟨hfs, ?_, ?_⟩ (fun f k x hx => initFiles_byte hx) ?_, rfl⟩
    · intro f
      dsimp only
      rcases Nat.lt_or_ge f files.length with hlt | hge
      · have hfi := List.getElem?_eq_getElem hlt
        have hmem : some f ∈ s'.openedFiles := by
          rw [hopen]
          exact List.mem_of_getElem? (init_map (fun x => some x.2) hfi)
        rw [hset f _ hfi, initFiles_there (Prod.ext rfl hd) hmem]
        rfl
      · rw [hout f hge]
        exact hthere f
    · intro s m ht
      refine ht.mono ?_
      intro f fi bytes hfi _ _
      exact ⟨_, hset f fi hfi, setLen_length _ _⟩
    · intro f g hg
      rw [hopen] at hg
      obtain ⟨fi, hfi, heq⟩ := init_get hg
      obtain rfl := Option.some.inj heq
      rw [hmaps]
      exact ⟨rfl, fi, _, hfi, init_map (fun x => Map.file x.2 x.1.len) hfi, hset _ _ hfi,
        setLen_length _ _⟩
    · intro f g n hf
      rw [hmaps] at hf
      obtain ⟨fi, hfi, heq⟩ := init_get hf
      rw [hopen]
      exact init_map (fun x => some x.2) hfi
    · intro f k x fi hfi hlt hx
      obtain ⟨bytes, hd, hk⟩ := Option.bind_eq_some_iff.1 hx
      dsimp only
      rw [Folder.byte, hset f fi hfi, initFiles_keeps hd, Option.bind_some, Option.getD_some]
      exact setLen_get hlt hk

theorem Twin.taken (h : Twin files d s m) (e : Folder) : Twin files e s.taken m.taken := by
  refine ⟨congrArg (List.map fun _ => none) h.opened, ?_, ?_⟩
  · intro f g hg
    obtain ⟨_, -, hx⟩ := Option.map_eq_some_iff.1 (List.getElem?_map .. ▸ hg)
    cases hx
  · intro f g n hf
    obtain ⟨_, -, hx⟩ := Option.map_eq_some_iff.1 (List.getElem?_map .. ▸ hf)
    cases hx

theorem Related.take (h : Related files b) (hs : b.fs.storages[i]? = some s)
    (hm : b.mmap.storages[i]? = some m) :
    Related files ⟨⟨b.fs.folder, b.fs.storages.set i s.taken ++ [s]⟩,
      ⟨b.mmap.folder, b.mmap.storages.set i m.taken ++ [m]⟩, b.written⟩ := by
  have htwin := h.twin i s m hs hm
  refine ⟨?_, ?_, h.present, h.bytes⟩
  · simp only [List.length_append, List.length_set, List.length_singleton, h.count]
  · intro j s₁ m₁ hs₁ hm₁
    have hlen : (b.fs.storages.set i s.taken).length = (b.mmap.storages.set i m.taken).length := by
      rw [List.length_set, List.length_set, h.count]
    rcases get_append hs₁ with hs₁ | ⟨hj, rfl⟩
    · rcases get_append hm₁ with hm₁ | ⟨hj, -⟩
      · exact h.twin_sets (fun _ _ ht => ht) (htwin.taken b.mmap.folder) j hs₁ hm₁
      · have hlt := (List.getElem?_eq_some_iff.1 hs₁).1
        omega
    · rcases get_append hm₁ with hm₁ | ⟨-, rfl⟩
      · have hlt := (List.getElem?_eq_some_iff.1 hm₁).1
        omega
      · exact htwin

/-- What has been written is read alike. -/
theorem Twin.read {off len : ℕ} {fails : Bool} {fileId : ℕ} {fi : FileInfo} (h : Twin files e s m)
    (hfi : files[fileId]? = some fi) (hle : off + len ≤ fi.len)
    (hbytes : ∀ k, off ≤ k → k < off + len →
      ∃ x, d.byte fileId k = some x ∧ e.byte fileId k = some x)
    (hok : s.read fails d fileId off len ≠ .failed) :
    m.preadExact e fileId off len = s.read fails d fileId off len := by
  unfold FilesystemStorage.read at hok ⊢
  cases hlock : s.lockRead fileId with
  | error err =>
    rw [hlock] at hok
    exact absurd rfl hok
  | ok f =>
    rw [hlock] at hok
    dsimp only at hok ⊢
    have hopen := FilesystemStorage.lockRead_eq_ok.1 hlock
    obtain ⟨rfl, -⟩ := h.mapped _ _ hopen
    obtain ⟨hmap, bytes, he, hl⟩ := h.map_eq hopen hfi
    have hle' : off + len ≤ (Map.file f fi.len).len := hle
    rw [MmapFilesystemStorage.preadExact, hmap]
    dsimp only
    rw [if_pos hle', Map.bytes, he, Option.getD_some, List.take_of_length_le hl.le]
    by_cases hfails : fails = true
    · rw [if_pos hfails] at hok
      exact absurd rfl hok
    rw [if_neg hfails] at hok ⊢
    by_cases hlen : len = 0
    · rw [if_pos hlen, hlen, List.take_zero]
    rw [if_neg hlen] at hok ⊢
    by_cases hend : off + len ≤ ((d f).getD []).length
    · rw [if_pos hend]
      refine congrArg Reply.ok (List.ext_getElem? fun k => ?_)
      rcases Nat.lt_or_ge k len with hk | hk
      · obtain ⟨x, hx, hy⟩ := hbytes (off + k) (by omega) (by omega)
        obtain ⟨bytes₁, hd, hx⟩ := Option.bind_eq_some_iff.1 hx
        rw [Folder.byte, he, Option.bind_some] at hy
        rw [List.getElem?_take_of_lt hk, List.getElem?_take_of_lt hk, List.getElem?_drop,
          List.getElem?_drop, hd, Option.getD_some, hx, hy]
      · rw [List.getElem?_take_eq_none hk, List.getElem?_take_eq_none hk]
    · rw [if_neg hend] at hok
      exact absurd rfl hok

/-! Runs. -/

theorem Related.writeNone {fileId off len : ℕ} (h : Related files b)
    (hs : b.fs.storages[i]? = none) :
    Related files ⟨b.fs, b.mmap, b.writtenBehind i fileId off len .failed⟩ := by
  refine ⟨h.count, h.twin, h.present, ?_⟩
  intro f k hk
  change b.writtenBehind i fileId off len .failed f k = true at hk
  rw [Both.writtenBehind, hs, if_neg (by simp)] at hk
  exact h.bytes f k hk

/-- One call of both. -/
theorem Related.step {op : StorageOp} {b' : Both} (hpad : ∀ fi ∈ files, fi.padding = false)
    (h : Related files b) (hop : b.Allowed files op) (hstep : b.step files op = some b') :
    Related files b' ∧ b.Agree files op := by
  obtain rfl := Option.some.inj hstep
  unfold Both.Agree
  cases op with
  | init i allowOverwrite errors =>
    dsimp only [World.fsCall, World.mmapCall]
    rcases h.pair i with ⟨hs, hm⟩ | ⟨s, m, hs, hm, -⟩
    · rw [hs, hm]
      exact ⟨h, fun hne => absurd rfl hne⟩
    · rw [hs, hm]
      dsimp only
      obtain ⟨hrel, hok⟩ := h.init allowOverwrite errors hpad hs hm
      generalize s.init allowOverwrite errors files b.fs.folder = x at hrel hok ⊢
      generalize m.init allowOverwrite errors files b.mmap.folder = y at hrel hok ⊢
      obtain ⟨s', d', _ | _⟩ := x
      · obtain ⟨m', e', _ | _⟩ := y
        · exact ⟨hrel, fun hne => absurd rfl hne⟩
        · cases hok
      · obtain ⟨m', e', _ | _⟩ := y
        · cases hok
        · exact ⟨hrel, fun _ => rfl⟩
  | pwriteAll i fileId off buf failsAfter =>
    obtain ⟨fi, hfi, hle⟩ := hop
    dsimp only [World.fsCall, World.mmapCall]
    rcases h.pair i with ⟨hs, hm⟩ | ⟨s, m, hs, hm, ht⟩
    · rw [hs, hm]
      exact ⟨h.writeNone hs, fun hne => absurd rfl hne⟩
    · rw [hs, hm]
      exact h.write hs hm hfi hle (ht.pwriteAll off buf hfi hle)
  | pwriteAllVectored i fileId off bufs failsAfter =>
    obtain ⟨fi, hfi, hle⟩ := hop
    dsimp only [World.fsCall, World.mmapCall]
    rcases h.pair i with ⟨hs, hm⟩ | ⟨s, m, hs, hm, ht⟩
    · rw [hs, hm]
      exact ⟨h.writeNone hs, fun hne => absurd rfl hne⟩
    · rw [hs, hm]
      exact h.write hs hm hfi hle (ht.pwriteAllVectored hfi hle)
  | preadExact i fileId off len fails =>
    obtain ⟨⟨fi, hfi, hle⟩, hwritten⟩ := hop
    dsimp only [World.fsCall, World.mmapCall]
    rcases h.pair i with ⟨hs, hm⟩ | ⟨s, m, hs, hm, ht⟩
    · rw [hs, hm]
      exact ⟨h, fun hne => absurd rfl hne⟩
    · rw [hs, hm]
      exact ⟨h, ht.read hfi hle fun k hk hlt => (h.bytes fileId k (hwritten k hk hlt)).2⟩
  | take i =>
    dsimp only [World.fsCall, World.mmapCall]
    rcases h.pair i with ⟨hs, hm⟩ | ⟨s, m, hs, hm, -⟩
    · rw [hs, hm]
      exact ⟨h, fun hne => absurd rfl hne⟩
    · rw [hs, hm]
      exact ⟨h.take hs hm, fun _ => rfl⟩

theorem related_run {ops : List StorageOp} (hpad : ∀ fi ∈ files, fi.padding = false)
    (h : Run (Both.step files) (Both.Allowed files) (Both.start d) ops b) : Related files b :=
  h.inv (Related files) (related_start files d)
    fun _ _ _ hrel hop hstep => (hrel.step hpad hop hstep).1

/-! A padding file. -/

def noErrors : OpenErrors := ⟨fun _ => false, fun _ => false, fun _ => false⟩

theorem initFiles_noErrors (i : ℕ) (fs : List FileInfo) (d : Folder) :
    ∃ opened, (initFiles true noErrors i fs d).2 = some opened := by
  induction fs generalizing i d with
  | nil => exact ⟨[], rfl⟩
  | cons fi fs ih =>
    rw [initFiles]
    by_cases hp : fi.padding = true
    · rw [if_pos hp]
      obtain ⟨opened, ho⟩ := ih (i + 1) d
      exact ⟨none :: opened, congrArg (Option.map (none :: ·)) ho⟩
    · rw [if_neg hp, if_neg (by exact Bool.false_ne_true), if_pos rfl,
        if_neg (by exact Bool.false_ne_true)]
      obtain ⟨opened, ho⟩ := ih (i + 1) (Function.update d i (some ((d i).getD [])))
      exact ⟨some i :: opened, congrArg (Option.map (some i :: ·)) ho⟩

/-- The dummy of the padding file cannot be locked for writing. -/
theorem padding_disagrees {fi : FileInfo} (hfi : fi ∈ files) (hpad : fi.padding = true)
    (d : Folder) : ¬(Both.start d).Agree files (.init 0 true noErrors) := by
  obtain ⟨opened, ho⟩ := initFiles_noErrors 0 files d
  have hget := initFiles_get (Prod.ext rfl ho)
  obtain ⟨k, hk⟩ := List.getElem?_of_mem hfi
  have hmem : (none, fi) ∈ opened.zip files := by
    refine List.mem_of_getElem? (i := k) (List.getElem?_zip_eq_some.2 ⟨?_, hk⟩)
    rw [hget, init_map _ hk, if_pos hpad]
  obtain ⟨e, err, hmap⟩ := mapFiles_padding (initFiles true noErrors 0 files d).1 hmem
  intro hagree
  unfold Both.Agree World.fsCall World.mmapCall Both.start at hagree
  dsimp only [List.getElem?_cons_zero] at hagree
  rcases FilesystemStorage.create.init_cases true noErrors files d with ⟨hd, -⟩ | ⟨s, hd, hs⟩
  · rw [ho] at hd
    cases hd
  · obtain rfl := Option.some.inj (ho.symm.trans hd)
    have hm : MmapFilesystemStorage.create.init true noErrors files d =
        (⟨[], s⟩, e, .error err) := by
      unfold MmapFilesystemStorage.init MmapFilesystemStorage.create
      dsimp only
      rw [hs]
      dsimp only
      rw [hmap]
    rw [hs, hm] at hagree
    exact absurd (hagree nofun) nofun

end

/-- Three bytes, then a padding file that fills the piece of four. -/
def paddedFiles : List FileInfo := [⟨0, (0, 1), false, 3⟩, ⟨3, (0, 1), true, 1⟩]

/-- A storage that has been taken still reads what was written before. -/
example :
    let b := ([.init 0 true noErrors, .pwriteAll 0 0 1 [5, 6] none, .take 0] : List StorageOp).foldl
      (fun b op => (b.step [⟨0, (0, 1), false, 3⟩] op).getD b) (Both.start fun _ => none)
    (b.fs.fsCall [⟨0, (0, 1), false, 3⟩] (.preadExact 1 0 1 2 false)).2 = .ok [5, 6] ∧
      (b.mmap.mmapCall [⟨0, (0, 1), false, 3⟩] (.preadExact 1 0 1 2 false)).2 = .ok [5, 6] := by
  decide +kernel

end Filesystem

end Rtbit
