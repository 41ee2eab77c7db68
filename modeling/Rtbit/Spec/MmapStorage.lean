import Rtbit.Spec.Filesystem

/-! `FilesystemStorage` with its `init` and `take`, and `MmapFilesystemStorage` (`mmap.rs`) on top of
it. A file of the torrent is known by its number, and so are its bytes on disk. Here a call of the
system that succeeds has transferred everything; setting the length of a file and mapping it do
succeed, and a map shows the bytes of the file. -/

namespace Rtbit

namespace Filesystem

/-- The files that are there. -/
abbrev Folder := File → Option (List UInt8)

/-- Puts `buf` at `offset` of a file that is there. -/
def Folder.write (d : Folder) (f : File) (offset : ℕ) (buf : List UInt8) : Folder :=
  if buf = [] then d else Function.update d f (some (Storage.overwrite ((d f).getD []) offset buf))

/-- The calls of the system that fail in `init`, by the number of the file. -/
structure OpenErrors where
  createDirAll : ℕ → Bool
  openFile : ℕ → Bool
  /-- The second opening of a file that has just been created. -/
  reopen : ℕ → Bool

/-- The loop of `init`, from the file with number `i` on. -/
def initFiles (allowOverwrite : Bool) (errors : OpenErrors) :
    ℕ → List FileInfo → Folder → Folder × Option (List (Option File))
  | _, [], d => (d, some [])
  | i, fi :: fis, d =>
    if fi.padding then
      let (d, files) := initFiles allowOverwrite errors (i + 1) fis d
      (d, files.map (none :: ·))
    else if errors.createDirAll i then (d, none)
    else if allowOverwrite then
      if errors.openFile i then (d, none)
      else
        let (d, files) := initFiles allowOverwrite errors (i + 1) fis
          (Function.update d i (some ((d i).getD [])))
        (d, files.map (some i :: ·))
    else if errors.openFile i || (d i).isSome then (d, none)
    else
      let d := Function.update d i (some [])
      if errors.reopen i then (d, none)
      else
        let (d, files) := initFiles allowOverwrite errors (i + 1) fis d
        (d, files.map (some i :: ·))

/-- Each file is opened under its own number. -/
theorem initFiles_get {allowOverwrite : Bool} {errors : OpenErrors} {i : ℕ} {fs : List FileInfo}
    {d d' : Folder} {files : List (Option File)}
    (h : initFiles allowOverwrite errors i fs d = (d', some files)) :
    files = (fs.zipIdx i).map fun x => if x.1.padding then none else some x.2 := by
  induction fs generalizing i d files with
  | nil =>
    cases h
    rfl
  | cons fi fs ih =>
    have hrest {d₁ : Folder} {head : Option File}
        (h : ((initFiles allowOverwrite errors (i + 1) fs d₁).1,
          (initFiles allowOverwrite errors (i + 1) fs d₁).2.map (head :: ·)) = (d', some files)) :
        files = head :: (fs.zipIdx (i + 1)).map fun x => if x.1.padding then none else some x.2 := by
      obtain ⟨hd, hfiles⟩ := Prod.mk.inj h
      obtain ⟨rest, hr, rfl⟩ := Option.map_eq_some_iff.1 hfiles
      rw [ih (Prod.ext hd hr)]
    rw [initFiles] at h
    rw [List.zipIdx_cons, List.map_cons]
    by_cases hp : fi.padding = true
    · rw [if_pos hp] at h
      rw [hrest h, if_pos hp]
    · rw [if_neg hp] at h
      rw [if_neg hp]
      dsimp only at h
      split_ifs at h
      · cases h
      · cases h
      · exact hrest h
      · cases h
      · cases h
      · exact hrest h

theorem initFiles_distinct {allowOverwrite : Bool} {errors : OpenErrors} {fs : List FileInfo}
    {d d' : Folder} {files : List (Option File)}
    (h : initFiles allowOverwrite errors 0 fs d = (d', some files)) (i j : ℕ) (f : File)
    (hi : files[i]? = some (some f)) (hj : files[j]? = some (some f)) : i = j := by
  have hget {k : ℕ} (hk : files[k]? = some (some f)) : f = k := by
    rw [initFiles_get h, List.getElem?_map] at hk
    obtain ⟨x, hx, hxf⟩ := Option.map_eq_some_iff.1 hk
    rw [List.getElem?_zipIdx] at hx
    obtain ⟨fi, -, rfl⟩ := Option.map_eq_some_iff.1 hx
    split_ifs at hxf
    obtain rfl := Option.some.inj hxf
    exact Nat.zero_add k
  rw [← hget hi, ← hget hj]

/-- What one call sees of the result: nothing, or the bytes that it has asked for. -/
inductive Reply where
  | failed
  | ok (bytes : List UInt8)
  deriving DecidableEq, Repr

namespace FilesystemStorage

/-- `FilesystemStorageFactory::create`. -/
def create : FilesystemStorage := ⟨[], by
  intro i j f hi
  cases hi⟩

def init (allowOverwrite : Bool) (errors : OpenErrors) (fs : List FileInfo) (s : FilesystemStorage)
    (d : Folder) : FilesystemStorage × Folder × Except IoError Unit :=
  match h : initFiles allowOverwrite errors 0 fs d with
  | (d, none) => (s, d, .error .os)
  | (d, some files) => (⟨files, initFiles_distinct h⟩, d, .ok ())

/-- What `take` leaves; it returns what was there. -/
def taken (s : FilesystemStorage) : FilesystemStorage := ⟨s.openedFiles.map fun _ => none, by
  intro i j f hi
  rw [List.getElem?_map] at hi
  obtain ⟨x, -, hx⟩ := Option.map_eq_some_iff.1 hi
  cases hx⟩

/-- `pwrite_all` or `pwrite_all_vectored` of the bytes `buf`. If the system fails, `failsAfter` is
how much it has written before. -/
def write (failsAfter : Option ℕ) (s : FilesystemStorage) (d : Folder) (fileId offset : ℕ)
    (buf : List UInt8) : Folder × Reply :=
  match s.lockRead fileId with
  | .error _ => (d, .failed)
  | .ok f =>
    match failsAfter with
    | some n => (d.write f offset (buf.take n), .failed)
    | none => (d.write f offset buf, .ok [])

def read (fails : Bool) (s : FilesystemStorage) (d : Folder) (fileId offset len : ℕ) : Reply :=
  match s.lockRead fileId with
  | .error _ => .failed
  | .ok f =>
    if fails then .failed
    else if len = 0 then .ok []
    else if offset + len ≤ ((d f).getD []).length then
      .ok ((((d f).getD []).drop offset).take len)
    else .failed

end FilesystemStorage

/-- A map of a file with the length that it had, or the dummy of one byte. -/
inductive Map where
  | file (f : File) (len : ℕ)
  | dummy (byte : UInt8)
  deriving DecidableEq, Repr

namespace Map

def len : Map → ℕ
  | .file _ len => len
  | .dummy _ => 1

def bytes (d : Folder) : Map → List UInt8
  | .file f len => ((d f).getD []).take len
  | .dummy byte => [byte]

/-- `copy_from_slice` into the range at `offset`, which is in the map. -/
def copyFromSlice (d : Folder) (offset : ℕ) (buf : List UInt8) : Map → Folder × Map
  | .file f len => (d.write f offset buf, .file f len)
  | .dummy byte => (d, .dummy ((Storage.overwrite [byte] offset buf).headD byte))

end Map

/-- The bytes after `set_len`. -/
def setLen (bytes : List UInt8) (n : ℕ) : List UInt8 :=
  bytes.take n ++ List.replicate (n - bytes.length) 0

structure MmapFilesystemStorage where
  openedMmaps : List Map
  fs : FilesystemStorage

namespace MmapFilesystemStorage

def create : MmapFilesystemStorage := ⟨[], FilesystemStorage.create⟩

/-- The loop of `init` over the opened files, each with its `FileInfo`. -/
def mapFiles : List (Option File × FileInfo) → Folder → Folder × Except IoError (List Map)
  | [], d => (d, .ok [])
  | (none, _) :: _, d => (d, .error .fileIsNone)
  | (some f, fi) :: rest, d =>
    let (d, maps) := mapFiles rest (Function.update d f (some (setLen ((d f).getD []) fi.len)))
    (d, maps.map (.file f fi.len :: ·))

def init (allowOverwrite : Bool) (errors : OpenErrors) (fs : List FileInfo)
    (s : MmapFilesystemStorage) (d : Folder) : MmapFilesystemStorage × Folder × Except IoError Unit :=
  match s.fs.init allowOverwrite errors fs d with
  | (fs', d, .error e) => ({ s with fs := fs' }, d, .error e)
  | (fs', d, .ok ()) =>
    match mapFiles (fs'.openedFiles.zip fs) d with
    | (d, .error e) => ({ s with fs := fs' }, d, .error e)
    | (d, .ok maps) => (⟨maps, fs'⟩, d, .ok ())

/-- What `take` leaves; it returns what was there. -/
def taken (s : MmapFilesystemStorage) : MmapFilesystemStorage :=
  ⟨s.openedMmaps.map fun _ => .dummy 0, s.fs.taken⟩

def pwriteAll (s : MmapFilesystemStorage) (d : Folder) (fileId offset : ℕ) (buf : List UInt8) :
    MmapFilesystemStorage × Folder × Reply :=
  match s.openedMmaps[fileId]? with
  | none => (s, d, .failed)
  | some map =>
    if offset + buf.length ≤ map.len then
      let (d, map) := map.copyFromSlice d offset buf
      ({ s with openedMmaps := s.openedMmaps.set fileId map }, d, .ok [])
    else (s, d, .failed)

/-- The default of the trait. -/
def pwriteAllVectored (s : MmapFilesystemStorage) (d : Folder) (fileId offset : ℕ)
    (bufs : List UInt8 × List UInt8) : MmapFilesystemStorage × Folder × Reply :=
  match s.pwriteAll d fileId offset bufs.1 with
  | (s, d, .failed) => (s, d, .failed)
  | (s, d, .ok _) => s.pwriteAll d fileId (offset + bufs.1.length) bufs.2

def preadExact (s : MmapFilesystemStorage) (d : Folder) (fileId offset len : ℕ) : Reply :=
  match s.openedMmaps[fileId]? with
  | none => .failed
  | some map =>
    if offset + len ≤ map.len then .ok (((map.bytes d).drop offset).take len) else .failed

end MmapFilesystemStorage

end Filesystem

end Rtbit
