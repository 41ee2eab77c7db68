import Mathlib.Data.List.DropRight
import Mathlib.Tactic

/-! `remove_files_and_dirs` (`session/helpers.rs`): the calls that it makes of the storage. -/

namespace Rtbit

/-- A relative `Path`: its text cut at the separators; `[]` is the empty text. -/
structure RelPath where
  segments : List String
  relative : segments.head? ≠ some ""
  noSeparator : ∀ s ∈ segments, '/' ∉ s.toList
  deriving DecidableEq, Repr

namespace RelPath

/-- What `Path::components` passes over behind the first component. -/
def skipped (s : String) : Bool := s = "" || s = "."

def components (p : RelPath) : List String :=
  match p.segments with
  | [] => []
  | first :: rest => first :: rest.filter fun s => !skipped s

/-- `as_os_str().len()`. -/
def len (p : RelPath) : ℕ :=
  (p.segments.map String.utf8ByteSize).sum + (p.segments.length - 1)

/-- `parent` takes the last component off, and what it passes over at the end. -/
def parentSegments : List String → List String
  | [] => []
  | first :: rest =>
    let body := rest.rdropWhile skipped
    if body = [] then [] else first :: body.dropLast.rdropWhile skipped

theorem parentSegments_isPrefix (segments : List String) : parentSegments segments <+: segments := by
  cases segments with
  | nil => exact List.prefix_refl _
  | cons first rest =>
    simp only [parentSegments]
    split_ifs
    · exact List.nil_prefix
    · exact (List.prefix_cons_inj first).2
        ((List.rdropWhile_prefix _ _).trans ((List.dropLast_prefix _).trans (List.rdropWhile_prefix _ _)))

def parent (p : RelPath) : Option RelPath :=
  if p.segments = [] then none
  else
    some
      { segments := parentSegments p.segments
        relative := fun h => by
          obtain ⟨rest, hrest⟩ := parentSegments_isPrefix p.segments
          refine p.relative ?_
          rw [← hrest, List.head?_append, h]
          rfl
        noSeparator := fun s hs => p.noSeparator s ((parentSegments_isPrefix _).subset hs) }

end RelPath

structure RemovedFile where
  relativeFilename : RelPath
  padding : Bool
  deriving DecidableEq, Repr

inductive RemoveCall where
  | removeFile (fileId : ℕ) (filename : RelPath)
  | removeDirectoryIfEmpty (path : RelPath)
  deriving DecidableEq, Repr

namespace RemoveFiles

/-- `HashSet::insert` of a `Path`: two are equal when their components are. -/
def insert (allDirs : List RelPath) (dir : RelPath) : List RelPath :=
  if allDirs.any (·.components = dir.components) then allDirs else allDirs ++ [dir]

/-- The walk to the top, which takes at most as many steps as there are segments. -/
def walk : ℕ → RelPath → List RelPath → List RelPath
  | 0, _, allDirs => allDirs
  | fuel + 1, fname, allDirs =>
    match fname.parent with
    | none => allDirs
    | some parent =>
      walk fuel parent (if parent.components ≠ [] then insert allDirs parent else allDirs)

/-- The loop over the files: its calls, and the directories that it finds. -/
def fileStep (acc : List RemoveCall × List RelPath) (entry : RemovedFile × ℕ) :
    List RemoveCall × List RelPath :=
  let (fi, id) := entry
  if fi.padding then acc
  else
    (acc.1 ++ [.removeFile id fi.relativeFilename],
      walk fi.relativeFilename.segments.length fi.relativeFilename acc.2)

def files (infos : List RemovedFile) : List RemoveCall × List RelPath :=
  infos.zipIdx.foldl fileStep ([], [])

/-- The calls of a run. The set gives its elements in any order, and `sort_unstable_by_key` those of one
length too. -/
def Calls (infos : List RemovedFile) (calls : List RemoveCall) : Prop :=
  ∃ allDirs : List RelPath, allDirs.Perm (files infos).2 ∧ (allDirs.Pairwise fun a b => b.len ≤ a.len) ∧
    calls = (files infos).1 ++ allDirs.map .removeDirectoryIfEmpty

end RemoveFiles

end Rtbit
