import Rtbit.Lib.Files

/-! `Session::move_completed_torrent`, one call of the file system a step, for all the torrents of a
session that are moved at the same time. The directories are not modelled: what a call that makes
or removes one returns is an input, as is which other call fails. -/

namespace Rtbit

open Lib

namespace MoveCompleted

/-- One of `metadata.file_infos`; a path is the list of its components. -/
structure MovedFile (N : Type) where
  relativeFilename : List N
  padding : Bool
  deriving DecidableEq, Repr

/-- A completion watcher, with the folders as they are when it reads them. -/
structure Move (N : Type) where
  currentOutput : List N
  targetFolder : List N
  /-- `session.output_folder`. -/
  outputFolder : List N
  files : List (MovedFile N)
  deriving DecidableEq, Repr

inductive MoveStage (N : Type) where
  /-- At `wait_until_completed`. -/
  | waiting
  /-- About to create `dest_base`. -/
  | createBase
  /-- About to create the parent of the destination. -/
  | createParent (fi : MovedFile N) (rest : List (MovedFile N))
  | rename (fi : MovedFile N) (rest : List (MovedFile N))
  /-- The rename has failed, and `copy` is about to open both files. -/
  | copy (fi : MovedFile N) (rest : List (MovedFile N))
  | copying (fi : MovedFile N) (rest : List (MovedFile N)) (source target copied : ℕ)
  | removeFile (fi : MovedFile N) (rest : List (MovedFile N))
  | removeDir
  | returned (ok : Bool)
  deriving DecidableEq, Repr

/-- What the call returns that a watcher waits for. -/
inductive Outcome where
  | ok
  | failed
  /-- `copy` has read up to so many bytes, and written them. -/
  | copied (n : ℕ)
  deriving DecidableEq, Repr

variable {N : Type} [DecidableEq N]

namespace Move

def relativePath (m : Move N) : List N := (m.currentOutput.dropPrefix? m.outputFolder).getD []

def destBase (m : Move N) : List N :=
  if m.relativePath = [] then m.targetFolder else m.targetFolder ++ m.relativePath

omit [DecidableEq N] in
def src (m : Move N) (fi : MovedFile N) : List N := m.currentOutput ++ fi.relativeFilename

def dst (m : Move N) (fi : MovedFile N) : List N := m.destBase ++ fi.relativeFilename

/-- After the last file. -/
def cleanUp (m : Move N) : MoveStage N :=
  if m.currentOutput = m.outputFolder then .returned true else .removeDir

/-- The head of the loop over the files. -/
def nextFile (m : Move N) : List (MovedFile N) → MoveStage N
  | [] => m.cleanUp
  | fi :: rest => if fi.padding then m.nextFile rest else .createParent fi rest

/-- The bytes are read and written at the offset of the open files, until there are no more. -/
def copyChunk (fs : Files (List N)) (fi : MovedFile N) (rest : List (MovedFile N))
    (source target copied n : ℕ) : Files (List N) × MoveStage N :=
  match ((fs.data source).drop copied).take n with
  | [] => (fs, .removeFile fi rest)
  | bytes =>
    (fs.writeAt target copied bytes, .copying fi rest source target (copied + bytes.length))

/-- A watcher goes on with what its call has returned; `none` if the call does not return that. -/
def next (m : Move N) (fs : Files (List N)) :
    MoveStage N → Outcome → Option (Files (List N) × MoveStage N)
  | .waiting, .ok =>
    some (fs, if m.currentOutput = m.targetFolder then .returned true else .createBase)
  | .createBase, .ok => some (fs, m.nextFile m.files)
  | .createBase, .failed => some (fs, .returned false)
  | .createParent fi rest, .ok => some (fs, .rename fi rest)
  | .createParent _ _, .failed => some (fs, .returned false)
  | .rename fi rest, .ok => (fs.rename (m.src fi) (m.dst fi)).map (·, m.nextFile rest)
  | .rename fi rest, .failed => some (fs, .copy fi rest)
  | .copy fi rest, .ok =>
    (fs.names (m.src fi)).map fun source =>
      let (target, fs) := fs.openTruncate (m.dst fi)
      (fs, .copying fi rest source target 0)
  | .copy _ _, .failed => some (fs, .returned false)
  | .copying fi rest source target copied, .copied n =>
    if n = 0 then none else some (copyChunk fs fi rest source target copied n)
  | .copying .., .failed => some (fs, .returned false)
  | .removeFile fi rest, .ok =>
    if (fs.names (m.src fi)).isSome then some (fs.remove (m.src fi), m.nextFile rest) else none
  | .removeFile _ _, .failed => some (fs, .returned false)
  | .removeDir, .ok | .removeDir, .failed => some (fs, .returned true)
  | _, _ => none

end Move

/-- The watchers of the torrents of a session, one stage for each. -/
structure Moves (N : Type) where
  fs : Files (List N)
  stages : List (MoveStage N)

namespace Moves

variable (moves : List (Move N))

omit [DecidableEq N] in
def start (fs : Files (List N)) : Moves N := ⟨fs, moves.map fun _ => .waiting⟩

/-- The call of the `k`-th watcher returns. -/
def step (s : Moves N) (e : ℕ × Outcome) : Option (Moves N) :=
  match moves[e.1]?, s.stages[e.1]? with
  | some m, some stage =>
    (m.next s.fs stage e.2).map fun (fs, stage) => ⟨fs, s.stages.set e.1 stage⟩
  | _, _ => none

end Moves

end MoveCompleted

end Rtbit
