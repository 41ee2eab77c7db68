import Rtbit.Lib.Runs

/-! Tasks that share data behind reader-writer locks. A program takes and drops locks and
touches the data in single steps; the tasks of a system are interleaved in any order. -/

namespace Lib

inductive Mode where
  | read
  | write
  deriving DecidableEq, Repr

/-- Programs over locks `L` and shared data `D`. `access f k` replaces the data `d` by `f d`
and goes on with `k d`; `tryWrite x k` takes the write side of `x` if it is free at that
moment and never waits. -/
inductive Prog (L D α : Type) : Type where
  | ret (a : α)
  | acquire (x : L) (m : Mode) (k : Prog L D α)
  | release (x : L) (k : Prog L D α)
  | tryWrite (x : L) (k : Bool → Prog L D α)
  | access (f : D → D) (k : D → Prog L D α)

namespace Prog

variable {L D α β : Type}

def bind : Prog L D α → (α → Prog L D β) → Prog L D β
  | .ret a, f => f a
  | .acquire x m k, f => .acquire x m (k.bind f)
  | .release x k, f => .release x (k.bind f)
  | .tryWrite x k, f => .tryWrite x fun b => (k b).bind f
  | .access g k, f => .access g fun d => (k d).bind f

instance : Monad (Prog L D) where
  pure := .ret
  bind := bind

def lock (x : L) (m : Mode) : Prog L D Unit := .acquire x m (.ret ())

def unlock (x : L) : Prog L D Unit := .release x (.ret ())

def tryLock (x : L) : Prog L D Bool := .tryWrite x .ret

def get : Prog L D D := .access id .ret

/-- Returns the data before the change. -/
def modify (f : D → D) : Prog L D D := .access f .ret

/-- The body runs under a guard of `x`. -/
def withLock (x : L) (m : Mode) (p : Prog L D α) : Prog L D α := do
  lock x m
  let a ← p
  unlock x
  return a

/-- The lock the program takes next. -/
def next : Prog L D α → Option (L × Mode)
  | .acquire x m _ => some (x, m)
  | _ => none

def atAccess : Prog L D α → Bool
  | .access _ _ => true
  | _ => false

end Prog

/-- A running call with the locks it holds, the newest first. -/
structure Task (L D C : Type) where
  call : C
  held : List (L × Mode)
  prog : Prog L D Unit

/-- Drops the newest guard of `x`. -/
def dropGuard {L : Type} [DecidableEq L] (x : L) (held : List (L × Mode)) : List (L × Mode) :=
  held.eraseP fun h => h.1 = x

structure System (L D C : Type) where
  data : D
  tasks : List (Task L D C)

/-- A call begins, or the task at an index takes its next step. -/
inductive TaskEvent (C : Type) where
  | call (c : C)
  | run (i : ℕ)

namespace System

variable {L D C : Type} [DecidableEq L]

/-- No task holds `x` in a way that excludes a guard in mode `m`. -/
def Free (s : System L D C) (x : L) (m : Mode) : Prop :=
  ∀ t ∈ s.tasks, ∀ h ∈ t.held, h.1 = x → m = .read ∧ h.2 = .read

instance (s : System L D C) (x : L) (m : Mode) : Decidable (s.Free x m) :=
  inferInstanceAs (Decidable (∀ t ∈ s.tasks, ∀ h ∈ t.held, h.1 = x → m = .read ∧ h.2 = .read))

/-- The next step of a task: the data, the locks it holds and the rest of its program. -/
def advance (s : System L D C) (held : List (L × Mode)) :
    Prog L D Unit → Option (D × List (L × Mode) × Prog L D Unit)
  | .ret _ => none
  | .acquire x m k => if s.Free x m then some (s.data, (x, m) :: held, k) else none
  | .release x k => some (s.data, dropGuard x held, k)
  | .tryWrite x k =>
    if s.Free x .write then some (s.data, (x, .write) :: held, k true)
    else some (s.data, held, k false)
  | .access f k => some (f s.data, held, k s.data)

def step (body : C → Prog L D Unit) (s : System L D C) : TaskEvent C → Option (System L D C)
  | .call c => some { s with tasks := s.tasks ++ [⟨c, [], body c⟩] }
  | .run i =>
    s.tasks[i]?.bind fun t => (s.advance t.held t.prog).map fun x =>
      ⟨x.1, s.tasks.set i { t with held := x.2.1, prog := x.2.2 }⟩

/-- The task `i` waits for `x`: it takes `x` next, and either the lock is not free for it, or
it would read while a writer is queued. -/
def Waits (s : System L D C) (i : ℕ) (x : L) (m : Mode) : Prop :=
  s.tasks[i]?.bind (fun t => t.prog.next) = some (x, m) ∧
    (¬s.Free x m ∨ m = .read ∧ ∃ t ∈ s.tasks, t.prog.next = some (x, .write))

def Holds (s : System L D C) (i : ℕ) (x : L) : Prop := ∃ t ∈ s.tasks[i]?, ∃ h ∈ t.held, h.1 = x

instance (s : System L D C) (i : ℕ) (x : L) (m : Mode) : Decidable (s.Waits i x m) :=
  inferInstanceAs (Decidable (s.tasks[i]?.bind (fun t => t.prog.next) = some (x, m) ∧
    (¬s.Free x m ∨ m = .read ∧ ∃ t ∈ s.tasks, t.prog.next = some (x, .write))))

instance (s : System L D C) (i : ℕ) (x : L) : Decidable (s.Holds i x) :=
  inferInstanceAs (Decidable (∃ t ∈ s.tasks[i]?, ∃ h ∈ t.held, h.1 = x))

/-- The task `i` waits for a lock that `j` holds. -/
def WaitsFor (s : System L D C) (i j : ℕ) : Prop := ∃ x m, s.Waits i x m ∧ s.Holds j x

/-- When a task accesses the data, these are as `A` says for its call. -/
def Meets (A : C → D → Prop) (s : System L D C) : TaskEvent C → Prop
  | .call _ => True
  | .run i => ∀ t ∈ s.tasks[i]?.toList, t.prog.atAccess = true → A t.call s.data

instance (A : C → D → Prop) [∀ c d, Decidable (A c d)] (s : System L D C) :
    (e : TaskEvent C) → Decidable (s.Meets A e)
  | .call _ => isTrue trivial
  | .run i => inferInstanceAs (Decidable
      (∀ t ∈ s.tasks[i]?.toList, t.prog.atAccess = true → A t.call s.data))

end System

end Lib
