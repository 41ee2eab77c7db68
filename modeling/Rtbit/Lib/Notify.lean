import Mathlib.Tactic

/-! A notification that is not stored: a call wakes the futures that were made before it, and no
other. A future is the number of calls when it was made. -/

namespace Lib

structure Notify where
  calls : ℕ
  deriving DecidableEq, Repr

namespace Notify

def new : Notify := ⟨0⟩

def notified (n : Notify) : ℕ := n.calls

def notifyWaiters (n : Notify) : Notify := ⟨n.calls + 1⟩

def Ready (n : Notify) (future : ℕ) : Prop := future < n.calls

instance (n : Notify) (future : ℕ) : Decidable (n.Ready future) :=
  inferInstanceAs (Decidable (future < n.calls))

variable {n : Notify} {future : ℕ}

/-- Every future made so far is ready after a call. -/
theorem ready_notifyWaiters (h : future ≤ n.notified) : n.notifyWaiters.Ready future :=
  Nat.lt_succ_of_le h

end Notify

end Lib
