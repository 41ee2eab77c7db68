import Mathlib.Tactic

/-! A bounded channel to many receivers. The sender never waits: a receiver that is more than the
capacity behind loses the oldest values. A receiver is its place in the list of all values sent. -/

namespace Lib

namespace Broadcast

variable {α : Type*}

inductive Received (α : Type*) where
  | empty
  | lagged
  | value (a : α)

/-- What a receiver at `next` gets, and where it is afterwards. -/
def recv (capacity : ℕ) (sent : List α) (next : ℕ) : Received α × ℕ :=
  if next + capacity < sent.length then (.lagged, sent.length - capacity)
  else
    match sent[next]? with
    | some a => (.value a, next + 1)
    | none => (.empty, next)

/-- The values before `next` are done with, by `P`. -/
def Done (P : α → Prop) (sent : List α) (next : ℕ) : Prop :=
  ∀ i a, i < next → sent[i]? = some a → P a

variable {P Q : α → Prop} {sent : List α} {next capacity : ℕ} {a : α}

theorem Done.mono (h : Done P sent next) (hpq : ∀ a, P a → Q a) : Done Q sent next :=
  fun i a hi ha => hpq a (h i a hi ha)

theorem Done.send (h : Done P sent next) (hle : next ≤ sent.length) (a : α) :
    Done P (sent ++ [a]) next := by
  intro i b hi hb
  rw [List.getElem?_append_left (lt_of_lt_of_le hi hle)] at hb
  exact h i b hi hb

theorem Done.of_all (h : ∀ a ∈ sent, P a) : Done P sent next :=
  fun _ a _ ha => h a (List.mem_of_getElem? ha)

theorem Done.all (h : Done P sent sent.length) : ∀ a ∈ sent, P a := by
  intro a ha
  obtain ⟨i, hi⟩ := List.mem_iff_getElem?.1 ha
  exact h i a (List.getElem?_eq_some_iff.1 hi).1 hi

/-- A receiver that has not lagged gets the value at its place. -/
theorem recv_of_le (h : sent.length ≤ next + capacity) :
    (recv capacity sent next = (.empty, next) ∧ sent[next]? = none) ∨
      ∃ a, recv capacity sent next = (.value a, next + 1) ∧ sent[next]? = some a := by
  unfold recv
  rw [if_neg (by omega)]
  cases ha : sent[next]? with
  | none => exact Or.inl ⟨rfl, rfl⟩
  | some a => exact Or.inr ⟨a, rfl, rfl⟩

theorem Done.recv (h : Done P sent next) (ha : sent[next]? = some a) (hp : P a) :
    Done P sent (next + 1) := by
  intro i b hi hb
  rcases Nat.lt_succ_iff_lt_or_eq.1 hi with hlt | rfl
  · exact h i b hlt hb
  · obtain rfl := Option.some.inj (ha.symm.trans hb)
    exact hp

end Broadcast

end Lib
