import Mathlib.Tactic

/-! Writing values one after the other. What has been persisted and what waits to be written is
one list, oldest first; a writer that keeps its order only ever removes from it, and never the
last value. -/

namespace Lib

variable {S : Type*}

structure WriteQueue (S : Type*) where
  persisted : Option S
  pending : List S

namespace WriteQueue

/-- The values, oldest first. -/
def values (q : WriteQueue S) : List S := q.persisted.toList ++ q.pending

def push (q : WriteQueue S) (x : S) : WriteQueue S := { q with pending := q.pending ++ [x] }

/-- A writer that keeps the order: it leaves out a value that is followed by another one, or
writes the oldest. -/
inductive Step : WriteQueue S → WriteQueue S → Prop
  | stay {q} : Step q q
  | skip {p x y rest} : Step ⟨p, x :: y :: rest⟩ ⟨p, y :: rest⟩
  | write {p x rest} : Step ⟨p, x :: rest⟩ ⟨some x, rest⟩

variable {q q' : WriteQueue S}

@[simp] theorem values_push (q : WriteQueue S) (x : S) : (q.push x).values = q.values ++ [x] := by
  simp [values, push]

theorem Step.getLast_values (h : Step q q') : q'.values.getLast? = q.values.getLast? := by
  induction h with
  | stay => rfl
  | skip => simp [values]
  | @write p x rest => cases p <;> simp [values]

theorem Step.sublist (h : Step q q') : List.Sublist q'.values q.values := by
  induction h with
  | stay => exact List.Sublist.refl _
  | skip => exact (List.Sublist.refl _).append (List.sublist_cons_self _ _)
  | @write p x rest =>
    simp only [values, Option.toList_some, List.singleton_append]
    exact List.sublist_append_right _ _

section Ordered

variable {r : S → S → Prop} {top top' : S}

/-- Each value is above the ones before it, and `top` above them all. -/
structure Ordered (r : S → S → Prop) (q : WriteQueue S) (top : S) : Prop where
  sorted : q.values.Pairwise r
  le_top : ∀ x ∈ q.values, r x top

theorem Ordered.sublist (h : Ordered r q top) (hs : List.Sublist q'.values q.values) :
    Ordered r q' top :=
  ⟨h.sorted.sublist hs, fun x hx => h.le_top x (hs.subset hx)⟩

theorem Ordered.raise [IsTrans S r] (h : Ordered r q top) (ht : r top top') :
    Ordered r q top' :=
  ⟨h.sorted, fun x hx => IsTrans.trans _ _ _ (h.le_top x hx) ht⟩

theorem Ordered.push [Std.Refl r] (h : Ordered r q top) : Ordered r (q.push top) top := by
  refine ⟨?_, ?_⟩
  · rw [values_push, List.pairwise_append]
    refine ⟨h.sorted, List.pairwise_singleton _ _, ?_⟩
    intro x hx y hy
    rw [List.mem_singleton.1 hy]
    exact h.le_top x hx
  · intro x hx
    rw [values_push, List.mem_append, List.mem_singleton] at hx
    rcases hx with hx | rfl
    · exact h.le_top x hx
    · exact Std.Refl.refl x

/-- What is persisted only goes up. -/
theorem Ordered.persisted_le [Std.Refl r] {x : S} (h : Ordered r q top) (hs : Step q q')
    (hx : q.persisted = some x) : ∃ y, q'.persisted = some y ∧ r x y := by
  induction hs with
  | stay => exact ⟨x, hx, Std.Refl.refl x⟩
  | skip => exact ⟨x, hx, Std.Refl.refl x⟩
  | @write p y rest =>
    refine ⟨y, rfl, ?_⟩
    obtain rfl : p = some x := hx
    have hsort := h.sorted
    simp only [values, Option.toList_some, List.singleton_append, List.pairwise_cons] at hsort
    exact hsort.1 y (by simp)

end Ordered

end WriteQueue

end Lib
