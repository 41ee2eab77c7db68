import Mathlib.Data.List.AList
import Mathlib.Tactic

/-! The values of a finite map, as a list in some order, and sums over a list one element of
which changes. -/

namespace Lib

variable {α β : Type*} [DecidableEq α]

def values (m : AList fun _ : α => β) : List β := m.entries.map Sigma.snd

variable {m : AList fun _ : α => β} {a : α} {b : β}

theorem values_insert_new (h : m.lookup a = none) : values (m.insert a b) = b :: values m := by
  rw [values, AList.entries_insert_of_notMem (AList.lookup_eq_none.1 h)]
  rfl

/-- A value at the head, the others after it. -/
theorem values_perm (h : m.lookup a = some b) : (values m).Perm (b :: values (m.erase a)) := by
  have hmem : a ∈ m.entries.keys := AList.lookup_isSome.1 (by rw [h]; rfl)
  obtain ⟨b', l₁, l₂, -, hm, he⟩ := List.exists_of_kerase hmem
  have hb : b' = b := by
    have hentry : Sigma.mk a b' ∈ m.entries := by rw [hm]; simp
    have hlook := AList.mem_lookup_iff.2 hentry
    rw [h] at hlook
    exact (Option.some.inj hlook).symm
  subst hb
  have herase : values (m.erase a) = (l₁ ++ l₂).map Sigma.snd := congrArg _ he
  rw [values, hm, herase, List.map_append, List.map_append, List.map_cons]
  exact List.perm_middle

theorem mem_values : b ∈ values m ↔ ∃ a, m.lookup a = some b := by
  constructor
  · intro h
    obtain ⟨⟨a, b'⟩, he, rfl⟩ := List.mem_map.1 h
    exact ⟨a, AList.mem_lookup_iff.2 he⟩
  · rintro ⟨a, h⟩
    exact List.mem_map.2 ⟨⟨a, b⟩, AList.mem_lookup_iff.1 h, rfl⟩

theorem sum_map_set (f : β → ℕ) {l : List β} {i : ℕ} {x y : β} (h : l[i]? = some x) :
    ((l.set i y).map f).sum + f x = (l.map f).sum + f y := by
  induction l generalizing i with
  | nil => simp at h
  | cons z l ih =>
    cases i with
    | zero =>
      obtain rfl : z = x := by simpa using h
      simp only [List.set_cons_zero, List.map_cons, List.sum_cons]
      omega
    | succ i =>
      have hrec := ih (i := i) (by simpa using h)
      simp only [List.set_cons_succ, List.map_cons, List.sum_cons]
      omega

theorem countP_set (p : β → Bool) {l : List β} {i : ℕ} {x y : β} (h : l[i]? = some x) :
    (l.set i y).countP p + (if p x then 1 else 0) = l.countP p + (if p y then 1 else 0) := by
  obtain ⟨hi, rfl⟩ := List.getElem?_eq_some_iff.1 h
  have hset := (List.set_perm_cons_eraseIdx hi y).countP_eq p
  have hall := (List.getElem_cons_eraseIdx_perm hi).countP_eq p
  rw [List.countP_cons] at hset hall
  omega

end Lib
