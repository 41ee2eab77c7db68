import Mathlib.Data.List.TakeWhile
import Mathlib.Tactic

/-! Reading a list at an offset: `p <+: data.drop o`. -/

namespace Lib

variable {α : Type} {data p q : List α} {o : ℕ} {a : α}

/-- Where `while (i < data.length && f(data[i])) i++` stops. -/
def skipWhile (f : α → Bool) (data : List α) (i : ℕ) : ℕ :=
  i + ((data.drop i).takeWhile f).length

theorem append_prefix_drop : p ++ q <+: data.drop o ↔
    p <+: data.drop o ∧ q <+: data.drop (o + p.length) := by
  constructor
  · rintro ⟨t, ht⟩
    rw [List.append_assoc] at ht
    refine ⟨⟨q ++ t, ht⟩, ⟨t, ?_⟩⟩
    rw [← List.drop_drop, ← ht, List.drop_left]
  · rintro ⟨⟨t, ht⟩, s, hs⟩
    rw [← List.drop_drop, ← ht, List.drop_left] at hs
    exact ⟨s, by rw [List.append_assoc, hs, ht]⟩

theorem singleton_prefix_drop : [a] <+: data.drop o ↔ data[o]? = some a := by
  rw [List.singleton_prefix_iff_head?_eq_some, List.head?_drop]

theorem cons_prefix_drop :
    a :: p <+: data.drop o ↔ data[o]? = some a ∧ p <+: data.drop (o + 1) := by
  rw [← List.singleton_append, append_prefix_drop, singleton_prefix_drop]
  rfl

theorem le_length_prefix_drop (h : p <+: data.drop o) (hne : p ≠ []) : o + p.length ≤ data.length := by
  have hle := h.length_le
  have hpos := List.length_pos_of_ne_nil hne
  rw [List.length_drop] at hle
  omega

theorem drop_eq_append (h : p <+: data.drop o) : data.drop o = p ++ data.drop (o + p.length) := by
  obtain ⟨t, ht⟩ := h
  rw [← List.drop_drop, ← ht, List.drop_left]

theorem extract_prefix_drop (h : p <+: data.drop o) : data.extract o (o + p.length) = p := by
  rw [List.extract_eq_take_drop, Nat.add_sub_cancel_left]
  exact (List.prefix_iff_eq_take.1 h).symm

theorem skipWhile_spec (f : α → Bool) (data : List α) (o : ℕ) :
    ∃ p, (∀ a ∈ p, f a) ∧ p <+: data.drop o ∧ skipWhile f data o = o + p.length ∧
      ∀ a, data[o + p.length]? = some a → ¬ f a := by
  refine ⟨(data.drop o).takeWhile f, fun a ha => List.mem_takeWhile_imp ha,
    List.takeWhile_prefix f, rfl, fun a ha => ?_⟩
  have hhead : ((data.drop o).dropWhile f).head? = some a :=
    calc ((data.drop o).dropWhile f).head?
        = ((data.drop o).takeWhile f ++ (data.drop o).dropWhile f)[
            ((data.drop o).takeWhile f).length]? := by
          rw [List.getElem?_append_right le_rfl, Nat.sub_self, List.head?_eq_getElem?]
      _ = some a := by rw [List.takeWhile_append_dropWhile, List.getElem?_drop, ha]
  have hstop := List.head?_dropWhile_not f (data.drop o)
  rw [hhead] at hstop
  simpa using hstop

theorem skipWhile_eq {f : α → Bool} (hp : ∀ a ∈ p, f a) (hread : p ++ [a] <+: data.drop o)
    (ha : ¬ f a) : skipWhile f data o = o + p.length := by
  obtain ⟨t, ht⟩ := hread
  rw [skipWhile, ← ht, List.append_assoc, List.takeWhile_append_of_pos hp]
  simp [ha]

end Lib
