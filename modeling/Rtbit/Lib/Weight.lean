import Mathlib.Algebra.BigOperators.Intervals
import Mathlib.Algebra.Order.BigOperators.Group.Finset
import Mathlib.Tactic

/-! The total weight of the positions below `n` that a Boolean predicate selects. -/

namespace Lib

open Finset

def weight (n : ℕ) (w : ℕ → ℕ) (f : ℕ → Bool) : ℕ := ∑ i ∈ range n with f i = true, w i

variable {n : ℕ} {w : ℕ → ℕ} {f g : ℕ → Bool}

theorem weight_mono (h : ∀ i < n, f i = true → g i = true) : weight n w f ≤ weight n w g := by
  refine sum_le_sum_of_subset ?_
  intro i hi
  obtain ⟨hlt, hf⟩ := mem_filter.1 hi
  exact mem_filter.2 ⟨hlt, h i (mem_range.1 hlt) hf⟩

theorem weight_congr (h : ∀ i < n, f i = g i) : weight n w f = weight n w g :=
  le_antisymm (weight_mono fun i hi hf => h i hi ▸ hf) (weight_mono fun i hi hg => h i hi ▸ hg)

theorem weight_le_total : weight n w f ≤ ∑ i ∈ range n, w i :=
  sum_le_sum_of_subset (filter_subset _ _)

theorem le_weight {i : ℕ} (hi : i < n) (h : f i = true) : w i ≤ weight n w f :=
  single_le_sum (fun _ _ => Nat.zero_le _) (mem_filter.2 ⟨mem_range.2 hi, h⟩)

/-- A position that joins the selection adds its weight. -/
theorem weight_insert {i : ℕ} (hi : i < n) (hf : f i = false) (hg : g i = true)
    (h : ∀ j < n, j ≠ i → g j = f j) : weight n w g = weight n w f + w i := by
  have hset : (range n).filter (fun j => g j = true) =
      insert i ((range n).filter fun j => f j = true) := by
    ext j
    simp only [mem_filter, mem_range, mem_insert]
    by_cases hj : j = i
    · subst hj; simp [hg, hi]
    · refine ⟨fun ⟨hlt, hgj⟩ => Or.inr ⟨hlt, by rwa [← h j hlt hj]⟩, ?_⟩
      intro hor
      obtain ⟨hlt, hfj⟩ := hor.resolve_left hj
      exact ⟨hlt, by rwa [h j hlt hj]⟩
  unfold weight
  rw [hset, sum_insert (by simp [hf]), Nat.add_comm]

theorem weight_eq_zero (hw : ∀ i < n, 0 < w i) : weight n w f = 0 ↔ ∀ i < n, f i = false := by
  constructor
  · intro h i hi
    by_contra hf
    have hle : w i ≤ weight n w f := le_weight hi (by simpa using hf)
    have hpos := hw i hi
    omega
  · intro h
    refine sum_eq_zero ?_
    intro i hi
    obtain ⟨hlt, hf⟩ := mem_filter.1 hi
    simp [h i (mem_range.1 hlt)] at hf

/-- A position left out leaves its weight missing. -/
theorem weight_add_le_total {i : ℕ} (hi : i < n) (hf : f i = false) :
    weight n w f + w i ≤ ∑ j ∈ range n, w j := by
  have hins : weight n w (fun j => f j || j == i) = weight n w f + w i :=
    weight_insert hi hf (by simp) fun j _ hj => by simp [hj]
  rw [← hins]
  exact weight_le_total

theorem sum_map_range_mul (w : ℕ → ℕ) (f : ℕ → Bool) :
    ((List.range n).map fun i => w i * (f i).toNat).sum = weight n w f := by
  change ∑ i ∈ range n, w i * (f i).toNat = _
  unfold weight
  rw [sum_filter]
  refine sum_congr rfl ?_
  intro i _
  cases f i <;> simp

end Lib
