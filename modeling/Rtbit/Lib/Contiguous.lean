import Mathlib.Tactic

/-! Lists in which the elements that satisfy a predicate stand next to each other,
and counters that are updated at the positions of such elements. -/

namespace Lib

variable {α : Type*} {f : α → Bool} {xs : List α}

/-- Between two elements that satisfy `f` every element does. -/
def Contiguous (f : α → Bool) (xs : List α) : Prop :=
  ∀ a b c, [a, b, c].Sublist xs → f a = true → f c = true → f b = true

theorem takeWhile_eq_filter (h : ∀ b c, [b, c].Sublist xs → f c = true → f b = true) :
    xs.takeWhile f = xs.filter f := by
  induction xs with
  | nil => rfl
  | cons x xs ih =>
    cases hx : f x with
    | true =>
      rw [List.takeWhile_cons_of_pos hx, List.filter_cons_of_pos hx,
        ih fun b c hs => h b c (hs.trans (List.sublist_cons_self x xs))]
    | false =>
      have hnone : xs.filter f = [] := by
        refine List.filter_eq_nil_iff.2 ?_
        intro c hc hfc
        have hfx := h x c ((List.singleton_sublist.2 hc).cons_cons x) hfc
        simp [hx] at hfx
      rw [List.takeWhile_cons_of_neg (by simp [hx]), List.filter_cons_of_neg (by simp [hx]), hnone]

/-- Skipping to the first element that satisfies `f` and taking as long as `f` holds finds
every such element. -/
theorem Contiguous.skip_take (h : Contiguous f xs) :
    (xs.dropWhile fun x => !f x).takeWhile f = xs.filter f := by
  induction xs with
  | nil => rfl
  | cons x xs ih =>
    cases hx : f x with
    | true =>
      rw [List.dropWhile_cons_of_neg (by simp [hx])]
      rw [List.takeWhile_cons_of_pos hx, List.filter_cons_of_pos hx,
        takeWhile_eq_filter fun b c hs => h x b c (hs.cons_cons x) hx]
    | false =>
      rw [List.dropWhile_cons_of_pos (by simp [hx]), List.filter_cons_of_neg (by simp [hx])]
      exact ih fun a b c hs => h a b c (hs.trans (List.sublist_cons_self x xs))

/-- The indices of a sublist of `zipIdx` increase. -/
theorem sublist_zipIdx {xs : List α} {ys : List (α × ℕ)} (h : ys.Sublist xs.zipIdx) :
    (ys.map Prod.snd).Pairwise (· < ·) := by
  have hs := h.map Prod.snd
  rw [List.zipIdx_map_snd] at hs
  exact List.Pairwise.sublist hs (List.pairwise_lt_range' _)

section Counters

variable (w : α → ℕ)

/-- Adds the weight of each element to the counter at its position. -/
def addAt (ys : List ℕ) (xs : List (α × ℕ)) : List ℕ :=
  xs.foldl (fun ys x => ys.modify x.2 (· + w x.1)) ys

theorem addAt_not_mem {xs : List (α × ℕ)} {i : ℕ} (h : ∀ x ∈ xs, x.2 ≠ i) (ys : List ℕ) :
    (addAt w ys xs)[i]? = ys[i]? := by
  induction xs generalizing ys with
  | nil => rfl
  | cons x xs ih =>
    have hne : x.2 ≠ i := h x List.mem_cons_self
    change (addAt w (ys.modify x.2 (· + w x.1)) xs)[i]? = _
    rw [ih (fun y hy => h y (List.mem_cons_of_mem x hy)), List.getElem?_modify_ne _ _ hne]

theorem addAt_mem {xs : List (α × ℕ)} (hnd : (xs.map Prod.snd).Nodup) {x : α × ℕ} (hx : x ∈ xs)
    (ys : List ℕ) : (addAt w ys xs)[x.2]? = ys[x.2]?.map (· + w x.1) := by
  induction xs generalizing ys with
  | nil => cases hx
  | cons y xs ih =>
    rw [List.map_cons, List.nodup_cons] at hnd
    change (addAt w (ys.modify y.2 (· + w y.1)) xs)[x.2]? = _
    rcases List.mem_cons.1 hx with rfl | hmem
    · have hnot : ∀ z ∈ xs, z.2 ≠ x.2 := fun z hz he => hnd.1 (List.mem_map.2 ⟨z, hz, he⟩)
      rw [addAt_not_mem w hnot, List.getElem?_modify_eq]
      rfl
    · have hne : y.2 ≠ x.2 := fun he => hnd.1 (List.mem_map.2 ⟨x, hmem, he.symm⟩)
      rw [ih hnd.2 hmem, List.getElem?_modify_ne _ _ hne]

/-- Counters kept per element, when the elements that satisfy `f` are updated. -/
theorem addAt_filter (fs : List α) (v : α → ℕ) (f : α → Bool) :
    addAt w (fs.map v) (fs.zipIdx.filter fun x => f x.1) =
      fs.map fun a => v a + if f a then w a else 0 := by
  have hnd : ((fs.zipIdx.filter fun x => f x.1).map Prod.snd).Nodup :=
    (sublist_zipIdx List.filter_sublist).imp fun h => Nat.ne_of_lt h
  refine List.ext_getElem? ?_
  intro i
  rw [List.getElem?_map]
  cases hi : fs[i]? with
  | none =>
    rw [addAt_not_mem, List.getElem?_map, hi]
    · rfl
    · intro x hx he
      have hmem := List.mem_zipIdx_iff_getElem?.1 (List.mem_filter.1 hx).1
      simp [he, hi] at hmem
  | some a =>
    have hmem : (a, i) ∈ fs.zipIdx := List.mk_mem_zipIdx_iff_getElem?.2 hi
    cases hf : f a with
    | true =>
      rw [addAt_mem w hnd (List.mem_filter.2 ⟨hmem, hf⟩), List.getElem?_map, hi]
      simp [hf]
    | false =>
      rw [addAt_not_mem, List.getElem?_map, hi]
      · simp [hf]
      · intro x hx he
        obtain ⟨hx, hfx⟩ := List.mem_filter.1 hx
        have hmem := List.mem_zipIdx_iff_getElem?.1 hx
        obtain rfl : a = x.1 := by simpa [he, hi] using hmem
        simp [hf] at hfx

end Counters

end Lib
