import Mathlib.Tactic

/-! A sequence of blocks laid end to end, and the stretches of them that a range of the
whole sequence covers. Walking to the range from the first block and walking on from any
earlier position meet the same stretches. -/

namespace Lib

variable {α : Type*} (len : α → ℕ)

/-- `size` units of the block with number `index`, from `pos` on. -/
structure Segment (α : Type*) where
  index : ℕ
  block : α
  pos : ℕ
  size : ℕ
  deriving DecidableEq, Repr

/-- The stretches of the `n` units that start `pos` units after the start of the blocks `bs`,
which are numbered from `i`. Blocks without a unit of the range are left out. -/
def segments : ℕ → List α → ℕ → ℕ → List (Segment α)
  | _, [], _, _ => []
  | i, b :: bs, pos, n =>
    if n = 0 then []
    else if len b ≤ pos then segments (i + 1) bs (pos - len b) n
    else ⟨i, b, pos, min (len b - pos) n⟩ :: segments (i + 1) bs 0 (n - (len b - pos))

variable {len}

@[simp] theorem segments_zero (i : ℕ) (bs : List α) (pos : ℕ) : segments len i bs pos 0 = [] := by
  cases bs <;> simp [segments]

theorem segments_skip (i : ℕ) (b : α) (bs : List α) (pos n : ℕ) (h : len b ≤ pos) :
    segments len i (b :: bs) pos n = segments len (i + 1) bs (pos - len b) n := by
  by_cases hn : n = 0
  · simp [hn]
  · rw [segments, if_neg hn, if_pos h]

theorem segments_cons (i : ℕ) (b : α) (bs : List α) (pos n : ℕ) (hn : n ≠ 0) (h : pos < len b) :
    segments len i (b :: bs) pos n =
      ⟨i, b, pos, min (len b - pos) n⟩ :: segments len (i + 1) bs 0 (n - (len b - pos)) := by
  rw [segments, if_neg hn, if_neg (by omega)]

/-- The first stretch, and the walk on from its end. -/
theorem segments_next (i : ℕ) (b : α) (bs : List α) (pos n : ℕ) (hn : n ≠ 0) (h : pos < len b) :
    segments len i (b :: bs) pos n =
      ⟨i, b, pos, min (len b - pos) n⟩ ::
        segments len i (b :: bs) (pos + min (len b - pos) n) (n - min (len b - pos) n) := by
  rw [segments_cons i b bs pos n hn h]
  congr 1
  rcases Nat.le_total (len b - pos) n with hle | hle
  · rw [min_eq_left hle, segments_skip _ _ _ _ _ (by omega)]
    congr 1
    omega
  · rw [min_eq_right hle, Nat.sub_self, segments_zero, Nat.sub_eq_zero_of_le hle, segments_zero]

/-- Blocks that end before the range are walked over. -/
theorem segments_append (xs bs : List α) (i pos n : ℕ) :
    segments len i (xs ++ bs) ((xs.map len).sum + pos) n = segments len (i + xs.length) bs pos n := by
  induction xs generalizing i with
  | nil => simp
  | cons x xs ih =>
    have hsum : (((x :: xs).map len).sum + pos) - len x = (xs.map len).sum + pos := by
      simp only [List.map_cons, List.sum_cons]
      omega
    rw [List.cons_append, segments_skip _ _ _ _ _ (by simp only [List.map_cons, List.sum_cons]; omega),
      hsum, ih]
    congr 1
    simp only [List.length_cons]
    omega

/-- A block ends before the blocks do. -/
theorem take_sum_add_le {bs : List α} {i : ℕ} {b : α} (h : bs[i]? = some b) :
    ((bs.take i).map len).sum + len b ≤ (bs.map len).sum := by
  have hsucc : ((bs.take (i + 1)).map len).sum = ((bs.take i).map len).sum + len b := by
    rw [List.take_add_one, h]
    simp
  rw [← hsucc]
  exact ((List.take_sublist (i + 1) bs).map len).sum_le_sum (fun _ _ => Nat.zero_le _)

/-- Every unit is in some block. -/
theorem exists_block {bs : List α} {k : ℕ} (h : k < (bs.map len).sum) :
    ∃ i b, bs[i]? = some b ∧ ((bs.take i).map len).sum ≤ k ∧
      k < ((bs.take i).map len).sum + len b := by
  induction bs generalizing k with
  | nil => exact absurd h (Nat.not_lt_zero k)
  | cons b bs ih =>
    rw [List.map_cons, List.sum_cons] at h
    rcases Nat.lt_or_ge k (len b) with hlt | hge
    · exact ⟨0, b, rfl, Nat.zero_le k, by simpa using hlt⟩
    · obtain ⟨i, c, hget, hle, hlt⟩ := ih (k := k - len b) (by omega)
      refine ⟨i + 1, c, by simpa using hget, ?_, ?_⟩
      · simp only [List.take_succ_cons, List.map_cons, List.sum_cons]
        omega
      · simp only [List.take_succ_cons, List.map_cons, List.sum_cons]
        omega

theorem sum_segments_le (bs : List α) (i pos n : ℕ) :
    ((segments len i bs pos n).map Segment.size).sum ≤ n := by
  induction bs generalizing i pos n with
  | nil => exact Nat.zero_le n
  | cons b bs ih =>
    by_cases hn : n = 0
    · simp [hn]
    · by_cases hp : len b ≤ pos
      · rw [segments_skip _ _ _ _ _ hp]
        exact ih _ _ _
      · rw [segments_cons _ _ _ _ _ hn (by omega), List.map_cons, List.sum_cons]
        have hrest := ih (i + 1) 0 (n - (len b - pos))
        simp only
        omega

/-- A stretch lies inside its block. -/
theorem mem_segments {bs : List α} {i pos n : ℕ} {s : Segment α} (h : s ∈ segments len i bs pos n) :
    ∃ j, s.index = i + j ∧ bs[j]? = some s.block ∧ s.pos + s.size ≤ len s.block := by
  induction bs generalizing i pos n with
  | nil => cases h
  | cons b bs ih =>
    by_cases hn : n = 0
    · simp [hn] at h
    · by_cases hp : len b ≤ pos
      · rw [segments_skip _ _ _ _ _ hp] at h
        obtain ⟨j, hi, hb, hl⟩ := ih h
        exact ⟨j + 1, by omega, hb, hl⟩
      · rw [segments_cons _ _ _ _ _ hn (by omega)] at h
        rcases List.mem_cons.1 h with rfl | hmem
        · exact ⟨0, rfl, rfl, by simp only; omega⟩
        · obtain ⟨j, hi, hb, hl⟩ := ih hmem
          exact ⟨j + 1, by omega, hb, hl⟩

/-! Ranges of two blocks laid end to end. -/

theorem take_drop_append_right {xs ys : List α} {pos : ℕ} (n : ℕ) (h : xs.length ≤ pos) :
    ((xs ++ ys).drop pos).take n = (ys.drop (pos - xs.length)).take n := by
  rw [List.drop_append, List.drop_eq_nil_of_le h, List.nil_append]

theorem take_drop_append_left {xs ys : List α} {pos : ℕ} (n : ℕ) (h : pos ≤ xs.length) :
    ((xs ++ ys).drop pos).take n =
      (xs.drop pos).take (min (xs.length - pos) n) ++ ys.take (n - (xs.length - pos)) := by
  rw [List.drop_append, Nat.sub_eq_zero_of_le h, List.drop_zero, List.take_append, List.length_drop]
  congr 1
  rw [← List.length_drop, List.take_eq_take_iff]
  omega

end Lib
