import Mathlib.Data.List.GetD
import Mathlib.Tactic

/-! A queue kept in a window of a circular array of `cap` cells: the window as two slices of the
array, what is left of it when its start moves on, and how it grows when the cells behind it are
filled, first up to the end of the array and then from its beginning. -/

namespace Lib

variable {α : Type*}

/-- The cells `a` to `b` of the array. -/
def cells (buf : ℕ → α) (a b : ℕ) : List α := (List.range' a (b - a)).map buf

/-- The `len` cells from `start` on, around the end of the array. -/
def window (cap : ℕ) (buf : ℕ → α) (start len : ℕ) : List α :=
  (List.range len).map fun i => buf ((start + i) % cap)

/-- The array with `data` written from `pos` on. -/
def put (buf : ℕ → α) (pos : ℕ) (data : List α) : ℕ → α :=
  fun i => if pos ≤ i then data.getD (i - pos) (buf i) else buf i

variable {cap start len : ℕ} {buf : ℕ → α}

@[simp] theorem length_cells (buf : ℕ → α) (a b : ℕ) : (cells buf a b).length = b - a := by
  simp [cells]

@[simp] theorem length_window (cap : ℕ) (buf : ℕ → α) (start len : ℕ) :
    (window cap buf start len).length = len := by
  simp [window]

theorem window_get {i : ℕ} (h : i < len) :
    (window cap buf start len)[i]? = some (buf ((start + i) % cap)) := by
  simp [window, h]

/-- The index goes around the end of the array at most once. -/
theorem wrap_of_lt {i : ℕ} (h : start + i < cap) : (start + i) % cap = start + i :=
  Nat.mod_eq_of_lt h

theorem wrap_of_ge {i : ℕ} (hs : start < cap) (hi : i ≤ cap) (h : cap ≤ start + i) :
    (start + i) % cap = start + i - cap := by
  rw [Nat.mod_eq_sub_mod h, Nat.mod_eq_of_lt (by omega)]

theorem cells_get {a b i : ℕ} (h : i < b - a) : (cells buf a b)[i]? = some (buf (a + i)) := by
  simp [cells, h]

/-- The window up to the end of the array, and the rest of it. -/
theorem window_eq_cells (hs : start < cap) (hl : len ≤ cap) :
    cells buf start (start + min len (cap - start)) ++ cells buf 0 (len - min len (cap - start)) =
      window cap buf start len := by
  refine List.ext_getElem? ?_
  intro i
  rcases Nat.lt_or_ge i len with hi | hi
  · rw [window_get hi]
    rcases Nat.lt_or_ge (start + i) cap with hlt | hge
    · rw [List.getElem?_append_left (by rw [length_cells]; omega), cells_get (by omega),
        wrap_of_lt hlt]
    · rw [List.getElem?_append_right (by rw [length_cells]; omega), length_cells,
        cells_get (by omega), wrap_of_ge hs (by omega) hge]
      congr 2
      omega
  · rw [List.getElem?_eq_none, List.getElem?_eq_none]
    · simpa using hi
    · rw [List.length_append, length_cells, length_cells]
      omega

theorem drop_window (n : ℕ) :
    (window cap buf start len).drop n = window cap buf ((start + n) % cap) (len - n) := by
  refine List.ext_getElem? ?_
  intro i
  rw [List.getElem?_drop]
  rcases Nat.lt_or_ge i (len - n) with hi | hi
  · rw [window_get (by omega), window_get hi, Nat.mod_add_mod, Nat.add_assoc]
  · rw [List.getElem?_eq_none (by rw [length_window]; omega),
      List.getElem?_eq_none (by rw [length_window]; omega)]

theorem put_of_mem {pos i : ℕ} {data : List α} (h1 : pos ≤ i) (h2 : i < pos + data.length) :
    some (put buf pos data i) = data[i - pos]? := by
  have hlt : i - pos < data.length := by omega
  rw [put, if_pos h1, List.getD_eq_getElem _ _ hlt, List.getElem?_eq_getElem hlt]

theorem put_of_not_mem {pos i : ℕ} {data : List α} (h : i < pos ∨ pos + data.length ≤ i) :
    put buf pos data i = buf i := by
  unfold put
  split_ifs with hp
  · rw [List.getD_eq_default _ _ (by omega)]
  · rfl

theorem cells_put (data : List α) : cells (put buf 0 data) 0 data.length = data := by
  refine List.ext_getElem? ?_
  intro i
  rcases Nat.lt_or_ge i data.length with hi | hi
  · rw [cells_get hi, Nat.zero_add, put_of_mem (Nat.zero_le i) (by omega), Nat.sub_zero]
  · rw [List.getElem?_eq_none (by simpa using hi), List.getElem?_eq_none hi]

/-- Two pieces of data copied to the beginning of the array. -/
theorem window_copy {first second : List α} (h : first.length + second.length ≤ cap) :
    window cap (put (put buf 0 first) first.length second) 0 (first.length + second.length) =
      first ++ second := by
  refine List.ext_getElem? ?_
  intro i
  rcases Nat.lt_or_ge i (first.length + second.length) with hi | hi
  · rw [window_get hi]
    rcases Nat.eq_or_lt_of_le (hi.le.trans h) with hc | hc
    · omega
    rw [wrap_of_lt (by omega), Nat.zero_add]
    rcases Nat.lt_or_ge i first.length with hf | hf
    · rw [put_of_not_mem (Or.inl hf), put_of_mem (Nat.zero_le i) (by omega), Nat.sub_zero,
        List.getElem?_append_left hf]
    · rw [put_of_mem hf hi, List.getElem?_append_right hf]
  · rw [List.getElem?_eq_none (by simpa using hi), List.getElem?_eq_none (by simpa using hi)]

/-- Filling the cells behind the window: `first` up to the end of the array, `second` from its
beginning, which is only used when the end has been reached. -/
theorem window_put {first second : List α} (hs : start < cap) (hl : len ≤ cap)
    (hfit : first.length + second.length ≤ cap - len)
    (hfirst : first.length ≤ cap - (start + len) % cap)
    (hsecond : second = [] ∨ first.length = cap - (start + len) % cap) :
    window cap (put (put buf ((start + len) % cap) first) 0 second) start
        (len + (first.length + second.length)) =
      window cap buf start len ++ (first ++ second) := by
  have hends : start + len < cap ∧ (start + len) % cap = start + len ∨
      cap ≤ start + len ∧ (start + len) % cap = start + len - cap := by
    rcases Nat.lt_or_ge (start + len) cap with h | h
    · exact Or.inl ⟨h, wrap_of_lt h⟩
    · exact Or.inr ⟨h, wrap_of_ge hs hl h⟩
  generalize (start + len) % cap = ws at *
  have hsecond : second.length = 0 ∨ first.length = cap - ws := by
    rcases hsecond with h | h
    · exact Or.inl (by rw [h, List.length_nil])
    · exact Or.inr h
  refine List.ext_getElem? ?_
  intro i
  rcases Nat.lt_or_ge i (len + (first.length + second.length)) with hi | hi
  · rw [window_get hi]
    have hidx : start + i < cap ∧ (start + i) % cap = start + i ∨
        cap ≤ start + i ∧ (start + i) % cap = start + i - cap := by
      rcases Nat.lt_or_ge (start + i) cap with h | h
      · exact Or.inl ⟨h, wrap_of_lt h⟩
      · exact Or.inr ⟨h, wrap_of_ge hs (by omega) h⟩
    rcases Nat.lt_or_ge i len with hlt | hge
    · -- a cell of the old window
      rw [List.getElem?_append_left (by simpa using hlt), window_get hlt]
      generalize (start + i) % cap = j at *
      rw [put_of_not_mem (by omega), put_of_not_mem (by omega)]
    · rw [List.getElem?_append_right (by simpa using hge), length_window]
      generalize (start + i) % cap = j at *
      rcases Nat.lt_or_ge (i - len) first.length with hf | hf
      · rw [List.getElem?_append_left hf, put_of_not_mem (by omega), put_of_mem (by omega) (by omega)]
        congr 1
        omega
      · rw [List.getElem?_append_right hf, put_of_mem (by omega) (by omega)]
        congr 1
        omega
  · rw [List.getElem?_eq_none (by simpa using hi), List.getElem?_eq_none]
    simp only [List.length_append, length_window]
    omega

end Lib
