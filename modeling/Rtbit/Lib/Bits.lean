import Mathlib.Tactic

/-! Bit fields of a fixed length, read and written by position. A read past the
end gives `false`; a write past the end does nothing. The binary operations
extend the right operand with zeros to the length of the left one. -/

namespace Lib

structure Bits where
  bits : List Bool
  deriving DecidableEq, Repr

namespace Bits

def len (b : Bits) : ℕ := b.bits.length

def get (b : Bits) (i : ℕ) : Bool := b.bits.getD i false

def zeros (n : ℕ) : Bits := ⟨List.replicate n false⟩

def set (b : Bits) (i : ℕ) (v : Bool) : Bits := ⟨b.bits.set i v⟩

/-- Writes `v` to the positions `lo ≤ i < hi`. -/
def fill (b : Bits) (lo hi : ℕ) (v : Bool) : Bits :=
  ⟨b.bits.mapIdx fun i x => if lo ≤ i ∧ i < hi then v else x⟩

/-- The half-open range `lo..hi` can be sliced out of `b`. -/
def InRange (b : Bits) (lo hi : ℕ) : Prop := lo ≤ hi ∧ hi ≤ b.len

instance (b : Bits) (lo hi : ℕ) : Decidable (b.InRange lo hi) :=
  inferInstanceAs (Decidable (_ ∧ _))

def all (b : Bits) (lo hi : ℕ) : Bool := (List.range' lo (hi - lo)).all b.get

def not (b : Bits) : Bits := ⟨b.bits.map (!·)⟩

def and (a b : Bits) : Bits := ⟨a.bits.mapIdx fun i x => x && b.get i⟩

def or (a b : Bits) : Bits := ⟨a.bits.mapIdx fun i x => x || b.get i⟩

/-- The positions of the set bits, in order. -/
def ones (b : Bits) : List ℕ := (List.range b.len).filter b.get

theorem get_eq (b : Bits) (i : ℕ) : b.get i = b.bits[i]?.getD false := by
  simp [get]

theorem get_of_le {b : Bits} {i : ℕ} (h : b.len ≤ i) : b.get i = false := by
  rw [get_eq, List.getElem?_eq_none h]
  rfl

theorem lt_len_of_get {b : Bits} {i : ℕ} (h : b.get i = true) : i < b.len := by
  by_contra hi
  rw [get_of_le (not_lt.mp hi)] at h
  exact Bool.false_ne_true h

@[simp] theorem len_zeros (n : ℕ) : (zeros n).len = n := by simp [zeros, len]
@[simp] theorem len_set (b : Bits) (i : ℕ) (v : Bool) : (b.set i v).len = b.len := by simp [set, len]
@[simp] theorem len_fill (b : Bits) (lo hi : ℕ) (v : Bool) : (b.fill lo hi v).len = b.len := by
  simp [fill, len]
@[simp] theorem len_not (b : Bits) : b.not.len = b.len := by simp [not, len]
@[simp] theorem len_and (a b : Bits) : (a.and b).len = a.len := by simp [and, len]
@[simp] theorem len_or (a b : Bits) : (a.or b).len = a.len := by simp [or, len]

@[simp] theorem get_zeros (n i : ℕ) : (zeros n).get i = false := by
  simp only [get_eq, zeros, List.getElem?_replicate]
  split_ifs <;> rfl

theorem get_set (b : Bits) (i j : ℕ) (v : Bool) :
    (b.set i v).get j = if i = j ∧ i < b.len then v else b.get j := by
  simp only [get_eq, set, List.getElem?_set, len]
  by_cases hij : i = j
  · subst hij
    by_cases hi : i < b.bits.length
    · simp [hi]
    · simp [hi]
  · simp [hij]

@[simp] theorem get_set_ne {b : Bits} {i j : ℕ} (v : Bool) (h : i ≠ j) :
    (b.set i v).get j = b.get j := by
  simp [get_set, h]

theorem get_set_self {b : Bits} {i : ℕ} (v : Bool) (h : i < b.len) : (b.set i v).get i = v := by
  simp [get_set, h]

@[simp] theorem get_and (a b : Bits) (i : ℕ) : (a.and b).get i = (a.get i && b.get i) := by
  rw [get_eq (a.and b), get_eq a, and, List.getElem?_mapIdx]
  cases a.bits[i]? <;> simp

theorem get_or {a b : Bits} {i : ℕ} (h : i < a.len) : (a.or b).get i = (a.get i || b.get i) := by
  rw [get_eq (a.or b), get_eq a, or, List.getElem?_mapIdx, List.getElem?_eq_getElem h]
  simp

theorem get_not {b : Bits} {i : ℕ} (h : i < b.len) : b.not.get i = !b.get i := by
  simp only [get_eq, not, List.getElem?_map]
  rw [List.getElem?_eq_getElem h]
  simp

@[simp] theorem mem_ones (b : Bits) (i : ℕ) : i ∈ b.ones ↔ b.get i = true := by
  simp only [ones, List.mem_filter, List.mem_range, and_iff_right_iff_imp]
  exact lt_len_of_get

theorem get_fill (b : Bits) (lo hi i : ℕ) (v : Bool) :
    (b.fill lo hi v).get i = if lo ≤ i ∧ i < hi ∧ i < b.len then v else b.get i := by
  rw [get_eq (b.fill lo hi v), get_eq b, fill, List.getElem?_mapIdx, len]
  rcases Nat.lt_or_ge i b.bits.length with h | h
  · rw [List.getElem?_eq_getElem h]
    by_cases hin : lo ≤ i ∧ i < hi
    · simp [hin, h]
    · rw [if_neg (fun hc => hin ⟨hc.1, hc.2.1⟩)]
      simp [hin]
  · rw [List.getElem?_eq_none h, if_neg (fun hc => absurd hc.2.2 (not_lt.2 h))]
    rfl

theorem all_iff (b : Bits) (lo hi : ℕ) :
    b.all lo hi = true ↔ ∀ i, lo ≤ i → i < hi → b.get i = true := by
  simp only [all, List.all_eq_true, List.mem_range'_1]
  constructor
  · intro h i hlo hhi
    exact h i (by omega)
  · intro h i hi
    exact h i hi.1 (by omega)

/-- Bit fields of one length are equal if they agree everywhere. -/
theorem ext_get {a b : Bits} (hlen : a.len = b.len) (h : ∀ i, i < a.len → a.get i = b.get i) :
    a = b := by
  obtain ⟨as⟩ := a
  obtain ⟨bs⟩ := b
  have has : as = bs := by
    refine List.ext_getElem hlen ?_
    intro i h1 h2
    have hi := h i h1
    simpa [get, h1, h2] using hi
  rw [has]

/-- Setting a list of positions one after the other. -/
theorem get_foldl_set (is : List ℕ) (b : Bits) (j : ℕ) (hj : j < b.len) :
    (is.foldl (fun b i => b.set i true) b).get j = (decide (j ∈ is) || b.get j) := by
  induction is generalizing b with
  | nil => simp
  | cons i is ih =>
    rw [List.foldl_cons, ih _ (by simpa using hj), get_set]
    by_cases hij : i = j
    · subst hij; simp [hj]
    · have : j ≠ i := fun h => hij h.symm
      simp [hij, this]

@[simp] theorem len_foldl_set (is : List ℕ) (b : Bits) :
    (is.foldl (fun b i => b.set i true) b).len = b.len := by
  induction is generalizing b with
  | nil => rfl
  | cons i is ih => rw [List.foldl_cons, ih, len_set]

end Bits

end Lib
