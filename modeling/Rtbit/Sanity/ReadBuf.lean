import Rtbit.Spec.ReadBuf

/-! The bytes in a `ReadBuf`, oldest first, and what its operations do to them. -/

namespace Rtbit

open Lib

namespace ReadBuf

/-- The bounds that every operation keeps. -/
structure Ok (b : ReadBuf) : Prop where
  start_lt : b.start < bufLen
  len_le : b.len ≤ bufLen

/-- The bytes received and not yet consumed. -/
def bytes (b : ReadBuf) : List UInt8 := window bufLen b.buf b.start b.len

variable {b : ReadBuf}

theorem bufLen_pos : 0 < bufLen := by decide

@[simp] theorem length_bytes (b : ReadBuf) : b.bytes.length = b.len := length_window _ _ _ _

theorem new_ok : new.Ok := ⟨bufLen_pos, Nat.zero_le _⟩

@[simp] theorem bytes_new : new.bytes = [] := rfl

theorem Ok.ranges (h : b.Ok) : b.asSliceRanges =
    ((b.start, b.start + min b.len (bufLen - b.start)),
      (0, b.len - min b.len (bufLen - b.start))) := by
  unfold asSliceRanges
  rw [Nat.min_eq_left h.len_le, Nat.min_eq_left h.start_lt.le]

theorem Ok.asSlices_eq (h : b.Ok) : b.asSlices.1 ++ b.asSlices.2 = b.bytes := by
  simp only [asSlices, h.ranges]
  exact window_eq_cells h.start_lt h.len_le

theorem Ok.length_second (h : b.Ok) : b.asSlices.2.length = b.start + b.len - bufLen := by
  have hs := h.start_lt
  simp only [asSlices, h.ranges, length_cells]
  omega

theorem Ok.advance (h : b.Ok) (n : ℕ) : (b.advance n).Ok ∧ (b.advance n).bytes = b.bytes.drop n :=
  ⟨⟨Nat.mod_lt _ bufLen_pos, (Nat.sub_le _ _).trans h.len_le⟩, (drop_window n).symm⟩

/-! Filling the free part. -/

theorem Ok.writeStart (h : b.Ok) :
    b.start + b.len < bufLen ∧ (b.start + b.len) % bufLen = b.start + b.len ∨
      bufLen ≤ b.start + b.len ∧ (b.start + b.len) % bufLen = b.start + b.len - bufLen := by
  rcases Nat.lt_or_ge (b.start + b.len) bufLen with hlt | hge
  · exact Or.inl ⟨hlt, wrap_of_lt hlt⟩
  · exact Or.inr ⟨hge, wrap_of_ge h.start_lt h.len_le hge⟩

/-- The two parts to read into: up to the end of the array or the start of the window, and the
rest of the free cells. -/
theorem Ok.unfilled (h : b.Ok) : b.unfilledIoslices =
    (((b.start + b.len) % bufLen, (b.start + b.len) % bufLen +
        min (bufLen - (b.start + b.len) % bufLen) (bufLen - b.len)),
      (0, bufLen - b.len - min (bufLen - (b.start + b.len) % bufLen) (bufLen - b.len))) := by
  have hs := h.start_lt
  have hl := h.len_le
  have hw := h.writeStart
  unfold unfilledIoslices
  generalize (b.start + b.len) % bufLen = ws at *
  have hfirst : min (min (bufLen - ws) (bufLen - b.len)) (bufLen - ws) =
      min (bufLen - ws) (bufLen - b.len) := by omega
  have hsecond : min (bufLen - b.len - min (bufLen - ws) (bufLen - b.len)) ws =
      bufLen - b.len - min (bufLen - ws) (bufLen - b.len) := by omega
  simp only [hfirst, hsecond]

theorem Ok.fill (h : b.Ok) {data : List UInt8} (hd : data.length ≤ bufLen - b.len) :
    (b.fill data).Ok ∧ (b.fill data).bytes = b.bytes ++ data := by
  have hl := h.len_le
  refine ⟨⟨h.start_lt, by simp only [ReadBuf.fill]; omega⟩, ?_⟩
  have hput := @window_put _ bufLen b.start b.len b.buf
    (data.take (min (bufLen - (b.start + b.len) % bufLen) (bufLen - b.len)))
    (data.drop (min (bufLen - (b.start + b.len) % bufLen) (bufLen - b.len))) h.start_lt hl
    (by rw [List.length_take, List.length_drop]; omega) (by rw [List.length_take]; omega)
    (by
      rw [List.length_take, List.drop_eq_nil_iff]
      omega)
  rw [List.take_append_drop, ← List.length_append, List.take_append_drop] at hput
  simp only [bytes, ReadBuf.fill, h.unfilled, Nat.add_sub_cancel_left]
  exact hput

/-- The free cells and the cells of the window. -/
def InRange (i : ℕ) (r : ℕ × ℕ) : Prop := r.1 ≤ i ∧ i < r.2

theorem Ok.unfilled_disjoint (h : b.Ok) {i : ℕ}
    (hw : InRange i b.unfilledIoslices.1 ∨ InRange i b.unfilledIoslices.2) :
    i < bufLen ∧ ¬ InRange i b.asSliceRanges.1 ∧ ¬ InRange i b.asSliceRanges.2 := by
  have hs := h.start_lt
  have hl := h.len_le
  have hwrap := h.writeStart
  rw [h.unfilled] at hw
  rw [h.ranges]
  simp only [InRange] at hw ⊢
  generalize (b.start + b.len) % bufLen = ws at *
  omega

theorem Ok.length_unfilled (h : b.Ok) :
    (b.unfilledIoslices.1.2 - b.unfilledIoslices.1.1) +
      (b.unfilledIoslices.2.2 - b.unfilledIoslices.2.1) = bufLen - b.len := by
  have hs := h.start_lt
  have hl := h.len_le
  have hwrap := h.writeStart
  rw [h.unfilled]
  simp only
  generalize (b.start + b.len) % bufLen = ws at *
  omega

/-! Joining the slices. -/

theorem Ok.makeContiguous_eq_none (h : b.Ok) :
    b.makeContiguous = none ↔ b.start + b.len < bufLen := by
  have hwrap := h.writeStart
  unfold makeContiguous isContiguous
  split_ifs with hc
  · simp only [beq_iff_eq] at hc
    simp only [true_iff]
    have hlt := Nat.mod_lt (b.start + b.len) bufLen_pos
    omega
  · simp only [beq_iff_eq] at hc
    simp only [false_iff]
    intro hlt
    exact hc (wrap_of_lt hlt).symm

theorem Ok.makeContiguous (h : b.Ok) {b' : ReadBuf} (he : b.makeContiguous = some b') :
    b'.Ok ∧ b'.bytes = b.bytes ∧ b'.asSlices.2 = [] := by
  have hl := h.len_le
  unfold ReadBuf.makeContiguous at he
  split_ifs at he
  obtain rfl := Option.some.inj he
  have hlen : b.asSlices.1.length + b.asSlices.2.length = b.len := by
    rw [← List.length_append, h.asSlices_eq, length_bytes]
  have hok : Ok ⟨put (put (fun _ => 0) 0 b.asSlices.1) b.asSlices.1.length b.asSlices.2, 0, b.len⟩ :=
    ⟨bufLen_pos, hl⟩
  refine ⟨hok, ?_, ?_⟩
  · have hcopy := @window_copy _ bufLen (fun _ => (0 : UInt8)) b.asSlices.1 b.asSlices.2 (by omega)
    rw [hlen, h.asSlices_eq] at hcopy
    exact hcopy
  · apply List.eq_nil_of_length_eq_zero
    rw [hok.length_second]
    simp only
    omega

end ReadBuf

end Rtbit
