import Rtbit.Spec.ChunkTracker

/-! What each operation of `ChunkTracker` does to the bit of one piece and to the
counters. Later proofs use these facts and do not unfold the operations. -/

namespace Rtbit

open Lib

namespace ChunkTracker

variable {l : Lengths} (t : ChunkTracker l) (p q : ValidPieceIndex l)

theorem val_ne {p q : ValidPieceIndex l} (h : q ≠ p) : (q : ℕ) ≠ p :=
  fun he => h (Fin.ext he)

theorem queue_lt : (p : ℕ) < t.queuePieces.len := lt_of_lt_of_le p.isLt t.queue_len
theorem have_lt : (p : ℕ) < t.havePieces.len := lt_of_lt_of_le p.isLt t.have_len

/-- The bits of a piece lie inside the chunk bitfield. -/
theorem chunkRange_inRange : t.chunkStatus.InRange (l.chunkRange p).1 (l.chunkRange p).2 := by
  refine ⟨?_, t.chunk_len ▸ l.chunkRange_le p p.isLt⟩
  rw [l.chunkRange_eq p p.isLt]
  exact Nat.le_add_right _ _

theorem calcHns_congr {t t' : ChunkTracker l} (hh : t'.havePieces = t.havePieces)
    (hs : t'.selected = t.selected) : t'.calcHns = t.calcHns := by
  unfold calcHns
  rw [hh, hs]

theorem recalc_hns : t.recalcHns.hns = t.recalcHns.calcHns :=
  (calcHns_congr rfl rfl).symm

theorem cancelRecalc_same : t.cancelNotNeeded.recalcHns.havePieces = t.havePieces ∧
    t.cancelNotNeeded.recalcHns.selected = t.selected ∧
    t.cancelNotNeeded.recalcHns.perFileBytes = t.perFileBytes ∧
    t.cancelNotNeeded.recalcHns.queuePieces = t.queuePieces.and (t.selected.or t.havePieces) :=
  ⟨rfl, rfl, rfl, rfl⟩

/-! `new` -/

theorem new_ok {h sel : Bits} {fs : List FileInfo} {t : ChunkTracker l}
    (ht : new h sel fs = .ok t) :
    h.len = sel.len ∧ t.havePieces = h ∧ t.selected = sel ∧ t.queuePieces = h.not.and sel ∧
      t.perFileBytes = fs.map (fileHaveBytes l h) ∧ t.hns = t.calcHns := by
  unfold new at ht
  split at ht
  · cases ht
  next q hq =>
    obtain ⟨hl, rfl⟩ := computeQueuedPieces_ok hq
    split at ht
    · cases ht
    next st hst =>
      injection ht with ht
      subst ht
      refine ⟨hl, rfl, rfl, rfl, ?_, recalc_hns _⟩
      simp only [recalcHns, recalculatePerFileBytes, List.drop_replicate, Nat.sub_self, List.replicate_zero,
        List.append_nil]
      apply List.ext_getElem <;> simp

theorem new_queue {h sel : Bits} {fs : List FileInfo} {t : ChunkTracker l}
    (ht : new h sel fs = .ok t) (p : ValidPieceIndex l) :
    t.queuePieces.get p = (t.selected.get p && !t.havePieces.get p) := by
  obtain ⟨-, hh, hs, hq, -⟩ := new_ok ht
  rw [hq, Bits.get_and, Bits.get_not (hh ▸ t.have_lt p), hh, hs, Bool.and_comm]

/-! `reserve_needed_piece` -/

theorem reserve_queue : (t.reserveNeededPiece q).queuePieces.get p =
    if q = p then false else t.queuePieces.get p := by
  by_cases h : q = p
  · subst h
    simp [reserveNeededPiece, Bits.get_set_self _ (t.queue_lt q)]
  · simp [reserveNeededPiece, Bits.get_set_ne _ (val_ne h), h]

@[simp] theorem reserve_have : (t.reserveNeededPiece q).havePieces = t.havePieces := rfl
@[simp] theorem reserve_selected : (t.reserveNeededPiece q).selected = t.selected := rfl
@[simp] theorem reserve_perFile : (t.reserveNeededPiece q).perFileBytes = t.perFileBytes := rfl
@[simp] theorem reserve_hns : (t.reserveNeededPiece q).hns = t.hns := rfl

/-! `mark_piece_broken_if_not_have` -/

theorem broken_queue : (t.markPieceBrokenIfNotHave q).queuePieces.get p =
    if q = p ∧ t.havePieces.get q = false then true else t.queuePieces.get p := by
  unfold markPieceBrokenIfNotHave
  by_cases hh : t.havePieces.get q = true
  · rw [if_pos hh, if_neg (by simp [hh])]
  · rw [if_neg hh]
    change (t.queuePieces.set q true).get p = _
    by_cases h : q = p
    · subst h
      rw [if_pos ⟨rfl, by simpa using hh⟩]
      exact Bits.get_set_self _ (t.queue_lt q)
    · rw [if_neg (fun hc => h hc.1)]
      exact Bits.get_set_ne _ (val_ne h)

@[simp] theorem broken_have : (t.markPieceBrokenIfNotHave q).havePieces = t.havePieces := by
  unfold markPieceBrokenIfNotHave
  split_ifs <;> rfl

@[simp] theorem broken_selected : (t.markPieceBrokenIfNotHave q).selected = t.selected := by
  unfold markPieceBrokenIfNotHave
  split_ifs <;> rfl

@[simp] theorem broken_perFile : (t.markPieceBrokenIfNotHave q).perFileBytes = t.perFileBytes := by
  unfold markPieceBrokenIfNotHave
  split_ifs <;> rfl

@[simp] theorem broken_hns : (t.markPieceBrokenIfNotHave q).hns = t.hns := by
  unfold markPieceBrokenIfNotHave
  split_ifs <;> rfl

/-! `mark_piece_downloaded` -/

theorem downloaded_have : (t.markPieceDownloaded q).havePieces.get p =
    if q = p then true else t.havePieces.get p := by
  unfold markPieceDownloaded
  by_cases hh : t.havePieces.get q = true
  · rw [if_pos hh]
    by_cases h : q = p
    · subst h; rw [if_pos rfl, hh]
    · rw [if_neg h]
  · rw [if_neg hh]
    change (t.havePieces.set q true).get p = _
    by_cases h : q = p
    · subst h; rw [if_pos rfl]; exact Bits.get_set_self _ (t.have_lt q)
    · rw [if_neg h]; exact Bits.get_set_ne _ (val_ne h)

@[simp] theorem downloaded_queue : (t.markPieceDownloaded q).queuePieces = t.queuePieces := by
  unfold markPieceDownloaded
  split_ifs <;> rfl

@[simp] theorem downloaded_selected : (t.markPieceDownloaded q).selected = t.selected := by
  unfold markPieceDownloaded
  split_ifs <;> rfl

@[simp] theorem downloaded_perFile : (t.markPieceDownloaded q).perFileBytes = t.perFileBytes := by
  unfold markPieceDownloaded
  split_ifs <;> rfl

/-! `mark_chunk_downloaded` -/

/-- Only the chunk bitfield changes. -/
structure SamePieces (t t' : ChunkTracker l) : Prop where
  queue : t'.queuePieces = t.queuePieces
  have_ : t'.havePieces = t.havePieces
  selected : t'.selected = t.selected
  perFile : t'.perFileBytes = t.perFileBytes
  hns : t'.hns = t.hns

theorem SamePieces.refl (t : ChunkTracker l) : SamePieces t t := ⟨rfl, rfl, rfl, rfl, rfl⟩

theorem SamePieces.trans {t₁ t₂ t₃ : ChunkTracker l} (h1 : SamePieces t₁ t₂)
    (h2 : SamePieces t₂ t₃) : SamePieces t₁ t₃ :=
  ⟨h2.queue.trans h1.queue, h2.have_.trans h1.have_, h2.selected.trans h1.selected,
    h2.perFile.trans h1.perFile, h2.hns.trans h1.hns⟩

theorem chunk_same {t t' : ChunkTracker l} {m : PieceMsg} {r : ChunkMarkingResult}
    (h : t.markChunkDownloaded m = some (r, t')) : SamePieces t t' := by
  obtain ⟨p, -, h⟩ := Option.bind_eq_some_iff.1 h
  obtain ⟨c, -, h⟩ := Option.map_eq_some_iff.1 h
  simp only at h
  split_ifs at h <;> (obtain ⟨-, rfl⟩ := Prod.mk.inj h; exact ⟨rfl, rfl, rfl, rfl, rfl⟩)

/-- The piece a marked chunk belongs to. -/
theorem chunk_piece {t t' : ChunkTracker l} {m : PieceMsg} {r : ChunkMarkingResult}
    (h : t.markChunkDownloaded m = some (r, t')) : ∃ p : ValidPieceIndex l, m.index = p := by
  obtain ⟨p, hp, -⟩ := Option.bind_eq_some_iff.1 h
  exact ⟨p, (l.validatePieceIndex_eq_some).1 hp⟩

/-! `update_only_files` -/

theorem requeueOne_same (i : ℕ) :
    (t.requeueOne i).havePieces = t.havePieces ∧ (t.requeueOne i).selected = t.selected ∧
      (t.requeueOne i).perFileBytes = t.perFileBytes := by
  unfold requeueOne
  cases l.validatePieceIndex i <;> simp

theorem requeueOne_queue (i : ℕ) : (t.requeueOne i).queuePieces.get p =
    if (p : ℕ) = i ∧ t.havePieces.get p = false then true else t.queuePieces.get p := by
  unfold requeueOne
  cases hv : l.validatePieceIndex i with
  | none =>
    have hne : (p : ℕ) ≠ i := by
      rintro rfl
      simp at hv
    simp [hne]
  | some v =>
    obtain rfl : i = v := (l.validatePieceIndex_eq_some).1 hv
    simp only [broken_queue, ← Fin.ext_iff]
    by_cases hp : p = v
    · subst hp; rfl
    · have hp' : v ≠ p := fun h => hp h.symm
      simp [hp, hp']

theorem requeue_same (is : List ℕ) :
    (is.foldl requeueOne t).havePieces = t.havePieces ∧
      (is.foldl requeueOne t).selected = t.selected ∧
      (is.foldl requeueOne t).perFileBytes = t.perFileBytes := by
  induction is generalizing t with
  | nil => exact ⟨rfl, rfl, rfl⟩
  | cons i is ih =>
    obtain ⟨h1, h2, h3⟩ := requeueOne_same t i
    rw [List.foldl_cons, ← h1, ← h2, ← h3]
    exact ih _

theorem requeue_queue (is : List ℕ) : (is.foldl requeueOne t).queuePieces.get p =
    if (p : ℕ) ∈ is ∧ t.havePieces.get p = false then true else t.queuePieces.get p := by
  induction is generalizing t with
  | nil => simp
  | cons i is ih =>
    rw [List.foldl_cons, ih, (requeueOne_same t i).1, requeueOne_queue]
    simp only [List.mem_cons]
    cases t.havePieces.get p <;> split_ifs <;> simp_all

theorem newlySelected_get (sel : Bits) :
    (t.newlySelected sel).get p =
      (sel.get p && !t.selected.get p && !t.havePieces.get p) := by
  unfold newlySelected
  rw [Bits.get_foldl_set _ _ _ (by rw [Bits.len_zeros]; exact lt_of_lt_of_le p.isLt l.totalPieces_le)]
  simp only [Bits.get_zeros, Bool.or_false, List.mem_filter, Bits.mem_ones]
  cases sel.get p <;> cases t.selected.get p <;> cases t.havePieces.get p <;> rfl

variable (fs : List FileInfo) (only : Finset ℕ)

/-- `update_only_files` before the queue is masked. -/
def reselected : ChunkTracker l :=
  (t.newlySelected (selection l fs only)).ones.foldl requeueOne
    (t.replaceSelected (selection l fs only) (selection_len l fs only))

theorem update_eq : t.updateOnlyFiles fs only = (t.reselected fs only).cancelNotNeeded.recalcHns :=
  rfl

theorem reselected_same : (t.reselected fs only).havePieces = t.havePieces ∧
    (t.reselected fs only).selected = selection l fs only ∧
    (t.reselected fs only).perFileBytes = t.perFileBytes :=
  requeue_same _ _

@[simp] theorem update_have : (t.updateOnlyFiles fs only).havePieces = t.havePieces := by
  rw [update_eq, (cancelRecalc_same _).1, (t.reselected_same fs only).1]

@[simp] theorem update_selected : (t.updateOnlyFiles fs only).selected = selection l fs only := by
  rw [update_eq, (cancelRecalc_same _).2.1, (t.reselected_same fs only).2.1]

@[simp] theorem update_perFile : (t.updateOnlyFiles fs only).perFileBytes = t.perFileBytes := by
  rw [update_eq, (cancelRecalc_same _).2.2.1, (t.reselected_same fs only).2.2]

/-- A piece is queued afterwards if it was, or is newly selected, and is still wanted. -/
theorem update_queue : (t.updateOnlyFiles fs only).queuePieces.get p =
    ((t.queuePieces.get p ||
        ((selection l fs only).get p && !t.selected.get p && !t.havePieces.get p)) &&
      ((selection l fs only).get p || t.havePieces.get p)) := by
  have hlt : (p : ℕ) < (selection l fs only).len := lt_of_lt_of_le p.isLt (selection_len l fs only)
  rw [update_eq, (cancelRecalc_same _).2.2.2, (t.reselected_same fs only).1,
    (t.reselected_same fs only).2.1, Bits.get_and, Bits.get_or hlt, reselected, requeue_queue]
  simp only [replaceSelected, Bits.mem_ones, newlySelected_get]
  cases (selection l fs only).get p <;> cases t.selected.get p <;> cases t.havePieces.get p <;>
    cases t.queuePieces.get p <;> rfl

theorem update_hns : (t.updateOnlyFiles fs only).hns = (t.updateOnlyFiles fs only).calcHns := by
  rw [update_eq]
  exact recalc_hns _

end ChunkTracker

end Rtbit
