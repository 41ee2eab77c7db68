import Rtbit.Sanity.Bytes
import Rtbit.Sanity.Torrent

/-! The cached counters `hns` agree with the bit fields at all times, and no
subtraction on them underflows. -/

namespace Rtbit

open Lib

namespace ChunkTracker

variable {l : Lengths} {t : ChunkTracker l} {fs : List FileInfo}

/-- `hns` is what `calc_hns` would compute. -/
def Counted (t : ChunkTracker l) : Prop := t.hns = t.calcHns

theorem Counted.of_same {t' : ChunkTracker l} (h : t.Counted) (hn : t'.hns = t.hns)
    (hh : t'.havePieces = t.havePieces) (hs : t'.selected = t.selected) : t'.Counted := by
  unfold Counted
  rw [hn, calcHns_congr hh hs]
  exact h

theorem Counted.needed_le_selected (h : t.Counted) : t.hns.neededBytes ≤ t.hns.selectedBytes := by
  rw [h, calcHns_eq]
  exact weight_mono fun p _ hp => (Bool.and_eq_true_iff.1 hp).1

theorem Counted.selected_le_total (h : t.Counted) : t.hns.selectedBytes ≤ l.totalLength := by
  rw [h, calcHns_eq]
  exact l.bytesOf_le _

theorem Counted.have_le_total (h : t.Counted) : t.hns.haveBytes ≤ l.totalLength := by
  rw [h, calcHns_eq]
  exact l.bytesOf_le _

/-- The subtraction in `mark_piece_downloaded` does not underflow. -/
theorem Counted.pieceLength_le_needed (h : t.Counted) {p : ValidPieceIndex l}
    (hs : t.selected.get p = true) (hh : t.havePieces.get p = false) :
    l.pieceLength p ≤ t.hns.neededBytes := by
  rw [h, calcHns_eq]
  exact le_weight p.isLt (by simp [needed, hs, hh])

theorem Counted.progress_eq (h : t.Counted) :
    t.hns.progress = t.hns.selectedBytes - t.hns.neededBytes :=
  u64Sub_of_le h.needed_le_selected (lt_of_le_of_lt h.selected_le_total l.totalLength_lt)

theorem Counted.finished_iff (h : t.Counted) : t.isFinished = true ↔
    ∀ p : ValidPieceIndex l, t.selected.get p = true → t.havePieces.get p = true := by
  have hz : t.isFinished = true ↔ l.bytesOf t.needed = 0 := by
    unfold isFinished HaveNeededSelected.finished
    rw [h, calcHns_eq]
    exact beq_iff_eq
  rw [hz, Lengths.bytesOf, weight_eq_zero fun p hp => l.pieceLength_pos ⟨p, hp⟩, Fin.forall_iff]
  refine forall_congr' fun p => forall_congr' ?_
  intro _
  unfold needed
  cases t.selected.get p <;> cases t.havePieces.get p <;> simp

section Downloaded

variable {p : ValidPieceIndex l}

theorem downloaded_hns (hh : t.havePieces.get p = false) : (t.markPieceDownloaded p).hns =
    ⟨t.hns.haveBytes + l.pieceLength p,
      if t.selected.get p then u64Sub t.hns.neededBytes (l.pieceLength p) else t.hns.neededBytes,
      t.hns.selectedBytes⟩ := by
  rw [markPieceDownloaded, if_neg (by simp [hh])]

theorem downloaded_have_ne {q : ValidPieceIndex l} (hq : q ≠ p) :
    (t.markPieceDownloaded p).havePieces.get q = t.havePieces.get q := by
  rw [downloaded_have, if_neg (fun he => hq he.symm)]

theorem downloaded_haveBytes (hh : t.havePieces.get p = false) :
    l.bytesOf (t.markPieceDownloaded p).havePieces.get =
      l.bytesOf t.havePieces.get + l.pieceLength p :=
  weight_insert p.isLt hh (by rw [downloaded_have, if_pos rfl])
    fun q hq hne => downloaded_have_ne (q := ⟨q, hq⟩) (fun he => hne (Fin.ext_iff.1 he))

/-- A selected piece leaves the needed ones. -/
theorem downloaded_needed_selected (hs : t.selected.get p = true) (hh : t.havePieces.get p = false) :
    l.bytesOf t.needed = l.bytesOf (t.markPieceDownloaded p).needed + l.pieceLength p := by
  refine weight_insert p.isLt ?_ (by simp [needed, hs, hh]) ?_
  · simp [needed, downloaded_have]
  · intro q hq hne
    have hsame := downloaded_have_ne (t := t) (q := ⟨q, hq⟩) (fun he => hne (Fin.ext_iff.1 he))
    simp only [needed, downloaded_selected, hsame]

theorem downloaded_needed_unselected (hs : t.selected.get p = false) :
    l.bytesOf (t.markPieceDownloaded p).needed = l.bytesOf t.needed := by
  refine weight_congr ?_
  intro q hq
  by_cases hne : (⟨q, hq⟩ : ValidPieceIndex l) = p
  · subst hne
    simp [needed, hs]
  · have hsame := downloaded_have_ne (t := t) hne
    simp only [needed, downloaded_selected, hsame]

theorem Counted.downloaded (h : t.Counted) (p : ValidPieceIndex l) :
    (t.markPieceDownloaded p).Counted := by
  cases hh : t.havePieces.get p with
  | true =>
    have hsame : t.markPieceDownloaded p = t := by
      rw [markPieceDownloaded, if_pos hh]
    rwa [hsame]
  | false =>
    have hcalc := h.trans t.calcHns_eq
    have hneeded : (if t.selected.get p then u64Sub t.hns.neededBytes (l.pieceLength p)
        else t.hns.neededBytes) = l.bytesOf (t.markPieceDownloaded p).needed := by
      have hn : t.hns.neededBytes = l.bytesOf t.needed := by rw [hcalc]
      cases hs : t.selected.get p with
      | true =>
        have hlt : t.hns.neededBytes < 2 ^ 64 :=
          lt_of_le_of_lt (h.needed_le_selected.trans h.selected_le_total) l.totalLength_lt
        rw [if_pos rfl, u64Sub_of_le (h.pieceLength_le_needed hs hh) hlt, hn,
          downloaded_needed_selected hs hh, Nat.add_sub_cancel]
      | false => rw [if_neg (by simp), hn, downloaded_needed_unselected hs]
    unfold Counted
    rw [downloaded_hns hh, hneeded, calcHns_eq, downloaded_haveBytes hh, downloaded_selected, hcalc]

end Downloaded

theorem Counted.apply (h : t.Counted) (op : ChunkOp l) : (t.apply fs op).Counted := by
  cases op with
  | reserve p => exact h.of_same rfl rfl rfl
  | broken p => exact h.of_same (t.broken_hns p) (t.broken_have p) (t.broken_selected p)
  | downloaded p => exact h.downloaded p
  | chunk m =>
    change (((t.markChunkDownloaded m).map Prod.snd).getD t).Counted
    cases hm : t.markChunkDownloaded m with
    | none => exact h
    | some x =>
      obtain ⟨r, t'⟩ := x
      have hs := chunk_same hm
      exact h.of_same hs.hns hs.have_ hs.selected
  | updateOnlyFiles only => exact t.update_hns fs only

theorem counted_foldl (h : t.Counted) (ops : List (ChunkOp l)) :
    (ops.foldl (ChunkTracker.apply fs) t).Counted := by
  induction ops generalizing t with
  | nil => exact h
  | cons op ops ih => exact ih (h.apply op)

/-- After every sequence of operations the counters are those of the bit fields, the
subtractions on them are exact, and the torrent is finished exactly when every selected
piece is have. -/
theorem progress_accounting (l : Lengths) (fs : List FileInfo) (h sel : Bits) (c : ChunkTracker l)
    (hc : ChunkTracker.new h sel fs = .ok c) (ops : List (ChunkOp l)) (t : ChunkTracker l)
    (ht : t = ops.foldl (ChunkTracker.apply fs) c) :
    t.hns = t.calcHns ∧
      t.hns.neededBytes ≤ t.hns.selectedBytes ∧ t.hns.selectedBytes ≤ l.totalLength ∧
      t.hns.haveBytes ≤ l.totalLength ∧
      (∀ p : ValidPieceIndex l, t.selected.get p = true → t.havePieces.get p = false →
        l.pieceLength p ≤ t.hns.neededBytes) ∧
      t.hns.progress = t.hns.selectedBytes - t.hns.neededBytes ∧
      (t.isFinished = true ↔
        ∀ p : ValidPieceIndex l, t.selected.get p = true → t.havePieces.get p = true) := by
  obtain ⟨-, -, -, -, -, hnew⟩ := new_ok hc
  have hcount : t.Counted := ht ▸ counted_foldl hnew ops
  exact ⟨hcount, hcount.needed_le_selected, hcount.selected_le_total, hcount.have_le_total,
    fun p hs hh => hcount.pieceLength_le_needed hs hh, hcount.progress_eq, hcount.finished_iff⟩

/-- A piece downloaded twice, and a selection change in between. -/
def downloadTwice : List (ChunkOp twoPieces) :=
  [.reserve firstPiece, .downloaded firstPiece, .updateOnlyFiles {1}, .downloaded firstPiece,
    .broken secondPiece]

theorem downloadTwice_accounting : ∃ c : ChunkTracker twoPieces,
    ChunkTracker.new (somePieces 0 0) (somePieces 0 2) twoFiles = .ok c ∧
      (downloadTwice.foldl (ChunkTracker.apply twoFiles) c).hns =
        (downloadTwice.foldl (ChunkTracker.apply twoFiles) c).calcHns := by
  have hnew : ∃ c t,
      ChunkTracker.new (l := twoPieces) (somePieces 0 0) (somePieces 0 2) twoFiles = .ok c ∧
        Run (Torrent.step twoFiles) Any (Torrent.start c) [] t ∧ true = true :=
    exists_run (by decide +kernel)
  obtain ⟨c, -, hc, -⟩ := hnew
  exact ⟨c, hc, (progress_accounting _ _ _ _ _ hc downloadTwice _ rfl).1⟩

end ChunkTracker

end Rtbit
