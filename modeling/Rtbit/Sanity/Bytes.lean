import Rtbit.Lib.Weight
import Rtbit.Sanity.ChunkTracker

/-! Byte counts of sets of pieces. `calc_hns` is three of them; the pieces of a
torrent add up to its length. -/

namespace Rtbit

open Lib Finset

namespace Lengths

variable (l : Lengths)

/-- The bytes in the pieces that satisfy `f`. -/
def bytesOf (f : ℕ → Bool) : ℕ := weight l.totalPieces l.pieceLength f

theorem sum_pieceLength_lt {k : ℕ} (hk : k ≤ l.totalPieces) :
    ∑ p ∈ range k, l.pieceLength p = min (k * l.defaultPieceLength) l.totalLength := by
  induction k with
  | zero => simp
  | succ k ih =>
    rw [sum_range_succ, ih (Nat.le_of_succ_le hk), l.pieceLength_eq k hk, Nat.add_mul, Nat.one_mul]
    have h := l.start_lt k hk
    omega

theorem sum_pieceLength : ∑ p ∈ range l.totalPieces, l.pieceLength p = l.totalLength := by
  rw [l.sum_pieceLength_lt le_rfl]
  exact Nat.min_eq_right l.totalLength_le

theorem bytesOf_le (f : ℕ → Bool) : l.bytesOf f ≤ l.totalLength := by
  rw [← l.sum_pieceLength]
  exact weight_le_total

/-- The sum over the pieces of `iter_piece_infos` of the lengths where `f` holds. -/
theorem sum_iterPieceInfos (f : ℕ → Bool) :
    (l.iterPieceInfos.map fun piece => piece.len * (f piece.pieceIndex).toNat).sum = l.bytesOf f := by
  rw [(l.iterPieceInfos_perm.map _).sum_eq, List.map_map]
  exact sum_map_range_mul l.pieceLength f

end Lengths

namespace ChunkTracker

variable {l : Lengths} (t : ChunkTracker l)

/-- Selected and missing. -/
def needed (i : ℕ) : Bool := t.selected.get i && !t.havePieces.get i

theorem calcHns_eq : t.calcHns =
    ⟨l.bytesOf t.havePieces.get, l.bytesOf t.needed, l.bytesOf t.selected.get⟩ := by
  have key : ∀ (ps : List PieceInfo) (h : HaveNeededSelected),
      ps.foldl (fun hns piece =>
        let isHave := t.havePieces.get piece.pieceIndex
        let isSelected := t.selected.get piece.pieceIndex
        let isNeeded := isSelected && !isHave
        (⟨hns.haveBytes + piece.len * isHave.toNat, hns.neededBytes + piece.len * isNeeded.toNat,
          hns.selectedBytes + piece.len * isSelected.toNat⟩ : HaveNeededSelected)) h =
      ⟨h.haveBytes + (ps.map fun piece => piece.len * (t.havePieces.get piece.pieceIndex).toNat).sum,
        h.neededBytes + (ps.map fun piece => piece.len * (t.needed piece.pieceIndex).toNat).sum,
        h.selectedBytes +
          (ps.map fun piece => piece.len * (t.selected.get piece.pieceIndex).toNat).sum⟩ := by
    intro ps
    induction ps with
    | nil => intro h; simp
    | cons x ps ih =>
      intro h
      rw [List.foldl_cons, ih]
      simp only [List.map_cons, List.sum_cons, needed, Nat.add_assoc]
  unfold calcHns
  rw [key]
  simp only [l.sum_iterPieceInfos, HaveNeededSelected.zero, Nat.zero_add]

end ChunkTracker

end Rtbit
