import Rtbit.Spec.Lengths
import Rtbit.Spec.Types

/-! The file list of a torrent: the files follow each other in torrent order, and
the piece range of a file is that of the pieces that have a byte of it. -/

namespace Rtbit

structure FileLayout (l : Lengths) (fs : List FileInfo) : Prop where
  offset_eq : ∀ (i : ℕ) (fi : FileInfo), fs[i]? = some fi →
    fi.offsetInTorrent = ((fs.take i).map FileInfo.len).sum
  total : (fs.map FileInfo.len).sum = l.totalLength
  /-- An empty file has no pieces. -/
  contains_iff : ∀ fi ∈ fs, ∀ p, fi.contains p = true ↔
    p < l.totalPieces ∧ 0 < l.sizeOfPieceInFile p fi.offsetInTorrent fi.len

/-- The same, but an empty file may have any range of pieces. -/
structure LooseLayout (l : Lengths) (fs : List FileInfo) : Prop where
  offset_eq : ∀ (i : ℕ) (fi : FileInfo), fs[i]? = some fi →
    fi.offsetInTorrent = ((fs.take i).map FileInfo.len).sum
  total : (fs.map FileInfo.len).sum = l.totalLength
  contains_iff : ∀ fi ∈ fs, 0 < fi.len → ∀ p, fi.contains p = true ↔
    p < l.totalPieces ∧ 0 < l.sizeOfPieceInFile p fi.offsetInTorrent fi.len

/-- No empty file stands between two files that share a piece. -/
def NoEmptyBetween (fs : List FileInfo) : Prop :=
  ∀ (i j k : ℕ) (fi fj fk : FileInfo), fs[i]? = some fi → fs[j]? = some fj → fs[k]? = some fk →
    i < j → j < k → fj.len = 0 → ∀ p, ¬(fi.contains p = true ∧ fk.contains p = true)

end Rtbit
