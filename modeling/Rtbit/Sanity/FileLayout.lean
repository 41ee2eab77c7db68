import Rtbit.Lib.Contiguous
import Rtbit.Lib.Segments
import Rtbit.Sanity.Bytes
import Rtbit.Spec.FileLayout

/-! The bytes of a file by piece: they add up to the length of the file, and the
files that share a piece stand next to each other. -/

namespace Rtbit

open Lib Finset

namespace FileInfo

/-- The bytes of the file in the piece `p`. -/
def bytesIn (l : Lengths) (fi : FileInfo) (p : ℕ) : ℕ :=
  l.sizeOfPieceInFile p fi.offsetInTorrent fi.len

/-- The bytes of the file in the pieces that satisfy `f`. -/
def bytesOf (l : Lengths) (f : ℕ → Bool) (fi : FileInfo) : ℕ :=
  weight l.totalPieces (fi.bytesIn l) f

variable {l : Lengths} {fi : FileInfo}

theorem sum_bytesIn_lt {k : ℕ} (hk : k ≤ l.totalPieces) : ∑ p ∈ range k, fi.bytesIn l p =
      min (min (k * l.defaultPieceLength) l.totalLength) (fi.offsetInTorrent + fi.len) -
        fi.offsetInTorrent := by
  induction k with
  | zero => simp
  | succ k ih =>
    have hlt := l.start_lt k hk
    have hend : k * l.defaultPieceLength + l.pieceLength k =
        min ((k + 1) * l.defaultPieceLength) l.totalLength := by
      rw [l.pieceLength_eq k hk, Nat.add_mul, Nat.one_mul]
      omega
    have hle : k * l.defaultPieceLength ≤ min ((k + 1) * l.defaultPieceLength) l.totalLength := by
      rw [← hend]
      exact Nat.le_add_right _ _
    rw [sum_range_succ, ih (Nat.le_of_succ_le hk), bytesIn, l.sizeOfPieceInFile_eq k hk, hend,
      Nat.min_eq_left hlt.le]
    generalize min ((k + 1) * l.defaultPieceLength) l.totalLength = stop at *
    generalize k * l.defaultPieceLength = start at *
    omega

theorem sum_bytesIn (h : fi.offsetInTorrent + fi.len ≤ l.totalLength) :
    ∑ p ∈ range l.totalPieces, fi.bytesIn l p = fi.len := by
  rw [sum_bytesIn_lt le_rfl, Nat.min_eq_right l.totalLength_le, Nat.min_eq_right h,
    Nat.add_sub_cancel_left]

end FileInfo

namespace LooseLayout

variable {l : Lengths} {fs : List FileInfo} {fi : FileInfo} {i : ℕ}

theorem of_layout (h : FileLayout l fs) : LooseLayout l fs :=
  ⟨h.offset_eq, h.total, fun fi hfi _ => h.contains_iff fi hfi⟩

theorem end_le_total (hl : LooseLayout l fs) (hi : fs[i]? = some fi) :
    fi.offsetInTorrent + fi.len ≤ l.totalLength := by
  rw [hl.offset_eq i fi hi, ← hl.total]
  exact take_sum_add_le hi

/-- A file ends before the ones behind it. -/
theorem end_le {fj : FileInfo} {j : ℕ} (hl : LooseLayout l fs) (hi : fs[i]? = some fi)
    (hj : fs[j]? = some fj) (hij : i < j) : fi.offsetInTorrent + fi.len ≤ fj.offsetInTorrent := by
  have htake : (fs.take j)[i]? = some fi := by
    rw [List.getElem?_take_of_lt hij, hi]
  have hle : (((fs.take j).take i).map FileInfo.len).sum + fi.len ≤
      ((fs.take j).map FileInfo.len).sum := take_sum_add_le htake
  rw [List.take_take, Nat.min_eq_left hij.le] at hle
  rw [hl.offset_eq i fi hi, hl.offset_eq j fj hj]
  exact hle

/-- A file that is not empty has a piece. -/
theorem exists_contains (hl : LooseLayout l fs) (hi : fs[i]? = some fi) (hpos : 0 < fi.len) :
    ∃ p, fi.contains p = true := by
  have hsum : ∑ p ∈ Finset.range l.totalPieces, fi.bytesIn l p ≠ 0 := by
    rw [FileInfo.sum_bytesIn (hl.end_le_total hi)]
    exact hpos.ne'
  obtain ⟨p, hp, hne⟩ := Finset.exists_ne_zero_of_sum_ne_zero hsum
  exact ⟨p, (hl.contains_iff fi (List.mem_of_getElem? hi) hpos p).2
    ⟨Finset.mem_range.1 hp, Nat.pos_of_ne_zero hne⟩⟩

/-- The pieces of a file that is not empty are pieces of the torrent. -/
theorem range_le (hl : LooseLayout l fs) (hi : fs[i]? = some fi) (hpos : 0 < fi.len) :
    fi.pieceRange.2 ≤ l.totalPieces := by
  obtain ⟨p, hp⟩ := hl.exists_contains hi hpos
  have hlast : fi.contains (fi.pieceRange.2 - 1) = true := by
    simp only [FileInfo.contains, decide_eq_true_eq] at hp ⊢
    omega
  have hlt := ((hl.contains_iff fi (List.mem_of_getElem? hi) hpos _).1 hlast).1
  omega

/-- A file of which some bytes are missing is not empty. -/
theorem len_pos (hl : LooseLayout l fs) (hi : fs[i]? = some fi) {f : ℕ → Bool}
    (hne : fi.bytesOf l f ≠ fi.len) : 0 < fi.len := by
  have hle : fi.bytesOf l f ≤ ∑ q ∈ Finset.range l.totalPieces, fi.bytesIn l q := weight_le_total
  rw [FileInfo.sum_bytesIn (hl.end_le_total hi)] at hle
  omega

/-- Every piece has a byte of some file. -/
theorem exists_file (hl : LooseLayout l fs) (p : ValidPieceIndex l) :
    ∃ (i : ℕ) (fi : FileInfo), fs[i]? = some fi ∧ 0 < fi.len ∧ 0 < fi.bytesIn l p := by
  have hstart := l.start_lt p p.isLt
  have hlen := l.pieceLength_pos p
  rw [← hl.total] at hstart
  obtain ⟨i, fi, hi, hle, hlt⟩ := exists_block hstart
  rw [← hl.offset_eq i fi hi] at hle hlt
  refine ⟨i, fi, hi, by omega, ?_⟩
  rw [FileInfo.bytesIn, l.sizeOfPieceInFile_eq p p.isLt]
  generalize (p : ℕ) * l.defaultPieceLength = start at hle hlt
  omega

end LooseLayout

namespace FileLayout

variable {l : Lengths} {fs : List FileInfo} {fi fj : FileInfo} {i j : ℕ}

theorem end_le (hl : FileLayout l fs) (hi : fs[i]? = some fi) (hj : fs[j]? = some fj) (hij : i < j) :
    fi.offsetInTorrent + fi.len ≤ fj.offsetInTorrent :=
  (LooseLayout.of_layout hl).end_le hi hj hij

theorem end_le_total (hl : FileLayout l fs) (hi : fs[i]? = some fi) :
    fi.offsetInTorrent + fi.len ≤ l.totalLength :=
  (LooseLayout.of_layout hl).end_le_total hi

/-- A piece outside the range has no byte of the file. -/
theorem bytesIn_of_not_contains (hl : FileLayout l fs) (hfi : fi ∈ fs) {p : ℕ}
    (hp : p < l.totalPieces) (h : fi.contains p = false) : fi.bytesIn l p = 0 := by
  by_contra hne
  have hc := (hl.contains_iff fi hfi p).2 ⟨hp, Nat.pos_of_ne_zero hne⟩
  simp [h] at hc

/-- The files of a piece are contiguous: a non-empty file between two of them lies inside
the piece. -/
theorem contiguous (hl : FileLayout l fs) (hne : NoEmptyBetween fs) (p : ℕ) :
    Contiguous (fun x : FileInfo × ℕ => x.1.contains p) fs.zipIdx := by
  intro a b c hs ha hc
  have hidx := sublist_zipIdx hs
  simp only [List.map_cons, List.map_nil, List.pairwise_cons, List.mem_cons, List.not_mem_nil,
    or_false, forall_eq_or_imp, forall_eq] at hidx
  obtain ⟨⟨hab, -⟩, hbc, -⟩ := hidx
  have hget (x : FileInfo × ℕ) (hx : x ∈ [a, b, c]) : fs[x.2]? = some x.1 :=
    List.mem_zipIdx_iff_getElem?.1 (hs.subset hx)
  have hga := hget a (by simp)
  have hgb := hget b (by simp)
  have hgc := hget c (by simp)
  have hpos : 0 < b.1.len := by
    rcases Nat.eq_zero_or_pos b.1.len with h0 | h0
    · exact absurd ⟨ha, hc⟩ (hne _ _ _ _ _ _ hga hgb hgc hab hbc h0 p)
    · exact h0
  have hmem (x : FileInfo × ℕ) (h : fs[x.2]? = some x.1) : x.1 ∈ fs := List.mem_of_getElem? h
  obtain ⟨hp, hsa⟩ := (hl.contains_iff _ (hmem a hga) p).1 ha
  obtain ⟨-, hsc⟩ := (hl.contains_iff _ (hmem c hgc) p).1 hc
  refine (hl.contains_iff _ (hmem b hgb) p).2 ⟨hp, ?_⟩
  have h1 := hl.end_le hga hgb hab
  have h2 := hl.end_le hgb hgc hbc
  rw [l.sizeOfPieceInFile_eq p hp] at hsa hsc ⊢
  omega

/-- What `recalculate_per_file_bytes` computes. -/
theorem fileHaveBytes_eq (hl : FileLayout l fs) (hfi : fi ∈ fs) (h : Bits) :
    ChunkTracker.fileHaveBytes l h fi = fi.bytesOf l h.get := by
  have hnd : ((List.range' fi.pieceRange.1 (fi.pieceRange.2 - fi.pieceRange.1)).filter h.get).Nodup :=
    List.Nodup.filter _ (List.nodup_range' _)
  unfold ChunkTracker.fileHaveBytes FileInfo.bytesOf weight
  rw [← List.sum_toFinset _ hnd]
  refine sum_subset ?_ ?_
  · intro p hp
    simp only [List.mem_toFinset, List.mem_filter, List.mem_range'_1] at hp
    have hc : fi.contains p = true := by
      simp only [FileInfo.contains, decide_eq_true_eq]
      omega
    exact mem_filter.2 ⟨mem_range.2 ((hl.contains_iff fi hfi p).1 hc).1, hp.2⟩
  · intro p hp hnot
    obtain ⟨hlt, hget⟩ := mem_filter.1 hp
    refine hl.bytesIn_of_not_contains hfi (mem_range.1 hlt) ?_
    by_contra hc
    have hc : fi.contains p = true := by simpa using hc
    simp only [FileInfo.contains, decide_eq_true_eq] at hc
    apply hnot
    simp only [List.mem_toFinset, List.mem_filter, List.mem_range'_1]
    exact ⟨by omega, hget⟩

/-- A layout can be checked file by file and piece by piece. -/
theorem of_check (hoff : ∀ i : Fin fs.length,
      (fs.get i).offsetInTorrent = ((fs.take i).map FileInfo.len).sum)
    (htotal : (fs.map FileInfo.len).sum = l.totalLength)
    (hpieces : ∀ i : Fin fs.length, (fs.get i).pieceRange.2 ≤ l.totalPieces ∧
      ∀ p : ValidPieceIndex l, (fs.get i).contains p = decide (0 < (fs.get i).bytesIn l p)) :
    FileLayout l fs := by
  refine ⟨?_, htotal, ?_⟩
  · intro i fi hi
    obtain ⟨hlt, rfl⟩ := List.getElem?_eq_some_iff.1 hi
    exact hoff ⟨i, hlt⟩
  · intro fi hfi p
    obtain ⟨i, rfl⟩ := List.get_of_mem hfi
    obtain ⟨hle, hp⟩ := hpieces i
    constructor
    · intro hc
      have hlt : p < l.totalPieces := by
        simp only [FileInfo.contains, decide_eq_true_eq] at hc
        omega
      refine ⟨hlt, ?_⟩
      have hpos := hp ⟨p, hlt⟩
      rw [hc] at hpos
      exact of_decide_eq_true hpos.symm
    · rintro ⟨hlt, hpos⟩
      rw [hp ⟨p, hlt⟩]
      exact decide_eq_true hpos

end FileLayout

end Rtbit
