import Rtbit.Sanity.ChunkTracker

/-! The chunk bitfield by piece and chunk. The ranges of two pieces have no bit in common, although
the range of the last piece may be shorter; so a chunk that arrives and a piece that is marked as
broken change bits of their own piece only. -/

namespace Rtbit

open Lib

namespace Lengths

variable {l : Lengths} {p q : ValidPieceIndex l} {i j : ℕ}

/-- The position of a chunk of a piece. -/
def chunkPos (l : Lengths) (p : ValidPieceIndex l) (i : ℕ) : ℕ := (l.chunkRange p).1 + i

theorem chunkPos_eq : l.chunkPos p i = p * l.defaultChunksPerPiece + i := by
  rw [chunkPos, l.chunkRange_eq p p.isLt]

theorem chunkRange_snd : (l.chunkRange p).2 = l.chunkPos p (l.chunksPerPiece p) := by
  rw [chunkPos_eq, l.chunkRange_eq p p.isLt]

/-- Positions tell pieces and chunks apart. -/
theorem chunkPos_inj (hi : i < l.chunksPerPiece p) (hj : j < l.chunksPerPiece q) :
    l.chunkPos p i = l.chunkPos q j ↔ p = q ∧ i = j := by
  have hi := lt_of_lt_of_le hi (l.chunksPerPiece_le p p.isLt)
  have hj := lt_of_lt_of_le hj (l.chunksPerPiece_le q q.isLt)
  rw [chunkPos_eq, chunkPos_eq]
  constructor
  · intro h
    have hpos : 0 < l.defaultChunksPerPiece := by omega
    have hdiv (a b : ℕ) (hb : b < l.defaultChunksPerPiece) :
        (a * l.defaultChunksPerPiece + b) / l.defaultChunksPerPiece = a := by
      rw [Nat.mul_comm, Nat.mul_add_div hpos, Nat.div_eq_of_lt hb, Nat.add_zero]
    have hp : (p : ℕ) = q := by
      rw [← hdiv p i hi, h, hdiv q j hj]
    rw [hp] at h
    exact ⟨Fin.ext hp, by omega⟩
  · rintro ⟨rfl, rfl⟩
    rfl

theorem chunkPos_lt (hi : i < l.chunksPerPiece p) : l.chunkPos p i < l.chunkBitfieldBytes * 8 := by
  have hle := l.chunkRange_le p p.isLt
  rw [chunkRange_snd, chunkPos] at hle
  rw [chunkPos]
  omega

/-- The positions in the range of a piece are those of its chunks. -/
theorem mem_chunkRange {k : ℕ} : (l.chunkRange p).1 ≤ k ∧ k < (l.chunkRange p).2 ↔
    ∃ i < l.chunksPerPiece p, l.chunkPos p i = k := by
  rw [chunkRange_snd]
  unfold chunkPos
  constructor
  · rintro ⟨hle, hlt⟩
    exact ⟨k - (l.chunkRange p).1, by omega, by omega⟩
  · rintro ⟨i, hi, rfl⟩
    omega

/-- A message carries the chunk with number `i` of the piece `p`. -/
structure IsChunk (l : Lengths) (m : PieceMsg) (p : ValidPieceIndex l) (i : ℕ) : Prop where
  index_eq : m.index = p
  mem : ∃ c ∈ l.iterChunkInfos p, c.chunkIndex = i ∧ c.offset = m.start ∧ c.size = m.len

variable {m : PieceMsg}

theorem IsChunk.lt (h : l.IsChunk m p i) : i < l.chunksPerPiece p := by
  obtain ⟨c, hc, rfl, -⟩ := h.mem
  have hmem := List.mem_map_of_mem (f := ChunkInfo.chunkIndex) hc
  rw [l.chunkIndex_iter p p.isLt] at hmem
  exact List.mem_range.1 hmem

theorem IsChunk.unique (h : l.IsChunk m p i) (h' : l.IsChunk m q j) : p = q ∧ i = j := by
  obtain rfl : p = q := Fin.ext (h.index_eq.symm.trans h'.index_eq)
  obtain ⟨c, hc, rfl, hoff, hlen⟩ := h.mem
  obtain ⟨c', hc', rfl, hoff', hlen'⟩ := h'.mem
  have h1 := (l.received_iff p p.isLt m.start m.len c).2 ⟨hc, hoff, hlen⟩
  have h2 := (l.received_iff p p.isLt m.start m.len c').2 ⟨hc', hoff', hlen'⟩
  rw [h1] at h2
  rw [Option.some.inj h2]
  exact ⟨rfl, rfl⟩

end Lengths

/-! What `compute_chunk_have_status` writes. -/

namespace Lengths

variable {l : Lengths}

/-- The offset of a piece as `compute_chunk_have_status` computes it, in `u32`. -/
def wrappedPos (l : Lengths) (p : ℕ) : ℕ := l.defaultChunksPerPiece * p % 2 ^ 32

/-- The bits that it writes for a piece that is have. -/
def InWrapped (l : Lengths) (p : ValidPieceIndex l) (k : ℕ) : Prop :=
  l.wrappedPos p ≤ k ∧ k < l.wrappedPos p + l.chunksPerPiece p

theorem wrappedPos_le (p : ℕ) : l.wrappedPos p ≤ p * l.defaultChunksPerPiece := by
  rw [wrappedPos, Nat.mul_comm p]
  exact Nat.mod_le _ _

theorem wrappedPos_of_lt {p : ℕ} (h : p * l.defaultChunksPerPiece < 2 ^ 32) :
    l.wrappedPos p = p * l.defaultChunksPerPiece := by
  rw [wrappedPos, Nat.mul_comm, Nat.mod_eq_of_lt h]

theorem inWrapped_of_lt {p : ValidPieceIndex l} {k : ℕ}
    (h : p * l.defaultChunksPerPiece < 2 ^ 32) :
    l.InWrapped p k ↔ (l.chunkRange p).1 ≤ k ∧ k < (l.chunkRange p).2 := by
  rw [InWrapped, wrappedPos_of_lt h, l.chunkRange_eq p p.isLt]

end Lengths

section Status

variable {l : Lengths} {h bf : Bits}

theorem inWrapped_inRange (hlen : bf.len = l.chunkBitfieldBytes * 8) (p : ValidPieceIndex l) :
    bf.InRange (l.wrappedPos p) (l.wrappedPos p + l.chunksPerPiece p) := by
  have hle := l.chunkRange_le p p.isLt
  have hpos := l.wrappedPos_le p
  rw [l.chunkRange_eq p p.isLt] at hle
  simp only at hle
  exact ⟨Nat.le_add_right _ _, by omega⟩

/-- The iteration for one piece succeeds and adds the bits of the piece. -/
theorem chunkHaveStatusStep_ok (hlen : bf.len = l.chunkBitfieldBytes * 8) (p : ValidPieceIndex l)
    (size : ℕ) : ∃ bf', chunkHaveStatusStep l h bf ⟨p, size⟩ = .ok bf' ∧
      ∀ k, bf'.get k = true ↔ bf.get k = true ∨ h.get p = true ∧ l.InWrapped p k := by
  have hin := inWrapped_inRange hlen p
  by_cases hhave : h.get p = true
  · refine ⟨bf.fill (l.wrappedPos p) (l.wrappedPos p + l.chunksPerPiece p) true, ?_, ?_⟩
    · simp only [chunkHaveStatusStep, if_pos hhave]
      exact if_pos hin
    · intro k
      have hlt : l.InWrapped p k → k < bf.len := fun hk => lt_of_lt_of_le hk.2 hin.2
      rw [Bits.get_fill]
      split_ifs with hk
      · exact iff_of_true rfl (Or.inr ⟨hhave, hk.1, hk.2.1⟩)
      · rw [or_iff_left]
        exact fun hw => hk ⟨hw.2.1, hw.2.2, hlt hw.2⟩
  · refine ⟨bf, ?_, fun k => by simp [hhave]⟩
    simp only [chunkHaveStatusStep, if_neg hhave]

theorem foldlM_chunkHaveStatusStep {pieces : List PieceInfo}
    (hpieces : ∀ x ∈ pieces, x.pieceIndex < l.totalPieces)
    (hlen : bf.len = l.chunkBitfieldBytes * 8) :
    ∃ bf', pieces.foldlM (chunkHaveStatusStep l h) bf = .ok bf' ∧
      ∀ k, bf'.get k = true ↔ bf.get k = true ∨
        ∃ p : ValidPieceIndex l, (p : ℕ) ∈ pieces.map PieceInfo.pieceIndex ∧ h.get p = true ∧
          l.InWrapped p k := by
  induction pieces generalizing bf with
  | nil => exact ⟨bf, rfl, fun k => by simp⟩
  | cons x pieces ih =>
    obtain ⟨i, size⟩ := x
    obtain ⟨p, rfl⟩ : ∃ p : ValidPieceIndex l, (p : ℕ) = i :=
      ⟨⟨i, hpieces _ List.mem_cons_self⟩, rfl⟩
    obtain ⟨b, hstep, hb⟩ := chunkHaveStatusStep_ok (h := h) hlen p size
    have hlen' : b.len = l.chunkBitfieldBytes * 8 := (chunkHaveStatusStep_len hstep).trans hlen
    obtain ⟨bf', hbf', hbits⟩ := ih (fun x hx => hpieces x (List.mem_cons_of_mem _ hx)) hlen'
    refine ⟨bf', ?_, ?_⟩
    · rw [List.foldlM_cons, hstep]
      exact hbf'
    · intro k
      simp only [hbits, hb, List.map_cons, List.mem_cons, Fin.val_inj, or_and_right, exists_or,
        exists_eq_left, or_assoc]

/-- `compute_chunk_have_status` succeeds; a bit is set if a piece that is have has it in the range
that is computed for it. -/
theorem computeChunkHaveStatus_ok (hlen : l.totalPieces ≤ h.len) :
    ∃ bf, computeChunkHaveStatus l h = .ok bf ∧
      ∀ k, bf.get k = true ↔ ∃ p : ValidPieceIndex l, h.get p = true ∧ l.InWrapped p k := by
  have hmem (i : ℕ) : i ∈ l.iterPieceInfos.map PieceInfo.pieceIndex ↔ i < l.totalPieces := by
    rw [(l.iterPieceInfos_perm.map PieceInfo.pieceIndex).mem_iff, List.map_map]
    simp
  obtain ⟨bf, hbf, hbits⟩ := foldlM_chunkHaveStatusStep (l := l) (h := h)
    (fun x hx => (hmem _).1 (List.mem_map_of_mem hx)) (Bits.len_zeros _)
  refine ⟨bf, ?_, ?_⟩
  · rw [computeChunkHaveStatus, if_neg (not_lt.2 hlen)]
    exact hbf
  · intro k
    rw [hbits]
    simp only [Bits.get_zeros, Bool.false_eq_true, false_or, hmem, Fin.is_lt, true_and]

end Status

namespace ChunkTracker

variable {l : Lengths} {t t' : ChunkTracker l} {p q : ValidPieceIndex l} {i j : ℕ} {m : PieceMsg}

/-- The bit of a chunk of a piece. -/
def chunkBit (t : ChunkTracker l) (p : ValidPieceIndex l) (i : ℕ) : Bool :=
  t.chunkStatus.get (l.chunkPos p i)

theorem all_chunkRange : t.chunkStatus.all (l.chunkRange p).1 (l.chunkRange p).2 = true ↔
    ∀ i < l.chunksPerPiece p, t.chunkBit p i = true := by
  rw [Bits.all_iff]
  constructor
  · intro h i hi
    obtain ⟨hle, hlt⟩ := Lengths.mem_chunkRange.2 ⟨i, hi, rfl⟩
    exact h _ hle hlt
  · intro h k hle hlt
    obtain ⟨i, hi, rfl⟩ := Lengths.mem_chunkRange.1 ⟨hle, hlt⟩
    exact h i hi

/-- The tracker with the bit of a chunk set. -/
def setChunk (t : ChunkTracker l) (p : ValidPieceIndex l) (i : ℕ) : ChunkTracker l :=
  { t with
    chunkStatus := t.chunkStatus.set (l.chunkPos p i) true
    chunk_len := by rw [Bits.len_set]; exact t.chunk_len }

theorem setChunk_bit (hi : i < l.chunksPerPiece p) (hj : j < l.chunksPerPiece q) :
    (t.setChunk p i).chunkBit q j = if p = q ∧ i = j then true else t.chunkBit q j := by
  have hlt : l.chunkPos p i < t.chunkStatus.len := by
    rw [t.chunk_len]
    exact Lengths.chunkPos_lt hi
  simp only [chunkBit, setChunk, Bits.get_set, Lengths.chunkPos_inj hi hj, hlt, and_true]

/-- `mark_chunk_downloaded` of a chunk. -/
theorem markChunk_eq (h : l.IsChunk m p i) : t.markChunkDownloaded m =
    if ∀ j < l.chunksPerPiece p, t.chunkBit p j = true then some (.previouslyCompleted, t)
    else if ∀ j < l.chunksPerPiece p, (t.setChunk p i).chunkBit p j = true then
      some (.completed, t.setChunk p i)
    else some (.notCompleted, t.setChunk p i) := by
  obtain ⟨c, hc, rfl, hoff, hlen⟩ := h.mem
  have hreceived := (l.received_iff p p.isLt m.start m.len c).2 ⟨hc, hoff, hlen⟩
  simp only [markChunkDownloaded, h.index_eq, l.validatePieceIndex_val, Option.bind_some,
    hreceived, Option.map_some, ← all_chunkRange]
  split_ifs <;> first | rfl | contradiction

/-- Data that is no chunk is refused. -/
theorem markChunk_eq_none_iff : t.markChunkDownloaded m = none ↔ ¬∃ p i, l.IsChunk m p i := by
  constructor
  · rintro hnone ⟨p, i, h⟩
    rw [markChunk_eq h] at hnone
    split_ifs at hnone
  · intro hno
    by_contra hsome
    obtain ⟨⟨r, t'⟩, hr⟩ := Option.ne_none_iff_exists'.1 hsome
    obtain ⟨p, hp, hr⟩ := Option.bind_eq_some_iff.1 hr
    obtain ⟨c, hc, -⟩ := Option.map_eq_some_iff.1 hr
    have hp := l.validatePieceIndex_eq_some.1 hp
    obtain ⟨hmem, hoff, hlen⟩ := (l.received_iff p p.isLt _ _ _).1 hc
    exact hno ⟨p, c.chunkIndex, hp, c, hmem, rfl, hoff, hlen⟩

theorem broken_bit (hj : j < l.chunksPerPiece p) : (t.markPieceBrokenIfNotHave q).chunkBit p j =
    if q = p ∧ t.havePieces.get q = false then false else t.chunkBit p j := by
  unfold markPieceBrokenIfNotHave
  by_cases hhave : t.havePieces.get q = true
  · rw [if_pos hhave, if_neg (by simp [hhave])]
  · rw [if_neg hhave]
    have hlt : l.chunkPos p j < t.chunkStatus.len := by
      rw [t.chunk_len]
      exact Lengths.chunkPos_lt hj
    have hin : ((l.chunkRange q).1 ≤ l.chunkPos p j ∧ l.chunkPos p j < (l.chunkRange q).2 ∧
        l.chunkPos p j < t.chunkStatus.len) ↔ q = p ∧ t.havePieces.get q = false := by
      rw [Bool.not_eq_true] at hhave
      simp only [hlt, and_true, hhave, Lengths.mem_chunkRange]
      constructor
      · rintro ⟨i, hi, he⟩
        exact ((Lengths.chunkPos_inj hi hj).1 he).1
      · rintro rfl
        exact ⟨j, hj, rfl⟩
    simp only [chunkBit, if_pos (t.chunkRange_inRange q), Bits.get_fill, hin]

end ChunkTracker

end Rtbit
