import Mathlib.Tactic

/-! `Lengths`, `ChunkInfo` and `ValidPieceIndex` come from the crate `librtbit-core`,
which is not part of this repository. `Lengths` here is its interface: the
operations this crate calls, and the facts about them that it relies on. A
`Lengths` without these facts cannot be built. `Lengths.new` is an instance with
the values `librtbit-core` documents. -/

namespace Rtbit

/-- `librtbit_core::constants::CHUNK_SIZE`. -/
def chunkSize : ℕ := 16384

/-- One block of a piece: `offset` is relative to the piece. -/
structure ChunkInfo where
  pieceIndex : ℕ
  chunkIndex : ℕ
  offset : ℕ
  size : ℕ
  deriving DecidableEq, Repr

structure PieceInfo where
  pieceIndex : ℕ
  len : ℕ
  deriving DecidableEq, Repr

structure Lengths where
  totalLength : ℕ
  defaultPieceLength : ℕ
  totalPieces : ℕ
  pieceLength : ℕ → ℕ
  defaultChunksPerPiece : ℕ
  chunksPerPiece : ℕ → ℕ
  /-- Start and end of the piece's bits in the chunk bitfield. -/
  chunkRange : ℕ → ℕ × ℕ
  pieceBitfieldBytes : ℕ
  chunkBitfieldBytes : ℕ
  iterPieceInfos : List PieceInfo
  iterChunkInfos : ℕ → List ChunkInfo
  chunkInfoFromReceivedData : ℕ → ℕ → ℕ → Option ChunkInfo
  /-- Piece, offset of the file in the torrent, length of the file. -/
  sizeOfPieceInFile : ℕ → ℕ → ℕ → ℕ
  totalLength_lt : totalLength < 2 ^ 64
  totalPieces_lt : totalPieces < 2 ^ 32
  /-- Every piece starts inside the torrent, and the pieces cover it. -/
  start_lt : ∀ p < totalPieces, p * defaultPieceLength < totalLength
  totalLength_le : totalLength ≤ totalPieces * defaultPieceLength
  pieceLength_eq : ∀ p < totalPieces,
    pieceLength p = min defaultPieceLength (totalLength - p * defaultPieceLength)
  chunksPerPiece_pos : ∀ p < totalPieces, 0 < chunksPerPiece p
  chunksPerPiece_le : ∀ p < totalPieces, chunksPerPiece p ≤ defaultChunksPerPiece
  chunkRange_eq : ∀ p < totalPieces,
    chunkRange p = (p * defaultChunksPerPiece, p * defaultChunksPerPiece + chunksPerPiece p)
  chunkRange_le : ∀ p < totalPieces, (chunkRange p).2 ≤ chunkBitfieldBytes * 8
  totalPieces_le : totalPieces ≤ pieceBitfieldBytes * 8
  /-- `iter_piece_infos` yields each valid piece once, with its length. -/
  iterPieceInfos_perm :
    iterPieceInfos.Perm ((List.range totalPieces).map fun p => ⟨p, pieceLength p⟩)
  chunkIndex_iter : ∀ p < totalPieces,
    (iterChunkInfos p).map ChunkInfo.chunkIndex = List.range (chunksPerPiece p)
  pieceIndex_iter : ∀ p < totalPieces, ∀ c ∈ iterChunkInfos p, c.pieceIndex = p
  /-- `chunk_info_from_received_data` accepts exactly the chunks of `iter_chunk_infos`. -/
  received_iff : ∀ p < totalPieces, ∀ start size c,
    chunkInfoFromReceivedData p start size = some c ↔
      c ∈ iterChunkInfos p ∧ c.offset = start ∧ c.size = size
  /-- The bytes the piece and the file have in common. -/
  sizeOfPieceInFile_eq : ∀ p < totalPieces, ∀ off len,
    sizeOfPieceInFile p off len =
      min (p * defaultPieceLength + pieceLength p) (off + len) - max (p * defaultPieceLength) off

/-- A piece index checked by `validate_piece_index`. -/
abbrev ValidPieceIndex (l : Lengths) := Fin l.totalPieces

namespace Lengths

variable (l : Lengths)

def validatePieceIndex (i : ℕ) : Option (ValidPieceIndex l) :=
  if h : i < l.totalPieces then some ⟨i, h⟩ else none

@[simp] theorem validatePieceIndex_val (p : ValidPieceIndex l) :
    l.validatePieceIndex p = some p := by
  simp [validatePieceIndex]

theorem validatePieceIndex_eq_some {i : ℕ} {p : ValidPieceIndex l} :
    l.validatePieceIndex i = some p ↔ i = p := by
  unfold validatePieceIndex
  split_ifs with h
  · simp [Fin.ext_iff]
  · simp only [false_iff]
    rintro rfl
    exact h p.isLt

theorem defaultPieceLength_pos (p : ValidPieceIndex l) : 0 < l.defaultPieceLength := by
  have h1 := l.start_lt p p.isLt
  have h2 := l.totalLength_le
  rcases Nat.eq_zero_or_pos l.defaultPieceLength with h | h
  · rw [h] at h1 h2
    omega
  · exact h

theorem pieceLength_pos (p : ValidPieceIndex l) : 0 < l.pieceLength p := by
  have h1 := l.start_lt p p.isLt
  have h2 := l.defaultPieceLength_pos p
  rw [l.pieceLength_eq p p.isLt]
  omega

/-- `iter_piece_infos` yields the pieces in order. -/
def InOrder : Prop := l.iterPieceInfos = (List.range l.totalPieces).map fun p => ⟨p, l.pieceLength p⟩

/-! The instance. -/

section New

variable (total pl : ℕ)

def newPieceLength (p : ℕ) : ℕ := min pl (total - p * pl)

def newChunks (p : ℕ) : ℕ := (newPieceLength total pl p + chunkSize - 1) / chunkSize

def newChunkInfo (p i : ℕ) : ChunkInfo :=
  ⟨p, i, i * chunkSize, min chunkSize (newPieceLength total pl p - i * chunkSize)⟩

def newReceived (p start size : ℕ) : Option ChunkInfo :=
  if start % chunkSize = 0 ∧ start < newPieceLength total pl p ∧
      size = min chunkSize (newPieceLength total pl p - start) then
    some ⟨p, start / chunkSize, start, size⟩
  else none

theorem newReceived_iff (p start size : ℕ) (c : ChunkInfo) :
    newReceived total pl p start size = some c ↔
      c ∈ (List.range (newChunks total pl p)).map (newChunkInfo total pl p) ∧
        c.offset = start ∧ c.size = size := by
  have hchunk (i : ℕ) : i < newChunks total pl p ↔ i * chunkSize < newPieceLength total pl p := by
    unfold newChunks chunkSize
    omega
  simp only [newReceived, Option.ite_none_right_eq_some, Option.some.injEq, List.mem_map,
    List.mem_range]
  constructor
  · rintro ⟨⟨h0, h1, h2⟩, rfl⟩
    have hi : start / chunkSize * chunkSize = start := Nat.div_mul_cancel (Nat.dvd_of_mod_eq_zero h0)
    refine ⟨⟨start / chunkSize, (hchunk _).2 (by rw [hi]; exact h1), ?_⟩, rfl, rfl⟩
    rw [newChunkInfo, hi, ← h2]
  · rintro ⟨⟨i, hi, rfl⟩, rfl, rfl⟩
    refine ⟨⟨Nat.mul_mod_left i chunkSize, (hchunk i).1 hi, rfl⟩, ?_⟩
    rw [newChunkInfo, Nat.mul_div_cancel i (by decide : 0 < chunkSize)]

/-- `Lengths::new`, for a torrent and a piece length it accepts. -/
def new (ht : 0 < total) (hpl : 0 < pl) (h64 : total < 2 ^ 64)
    (h32 : (total + pl - 1) / pl < 2 ^ 32) : Lengths where
  totalLength := total
  defaultPieceLength := pl
  totalPieces := (total + pl - 1) / pl
  pieceLength := newPieceLength total pl
  defaultChunksPerPiece := (pl + chunkSize - 1) / chunkSize
  chunksPerPiece := newChunks total pl
  chunkRange p := (p * ((pl + chunkSize - 1) / chunkSize),
    p * ((pl + chunkSize - 1) / chunkSize) + newChunks total pl p)
  pieceBitfieldBytes := ((total + pl - 1) / pl + 7) / 8
  chunkBitfieldBytes := (((total + pl - 1) / pl - 1) * ((pl + chunkSize - 1) / chunkSize) +
    newChunks total pl ((total + pl - 1) / pl - 1) + 7) / 8
  iterPieceInfos := (List.range ((total + pl - 1) / pl)).map fun p => ⟨p, newPieceLength total pl p⟩
  iterChunkInfos p := (List.range (newChunks total pl p)).map (newChunkInfo total pl p)
  chunkInfoFromReceivedData := newReceived total pl
  sizeOfPieceInFile p off len :=
    min (p * pl + newPieceLength total pl p) (off + len) - max (p * pl) off
  totalLength_lt := h64
  totalPieces_lt := h32
  start_lt p hp := by
    have h1 : (p + 1) * pl ≤ total + pl - 1 := (Nat.le_div_iff_mul_le hpl).1 hp
    rw [Nat.add_mul, Nat.one_mul] at h1
    omega
  totalLength_le := by
    have h1 := Nat.div_add_mod (total + pl - 1) pl
    have h2 := Nat.mod_lt (total + pl - 1) hpl
    rw [Nat.mul_comm] at h1
    omega
  pieceLength_eq _ _ := rfl
  chunksPerPiece_pos p hp := by
    have h1 : (p + 1) * pl ≤ total + pl - 1 := (Nat.le_div_iff_mul_le hpl).1 hp
    rw [Nat.add_mul, Nat.one_mul] at h1
    have h2 : 0 < newPieceLength total pl p := by
      unfold newPieceLength
      omega
    unfold newChunks chunkSize
    omega
  chunksPerPiece_le p _ := by
    have h1 : newPieceLength total pl p ≤ pl := Nat.min_le_left _ _
    unfold newChunks
    exact Nat.div_le_div_right (by omega)
  chunkRange_eq _ _ := rfl
  chunkRange_le p hp := by
    set n := (total + pl - 1) / pl
    set d := (pl + chunkSize - 1) / chunkSize
    have h1 : newChunks total pl p ≤ d :=
      Nat.div_le_div_right (by have := Nat.min_le_left pl (total - p * pl); unfold newPieceLength; omega)
    rcases Nat.lt_or_ge p (n - 1) with h | h
    · have h2 : (p + 1) * d ≤ (n - 1) * d := Nat.mul_le_mul_right d h
      rw [Nat.add_mul, Nat.one_mul] at h2
      simp only
      omega
    · have h2 : p = n - 1 := by omega
      simp only [h2]
      omega
  totalPieces_le := by omega
  iterPieceInfos_perm := List.Perm.refl _
  chunkIndex_iter p _ := by
    rw [List.map_map]
    exact List.map_id _
  pieceIndex_iter p _ c hc := by
    obtain ⟨i, _, rfl⟩ := List.mem_map.1 hc
    rfl
  received_iff p _ start size c := newReceived_iff total pl p start size c
  sizeOfPieceInFile_eq _ _ _ _ := rfl

theorem new_inOrder (ht : 0 < total) (hpl : 0 < pl) (h64 : total < 2 ^ 64)
    (h32 : (total + pl - 1) / pl < 2 ^ 32) : (new total pl ht hpl h64 h32).InOrder := rfl

end New

end Lengths

end Rtbit
