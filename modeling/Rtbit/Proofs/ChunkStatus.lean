import Rtbit.Sanity.ChunkBits

/-! The chunk bitfield that is computed from the pieces that are have. The offset of a piece is a
product of two `u32`, so it is that of `chunk_range` only as long as the product is below `2^32`;
past that the bits of the piece are written over those of an earlier one. -/

namespace Rtbit

open Lib

variable {l : Lengths} {h bf : Bits}

/-- The bits in the range of a piece are equal to the bit of the piece, and no other bit is set. -/
structure Mirrors (l : Lengths) (h bf : Bits) : Prop where
  range_eq : ∀ p : ValidPieceIndex l, ∀ k, (l.chunkRange p).1 ≤ k → k < (l.chunkRange p).2 →
    bf.get k = h.get p
  in_range : ∀ k, bf.get k = true →
    ∃ p : ValidPieceIndex l, (l.chunkRange p).1 ≤ k ∧ k < (l.chunkRange p).2

theorem mirrors_iff : Mirrors l h bf ↔ ∀ k, bf.get k = true ↔
    ∃ p : ValidPieceIndex l, h.get p = true ∧ (l.chunkRange p).1 ≤ k ∧ k < (l.chunkRange p).2 := by
  constructor
  · intro hm k
    constructor
    · intro hk
      obtain ⟨p, hp⟩ := hm.in_range k hk
      exact ⟨p, by rw [← hm.range_eq p k hp.1 hp.2, hk], hp⟩
    · rintro ⟨p, hhave, hp⟩
      rw [hm.range_eq p k hp.1 hp.2, hhave]
  · intro hk
    refine ⟨fun p k hle hlt => ?_, fun k hset => ?_⟩
    · obtain ⟨i, hi, rfl⟩ := Lengths.mem_chunkRange.1 ⟨hle, hlt⟩
      rw [Bool.eq_iff_iff, hk]
      constructor
      · rintro ⟨q, hhave, hq⟩
        obtain ⟨j, hj, he⟩ := Lengths.mem_chunkRange.1 hq
        obtain ⟨rfl, -⟩ := (Lengths.chunkPos_inj hj hi).1 he
        exact hhave
      · intro hhave
        exact ⟨p, hhave, hle, hlt⟩
    · obtain ⟨p, -, hp⟩ := (hk k).1 hset
      exact ⟨p, hp⟩

/-- The last piece whose product overflows is not written where it belongs, and nothing else is. -/
theorem overflow_not_mirrored (hbits : ∀ k, bf.get k = true ↔
      ∃ p : ValidPieceIndex l, h.get p = true ∧ l.InWrapped p k) (hm : Mirrors l h bf)
    (p : ValidPieceIndex l) (hp : h.get p = true) : p * l.defaultChunksPerPiece < 2 ^ 32 := by
  by_contra hover
  have hne : (Finset.univ.filter fun q : ValidPieceIndex l => h.get q = true).Nonempty :=
    ⟨p, Finset.mem_filter.2 ⟨Finset.mem_univ p, hp⟩⟩
  obtain ⟨last, hlast, hmax⟩ := Finset.exists_max_image _ (fun q : ValidPieceIndex l => (q : ℕ)) hne
  have hlast := (Finset.mem_filter.1 hlast).2
  have hple : (p : ℕ) ≤ last := hmax p (Finset.mem_filter.2 ⟨Finset.mem_univ p, hp⟩)
  have hover : 2 ^ 32 ≤ last * l.defaultChunksPerPiece :=
    (not_lt.1 hover).trans (Nat.mul_le_mul_right _ hple)
  have hchunks := l.chunksPerPiece_pos last last.isLt
  -- the last bit of that piece
  obtain ⟨q, hq, hle, hlt⟩ := (hbits (last * l.defaultChunksPerPiece + l.chunksPerPiece last - 1)).1
    ((mirrors_iff.1 hm _).2 ⟨last, hlast, by rw [l.chunkRange_eq last last.isLt]; omega⟩)
  have hqle : (q : ℕ) ≤ last := hmax q (Finset.mem_filter.2 ⟨Finset.mem_univ q, hq⟩)
  rcases Nat.lt_or_eq_of_le hqle with hqlt | hqeq
  · have hbelow : (q + 1) * l.defaultChunksPerPiece ≤ last * l.defaultChunksPerPiece :=
      Nat.mul_le_mul_right _ hqlt
    have hqchunks := l.chunksPerPiece_le q q.isLt
    have hqpos := l.wrappedPos_le q
    rw [Nat.add_mul, Nat.one_mul] at hbelow
    omega
  · rw [hqeq] at hlt
    have hwrap : l.wrappedPos last < 2 ^ 32 := Nat.mod_lt _ (by decide)
    omega

/-- The bitmap is computed without an error, and mirrors the pieces that are have exactly if for
none of them the offset overflows. -/
theorem computeChunkHaveStatus_iff (l : Lengths) (h : Bits) (hlen : l.totalPieces ≤ h.len) :
    (∃ bf, computeChunkHaveStatus l h = .ok bf ∧ Mirrors l h bf) ↔
      ∀ p : ValidPieceIndex l, h.get p = true → p * l.defaultChunksPerPiece < 2 ^ 32 := by
  obtain ⟨bf, hok, hbits⟩ := computeChunkHaveStatus_ok hlen
  constructor
  · rintro ⟨bf', hok', hm⟩
    rw [hok] at hok'
    obtain rfl := Except.ok.inj hok'
    exact overflow_not_mirrored hbits hm
  · intro hsmall
    refine ⟨bf, hok, mirrors_iff.2 fun k => ?_⟩
    rw [hbits]
    refine exists_congr fun p => and_congr_right fun hp => ?_
    exact Lengths.inWrapped_of_lt (hsmall p hp)

/-- Pieces of three chunks, the last of one byte, and the last piece of one byte. -/
def oddLengths : Lengths :=
  Lengths.new 65539 32769 (by decide) (by decide) (by decide) (by decide)

theorem oddLengths_mirrored : ∃ bf, computeChunkHaveStatus oddLengths ⟨[false, true, true, true]⟩ =
    .ok bf ∧ Mirrors oddLengths ⟨[false, true, true, true]⟩ bf :=
  (computeChunkHaveStatus_iff oddLengths _ (by decide +kernel)).2 (by decide +kernel)

/-- 64 TiB in pieces of 1 MiB, and one piece more. -/
def hugeLengths : Lengths :=
  Lengths.new (2 ^ 46 + 2 ^ 20) (2 ^ 20) (by decide) (by decide) (by decide) (by decide)

def hugeLast : ValidPieceIndex hugeLengths := ⟨2 ^ 26, by decide +kernel⟩

/-- Only the last piece is have. -/
def hugeHave : Bits := (Bits.zeros (2 ^ 26 + 8)).set (2 ^ 26) true

theorem hugeHave_get (p : ℕ) : hugeHave.get p = true ↔ p = 2 ^ 26 := by
  simp only [hugeHave, Bits.get_set, Bits.len_zeros, Bits.get_zeros]
  split_ifs with hp
  · exact iff_of_true rfl hp.1.symm
  · refine iff_of_false (by decide) ?_
    rintro rfl
    exact hp ⟨rfl, by decide⟩

/-- The bits of the first piece, which is missing, are set, and those of the last are not. -/
theorem hugeLast_not_mirrored : ∃ bf, computeChunkHaveStatus hugeLengths hugeHave = .ok bf ∧
    hugeHave.get 0 = false ∧ bf.get (hugeLengths.chunkRange 0).1 = true ∧
    hugeHave.get hugeLast = true ∧ bf.get (hugeLengths.chunkRange hugeLast).1 = false ∧
    ¬Mirrors hugeLengths hugeHave bf := by
  have hlen : hugeLengths.totalPieces ≤ hugeHave.len := by
    rw [hugeHave, Bits.len_set, Bits.len_zeros]
    decide +kernel
  obtain ⟨bf, hok, hbits⟩ := computeChunkHaveStatus_ok hlen
  have hpos : hugeLengths.wrappedPos hugeLast = 0 := by decide +kernel
  have hchunks : hugeLengths.chunksPerPiece hugeLast = 64 := by decide +kernel
  have hstart : (hugeLengths.chunkRange hugeLast).1 = 2 ^ 32 := by decide +kernel
  have hbit (k : ℕ) : bf.get k = true ↔ k < 64 := by
    rw [hbits]
    constructor
    · rintro ⟨p, hp, hin⟩
      obtain rfl : p = hugeLast := Fin.ext ((hugeHave_get p).1 hp)
      have hlt := hin.2
      omega
    · intro hk
      exact ⟨hugeLast, (hugeHave_get _).2 rfl, by omega, by omega⟩
  have hfirst : bf.get (hugeLengths.chunkRange 0).1 = true := (hbit _).2 (by decide +kernel)
  have hhave : hugeHave.get 0 = false := by
    rw [← Bool.not_eq_true, hugeHave_get]
    decide
  have hlast : hugeHave.get hugeLast = true := (hugeHave_get _).2 rfl
  refine ⟨bf, hok, hhave, hfirst, hlast, ?_, ?_⟩
  · rw [← Bool.not_eq_true, hbit, hstart]
    decide
  · intro hm
    have heq := hm.range_eq ⟨0, by decide +kernel⟩ _ le_rfl (by decide +kernel)
    rw [hfirst, hhave] at heq
    cases heq

end Rtbit
