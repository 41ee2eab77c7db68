import Rtbit.Spec.Metadata

/-! Serving metadata. The bound check lets the number of pieces through as a piece: the range is
then not in the buffer, or empty if the last piece is full. Otherwise only the end of the last
piece that a length of 32 bits can have overflows. -/

namespace Rtbit

open Lib

namespace Metadata

/-- With the channel open the call does not panic, succeeds for the pieces there are, and then the
bytes of the piece are sent. -/
def Served (infoBytes : List UInt8) (pieceId : ℕ) : Prop :=
  ∃ r, sendMetadataPiece infoBytes true pieceId = some r ∧
    ((∃ m, r = .ok m) ↔ infoBytes ≠ [] ∧ pieceId < blockCount chunkSize infoBytes.length) ∧
    ∀ m, r = .ok m → m = ⟨pieceId, infoBytes.length, block chunkSize infoBytes pieceId⟩

variable {infoBytes : List UInt8} {pieceId : ℕ}

theorem piece_start_lt (hid : pieceId < blockCount chunkSize infoBytes.length) :
    pieceId * chunkSize < infoBytes.length :=
  (lt_blockCount (by decide)).1 hid

/-- A range that ends at the end of its block, or of the bytes, is the block. -/
theorem slice_block (h : pieceId * chunkSize ≤ infoBytes.length) :
    slice infoBytes (pieceId * chunkSize) (min (pieceId * chunkSize + chunkSize) infoBytes.length) =
      some (block chunkSize infoBytes pieceId) := by
  rw [slice, if_pos (by omega), block, Option.some.injEq, List.take_eq_take_iff, List.length_drop]
  omega

theorem sendMetadataPiece_eq (channelOpen : Bool) (hne : infoBytes ≠ [])
    (hlen : infoBytes.length < 2 ^ 32) (hid : pieceId ≤ blockCount chunkSize infoBytes.length)
    (hoff : pieceId * chunkSize + chunkSize < 2 ^ 32) :
    sendMetadataPiece infoBytes channelOpen pieceId =
      (slice infoBytes (pieceId * chunkSize)
        (min (pieceId * chunkSize + chunkSize) infoBytes.length)).map fun data =>
          if channelOpen then .ok ⟨pieceId, infoBytes.length, data⟩ else .error .channelClosed := by
  have hzero : infoBytes.length ≠ 0 := mt List.length_eq_zero_iff.1 hne
  rw [sendMetadataPiece, if_neg hzero, if_neg (by omega), u32Mul, if_pos (by omega), Option.bind_some,
    u32Add, if_pos hoff, Option.bind_some, if_neg (by omega)]

/-- The offset of a piece that is let through, or its end, does not fit into 32 bits. -/
theorem sendMetadataPiece_overflow (channelOpen : Bool) (hne : infoBytes ≠ [])
    (hid : pieceId ≤ blockCount chunkSize infoBytes.length)
    (hoff : 2 ^ 32 ≤ pieceId * chunkSize + chunkSize) :
    sendMetadataPiece infoBytes channelOpen pieceId = none := by
  have hzero : infoBytes.length ≠ 0 := mt List.length_eq_zero_iff.1 hne
  rw [sendMetadataPiece, if_neg hzero, if_neg (by omega), u32Mul]
  by_cases hmul : pieceId * chunkSize < 2 ^ 32
  · rw [if_pos hmul, Option.bind_some, u32Add, if_neg (by omega), Option.bind_none]
  · rw [if_neg hmul, Option.bind_none]

theorem served_of_lt (hlen : infoBytes.length < 2 ^ 32)
    (hid : pieceId < blockCount chunkSize infoBytes.length)
    (hoff : pieceId * chunkSize + chunkSize < 2 ^ 32) :
    sendMetadataPiece infoBytes true pieceId =
      some (.ok ⟨pieceId, infoBytes.length, block chunkSize infoBytes pieceId⟩) := by
  have hstart := piece_start_lt hid
  have hne : infoBytes ≠ [] := by
    rintro rfl
    exact absurd hstart (Nat.not_lt_zero _)
  rw [sendMetadataPiece_eq true hne hlen hid.le hoff, slice_block hstart.le]
  rfl

/-- The piece behind the last one. -/
theorem not_served_count (hne : infoBytes ≠ []) (hlen : infoBytes.length < 2 ^ 32)
    (hid : pieceId = blockCount chunkSize infoBytes.length) : ¬Served infoBytes pieceId := by
  rintro ⟨r, hr, hiff, -⟩
  rcases Nat.lt_or_ge (pieceId * chunkSize + chunkSize) (2 ^ 32) with hoff | hoff
  · rw [sendMetadataPiece_eq true hne hlen hid.le hoff] at hr
    obtain ⟨data, -, rfl⟩ := Option.map_eq_some_iff.1 hr
    -- nothing is there to be sent, but the call succeeds
    obtain ⟨-, hlt⟩ := hiff.1 ⟨_, rfl⟩
    omega
  · rw [sendMetadataPiece_overflow true hne hid.le hoff] at hr
    cases hr

theorem served_iff (infoBytes : List UInt8) (hlen : infoBytes.length < 2 ^ 32) (pieceId : ℕ) :
    Served infoBytes pieceId ↔
      ¬(infoBytes ≠ [] ∧ pieceId = blockCount chunkSize infoBytes.length) ∧
        ¬(pieceId = 2 ^ 18 - 1 ∧ 2 ^ 32 - chunkSize < infoBytes.length) := by
  by_cases hne : infoBytes = []
  · subst hne
    refine iff_of_true ⟨.error .noMetadata, rfl, by simp, nofun⟩ ⟨by simp, ?_⟩
    rintro ⟨-, h⟩
    exact absurd h (Nat.not_lt_zero _)
  rcases Nat.lt_trichotomy pieceId (blockCount chunkSize infoBytes.length) with hid | hid | hid
  · by_cases hoff : pieceId * chunkSize + chunkSize < 2 ^ 32
    · -- a piece that is there
      refine iff_of_true ⟨_, served_of_lt hlen hid hoff, ?_, ?_⟩ ⟨by omega, ?_⟩
      · exact iff_of_true ⟨_, rfl⟩ ⟨hne, hid⟩
      · rintro m ⟨rfl⟩
        rfl
      · rintro ⟨rfl, -⟩
        exact absurd hoff (by decide)
    · refine iff_of_false ?_ ?_
      · rintro ⟨r, hr, -⟩
        rw [sendMetadataPiece_overflow true hne hid.le (by omega)] at hr
        cases hr
      · rintro ⟨-, h⟩
        have hstart := piece_start_lt hid
        simp only [chunkSize] at hoff hstart h
        omega
  · exact iff_of_false (not_served_count hne hlen hid) fun h => h.1 ⟨hne, hid⟩
  · refine iff_of_true ⟨.error .outOfBounds, ?_, ?_, nofun⟩ ⟨by omega, ?_⟩
    · have hzero : infoBytes.length ≠ 0 := mt List.length_eq_zero_iff.1 hne
      rw [sendMetadataPiece, if_neg hzero, if_pos hid]
    · exact iff_of_false (fun ⟨m, hm⟩ => by cases hm) (by omega)
    · rintro ⟨rfl, h⟩
      simp only [blockCount, chunkSize] at hid h
      omega

/-- Bytes of two pieces, the second of them short. -/
def twoPieces : List UInt8 := List.replicate 20000 7

theorem length_twoPieces : twoPieces.length = 20000 := List.length_replicate

theorem twoPieces_served : Served twoPieces 1 := by
  refine (served_iff twoPieces ?_ 1).2 ⟨?_, ?_⟩
  · rw [length_twoPieces]
    decide
  · rintro ⟨-, h⟩
    rw [length_twoPieces] at h
    exact absurd h (by decide)
  · rintro ⟨h, -⟩
    exact absurd h (by decide)

def fullPiece : List UInt8 := List.replicate 16384 7

theorem length_fullPiece : fullPiece.length = 16384 := List.length_replicate

/-- The range of the piece behind a short last piece ends before it starts. Behind a full last
piece the range is empty, and the call succeeds. -/
theorem pieceBehind_unserved :
    sendMetadataPiece [7] true 1 = none ∧ ¬Served [7] 1 ∧
      sendMetadataPiece fullPiece true 1 = some (.ok ⟨1, 16384, []⟩) ∧ ¬Served fullPiece 1 := by
  have hne : fullPiece ≠ [] := List.ne_nil_of_length_eq_add_one length_fullPiece
  have hlt : fullPiece.length < 2 ^ 32 := by
    rw [length_fullPiece]
    decide
  have hcount : 1 = blockCount chunkSize fullPiece.length := by
    rw [length_fullPiece]
    rfl
  refine ⟨by decide, not_served_count (by decide) (by decide) rfl, ?_,
    not_served_count hne hlt hcount⟩
  rw [sendMetadataPiece_eq true hne hlt hcount.le (by decide), slice_block, length_fullPiece,
    block, List.drop_eq_nil_of_le]
  · rfl
  · rw [length_fullPiece]
    decide
  · rw [length_fullPiece]
    decide

end Metadata

end Rtbit
