import Rtbit.Sanity.Bitv
import Rtbit.Spec.Initializing

/-! The file of a bitfield of which only the front is on disk. The front of eight bytes or more has
the header, and too few bytes behind it. A shorter one is taken for a file of the old format, and
its length is right if the bitfield itself has less than eight bytes. -/

namespace Rtbit

open Lib

/-- `BitVec::from_vec`. -/
def BitField.toBits (b : BitField) : Bits := ⟨(List.range (b.length * 8)).map b.get⟩

/-- The length check of `validate_fastresume`. -/
def BitField.hasLength (l : Lengths) (b : BitField) : Bool := b.length == l.pieceBitfieldBytes

section

variable {crc : List UInt8 → UInt32} {l : Lengths} {p q : BitField} {fs : BitvFiles}

theorem hasLength_iff : p.hasLength l = true ↔ p.toBits.len = l.pieceBitfieldBytes * 8 := by
  rw [BitField.hasLength, beq_iff_eq, Bits.len, BitField.toBits, List.length_map, List.length_range]
  omega

/-- Where the pieces that are looked at are good, the length alone decides. -/
theorem validateFastresume_hasLength {H : Type} [DecidableEq H] {files : List FileInfo}
    {st : Storage} {ph : PieceHash H} {denom : Option ℕ} {draws : Draws} {cancelled : ℕ → Bool}
    (h : Fastresume.isBroken (FileOps.checkPiece l files st ph) cancelled 0
      (Fastresume.selected l files denom draws p.toBits) = .ok false) :
    validateFastresume l files st ph denom draws cancelled (some p.toBits) =
      .ok (if p.hasLength l then some p.toBits else none) := by
  rw [validateFastresume]
  by_cases hlen : p.hasLength l = true
  · rw [if_neg (not_not.2 (hasLength_iff.1 hlen)), h, if_pos hlen]
  · rw [if_pos (fun he => hlen (hasLength_iff.2 he)), if_neg hlen]

/-- What is on disk is loaded, and has the length of the bitfield of the torrent. -/
def Accepted (crc : List UInt8 → UInt32) (l : Lengths) (fs : BitvFiles) : Prop :=
  ∃ b, loadBitv crc fs = some b ∧ b.hasLength l = true

/-- The file is read back, and no front of it is accepted in its place. -/
def FormatHolds (crc : List UInt8 → UInt32) (l : Lengths) (p : BitField) : Prop :=
  readBitvFile crc (bitvWithHeader crc p) = ⟨p, true, true⟩ ∧
    (1 ≤ p.length → ∀ q fs, q <+: bitvWithHeader crc p → q ≠ bitvWithHeader crc p →
      fs.read .bitv = some q → ¬Accepted crc l fs)

theorem length_bitvWithHeader : (bitvWithHeader crc p).length = p.length + 8 := by
  simp [bitvWithHeader, bitvMagic]
  omega

/-- A front with less than the header is taken as it is. -/
theorem loadBitv_short (h : fs.read .bitv = some q) (hq : q.length < 8) :
    loadBitv crc fs = some q := by
  have hraw : readBitvFile crc q = ⟨q, false, false⟩ :=
    if_neg fun hc => absurd hc.1 (Nat.not_le_of_lt hq)
  rw [loadBitv, h]
  simp only [hraw, Bool.false_and, Bool.false_eq_true, if_false]

/-- A front with the header gives the bytes behind it, or nothing. -/
theorem loadBitv_torn {b : BitField} (hpre : q <+: bitvWithHeader crc p)
    (h : fs.read .bitv = some q) (hq : 8 ≤ q.length) (hb : loadBitv crc fs = some b) :
    b.length + 8 = q.length := by
  have hmagic : q.take 4 = bitvMagic := by
    rw [List.prefix_iff_eq_take.1 hpre, List.take_take, min_eq_left (by omega)]
    simp [bitvWithHeader, bitvMagic]
  have hraw : (readBitvFile crc q).payload = q.drop 8 := by
    rw [readBitvFile, if_pos ⟨hq, hmagic⟩]
    rfl
  rw [loadBitv, h] at hb
  dsimp only at hb
  split_ifs at hb
  obtain rfl := Option.some.inj hb
  rw [hraw, List.length_drop]
  omega

/-- The files of a torrent whose bitfield file has the bytes `raw`. -/
def onDisk (raw : List UInt8) : BitvFiles := ⟨[raw], fun n => if n = .bitv then some 0 else none⟩

theorem read_onDisk (raw : List UInt8) : (onDisk raw).read .bitv = some raw := rfl

theorem formatHolds_iff (hl : l.pieceBitfieldBytes = p.length) :
    FormatHolds crc l p ↔ p = [] ∨ 8 ≤ p.length := by
  refine ⟨?_, ?_⟩
  · rintro ⟨-, htorn⟩
    by_contra hshort
    obtain ⟨hne, hlt⟩ := not_or.1 hshort
    have hlen : ((bitvWithHeader crc p).take p.length).length = p.length := by
      rw [List.length_take, length_bitvWithHeader]
      omega
    have hstrict : (bitvWithHeader crc p).take p.length ≠ bitvWithHeader crc p := by
      intro heq
      rw [heq, length_bitvWithHeader] at hlen
      omega
    -- as many bytes of the header as the bitfield has
    refine htorn (List.length_pos_iff.2 hne) _ (onDisk _) (List.take_prefix p.length _) hstrict
      (read_onDisk _) ⟨_, loadBitv_short (read_onDisk _) (by rw [hlen]; omega), ?_⟩
    rw [BitField.hasLength, hlen, hl]
    exact beq_self_eq_true _
  · intro hlong
    refine ⟨readBitvFile_bitvWithHeader p, ?_⟩
    rintro hpos q fs hpre hne hread ⟨b, hload, hb⟩
    have hlt : q.length < p.length + 8 := by
      rw [← @length_bitvWithHeader crc]
      exact lt_of_le_of_ne hpre.length_le fun heq => hne (hpre.eq_of_length heq)
    rw [BitField.hasLength, beq_iff_eq, hl] at hb
    rcases Nat.lt_or_ge q.length 8 with hq | hq
    · rw [loadBitv_short hread hq, Option.some.injEq] at hload
      subst hload
      rcases hlong with rfl | hlong
      · exact absurd hpos (by decide)
      · omega
    · have hlen := loadBitv_torn hpre hread hq hload
      omega

end

/-- Pieces of 32 bytes, 64 of them. -/
def eightBytes : Lengths :=
  Lengths.new (2 ^ 11) (2 ^ 5) (by decide) (by decide) (by decide) (by decide)

/-- 32 of them. -/
def fourBytes : Lengths :=
  Lengths.new (2 ^ 10) (2 ^ 5) (by decide) (by decide) (by decide) (by decide)

theorem eightBytes_holds :
    FormatHolds (fun _ => 0) eightBytes [255, 255, 255, 255, 255, 255, 255, 255] :=
  (formatHolds_iff (by decide +kernel)).2 (Or.inr (by decide))

/-- The magic bytes are taken for a bitfield of four bytes. -/
theorem magic_accepted :
    ¬FormatHolds (fun _ => 0) fourBytes [255, 255, 255, 255] ∧
      loadBitv (fun _ => 0) (onDisk bitvMagic) = some bitvMagic ∧
      BitField.hasLength fourBytes bitvMagic = true := by
  refine ⟨?_, by decide +kernel, by decide +kernel⟩
  intro h
  exact h.2 (by decide) bitvMagic (onDisk bitvMagic) ⟨_, rfl⟩ (by decide) rfl
    ⟨bitvMagic, by decide +kernel, by decide +kernel⟩

end Rtbit
