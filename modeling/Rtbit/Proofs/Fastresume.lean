import Rtbit.Proofs.Verifiers
import Rtbit.Spec.Initializing

/-! `validate_fastresume` drops the stored bitfield when a selected piece cannot be read. It
looks at `check_piece(..).is_err()` only, so a piece that is read and has the wrong hash passes. -/

namespace Rtbit

open Lib FileOps

namespace Fastresume

variable {H : Type} [DecidableEq H]

/-! The selected pieces. -/

theorem firstClaimed_lt {hp : Bits} {fi : FileInfo} {p : ℕ} (h : firstClaimed hp fi = some p) :
    p < hp.len := by
  unfold firstClaimed at h
  split_ifs at h with hr
  have hmem := List.mem_of_mem_head? h
  exact Bits.lt_len_of_get (List.mem_filter.1 hmem).2

/-- The first claimed piece of every file is selected. -/
theorem firstClaimed_selected (l : Lengths) (fs : List FileInfo) (denom : Option ℕ) (draws : Draws)
    {hp : Bits} (hlen : hp.len = l.pieceBitfieldBytes * 8) {fi : FileInfo} (hfi : fi ∈ fs)
    {p : ValidPieceIndex l} (h : firstClaimed hp fi = some p.val) :
    p ∈ selected l fs denom draws hp := by
  have hlt := firstClaimed_lt h
  have hmem : p.val ∈ fs.filterMap (firstClaimed hp) := List.mem_filterMap.2 ⟨fi, hfi, h⟩
  refine List.mem_filterMap.2 ⟨p, ?_, Lengths.validatePieceIndex_val l p⟩
  rw [Bits.mem_ones]
  unfold toValidate
  split_ifs
  · rw [Bits.get_foldl_set _ _ _ (by simpa [hlen] using hlt), Bits.get_foldl_set _ _ _
      (by simpa [hlen] using hlt)]
    simp [hmem]
  · rw [Bits.get_foldl_set _ _ _ (by simpa [hlen] using hlt)]
    simp [hmem]

/-! The loop. -/

section Loop

variable {α : Type} {check : α → Except CheckError Bool} {cancelled : ℕ → Bool}

/-- The bitfield is kept if the loop is not cancelled and no check ends with an error. -/
theorem isBroken_false_iff (id : ℕ) (ps : List α) :
    isBroken check cancelled id ps = .ok false ↔
      (∀ k < ps.length, cancelled (id + k) = false) ∧ ∀ p ∈ ps, ∃ b, check p = .ok b := by
  induction ps generalizing id with
  | nil => simp [isBroken]
  | cons p ps ih =>
    have hshift : (∀ k < (p :: ps).length, cancelled (id + k) = false) ↔
        cancelled id = false ∧ ∀ k < ps.length, cancelled (id + 1 + k) = false := by
      constructor
      · intro h
        refine ⟨h 0 (by simp), ?_⟩
        intro k hk
        have hk' := h (k + 1) (by simpa using hk)
        rwa [show id + (k + 1) = id + 1 + k by omega] at hk'
      · rintro ⟨h0, h⟩ k hk
        cases k with
        | zero => exact h0
        | succ k =>
          rw [show id + (k + 1) = id + 1 + k by omega]
          exact h k (by simpa using hk)
    rw [isBroken, hshift]
    cases hc : cancelled id with
    | true => simp
    | false =>
      cases hp : check p with
      | error e => simp [hp]
      | ok b => simp [hp, ih]

/-- An error is only returned on cancellation. -/
theorem isBroken_error {id : ℕ} {ps : List α} {e : FastresumeError}
    (h : isBroken check cancelled id ps = .error e) : ∃ k, cancelled k = true := by
  induction ps generalizing id with
  | nil => cases h
  | cons p ps ih =>
    rw [isBroken] at h
    split_ifs at h with hc
    · exact ⟨id, hc⟩
    · cases hp : check p with
      | error e => simp [hp] at h
      | ok b =>
        simp only [hp] at h
        exact ih h

end Loop

/-- The bitfield is kept only if every selected piece matches its hash; if one does not, and
the validation is not cancelled, it is dropped. -/
def Sound (l : Lengths) (fs : List FileInfo) (st : Storage) (ph : PieceHash H) (denom : Option ℕ)
    (draws : Draws) (cancelled : ℕ → Bool) (hp : Bits) : Prop :=
  (validateFastresume l fs st ph denom draws cancelled (some hp) = .ok (some hp) →
    ∀ p ∈ selected l fs denom draws hp, checkPiece l fs st ph p = .ok true) ∧
  ((∃ p ∈ selected l fs denom draws hp, checkPiece l fs st ph p ≠ .ok true) →
    (∀ k, cancelled k = false) →
      validateFastresume l fs st ph denom draws cancelled (some hp) = .ok none)

/-- The loop decides: the bitfield is kept if it ends without finding anything broken. -/
theorem sound_iff_kept {l : Lengths} {fs : List FileInfo} {st : Storage} {ph : PieceHash H}
    {denom : Option ℕ} {draws : Draws} {cancelled : ℕ → Bool} {hp : Bits}
    (hlen : hp.len = l.pieceBitfieldBytes * 8) :
    Sound l fs st ph denom draws cancelled hp ↔
      (isBroken (checkPiece l fs st ph) cancelled 0 (selected l fs denom draws hp) = .ok false →
        ∀ p ∈ selected l fs denom draws hp, checkPiece l fs st ph p = .ok true) := by
  unfold Sound
  simp only [validateFastresume, if_neg (not_not.2 hlen)]
  cases hb : isBroken (checkPiece l fs st ph) cancelled 0 (selected l fs denom draws hp) with
  | error e =>
    obtain ⟨k, hk⟩ := isBroken_error hb
    refine iff_of_true ⟨by simp, ?_⟩ (by simp)
    intro _ hc
    rw [hc k] at hk
    cases hk
  | ok broken =>
    cases broken with
    | true => simp
    | false =>
      simp only [forall_const, Except.ok.injEq, reduceCtorEq, imp_false, and_iff_left_iff_imp]
      rintro hall ⟨p, hp, hne⟩
      exact absurd (hall p hp) hne

/-- `validate_fastresume` is sound exactly when it is cancelled, or a selected piece cannot be
read, or no selected piece has the wrong hash. -/
theorem validateFastresume_sound_iff (l : Lengths) (fs : List FileInfo) (st : Storage)
    (ph : PieceHash H) (denom : Option ℕ) (draws : Draws) (cancelled : ℕ → Bool) (hp : Bits)
    (hlen : hp.len = l.pieceBitfieldBytes * 8) :
    (∀ fi ∈ fs, ∀ p : ValidPieceIndex l, firstClaimed hp fi = some p.val →
      p ∈ selected l fs denom draws hp) ∧
    (Sound l fs st ph denom draws cancelled hp ↔
      (∃ k < (selected l fs denom draws hp).length, cancelled k = true) ∨
      (∃ p ∈ selected l fs denom draws hp, ∃ e, checkPiece l fs st ph p = .error e) ∨
      ∀ p ∈ selected l fs denom draws hp, checkPiece l fs st ph p ≠ .ok false) := by
  refine ⟨fun fi hfi p h => firstClaimed_selected l fs denom draws hlen hfi h, ?_⟩
  rw [sound_iff_kept hlen, isBroken_false_iff]
  simp only [Nat.zero_add]
  constructor
  · intro h
    by_cases hc : ∃ k < (selected l fs denom draws hp).length, cancelled k = true
    · exact Or.inl hc
    by_cases he : ∃ p ∈ selected l fs denom draws hp, ∃ e, checkPiece l fs st ph p = .error e
    · exact Or.inr (Or.inl he)
    refine Or.inr (Or.inr ?_)
    intro p hps
    rw [h ⟨?_, ?_⟩ p hps]
    · simp
    · intro k hk
      exact Bool.eq_false_iff.2 fun ht => hc ⟨k, hk, ht⟩
    · intro q hq
      cases hcq : checkPiece l fs st ph q with
      | error e => exact absurd ⟨q, hq, e, hcq⟩ he
      | ok b => exact ⟨b, rfl⟩
  · rintro h ⟨hnc, hok⟩ p hps
    obtain ⟨b, hb⟩ := hok p hps
    rcases h with ⟨k, hk, hc⟩ | ⟨q, hq, e, he⟩ | hmatch
    · rw [hnc k hk] at hc
      cases hc
    · obtain ⟨b', hb'⟩ := hok q hq
      rw [hb'] at he
      cases he
    · cases b with
      | true => exact hb
      | false => exact absurd hb (hmatch p hps)

/-- Nothing is shuffled, and only certain draws succeed. -/
def plainDraws : Draws where
  shuffle := id
  randomRatio _ denom := denom == 1
  shuffle_perm _ := List.Perm.refl _
  randomRatio_one _ := rfl

/-- All three pieces are claimed, and all are there. -/
theorem tenBytes_fastresume_sound :
    Sound tenBytes tenByteFiles ⟨tenByteStorage.contents, fun _ _ _ => false⟩ tenByteHashes none
      plainDraws (fun _ => false) ⟨[true, true, true, false, false, false, false, false]⟩ := by
  refine (validateFastresume_sound_iff tenBytes tenByteFiles _ tenByteHashes none plainDraws _ _
    rfl).2.2 (Or.inr (Or.inr ?_))
  decide +kernel

/-- The first file is all zeros: its piece is selected and has the wrong hash, and the bitfield
that claims it is kept. -/
theorem wrong_hash_resumed :
    checkPiece tenBytes tenByteFiles ⟨fun _ => [0, 0, 0, 0, 0], fun _ _ _ => false⟩ tenByteHashes
        ⟨0, by decide⟩ = .ok false ∧
      (⟨0, by decide⟩ : ValidPieceIndex tenBytes) ∈ selected tenBytes tenByteFiles none plainDraws
        ⟨[true, false, false, false, false, false, false, false]⟩ ∧
      validateFastresume tenBytes tenByteFiles ⟨fun _ => [0, 0, 0, 0, 0], fun _ _ _ => false⟩
          tenByteHashes none plainDraws (fun _ => false)
          (some ⟨[true, false, false, false, false, false, false, false]⟩) =
        .ok (some ⟨[true, false, false, false, false, false, false, false]⟩) ∧
      ¬Sound tenBytes tenByteFiles ⟨fun _ => [0, 0, 0, 0, 0], fun _ _ _ => false⟩ tenByteHashes
        none plainDraws (fun _ => false) ⟨[true, false, false, false, false, false, false, false]⟩ := by
  have hbad : checkPiece tenBytes tenByteFiles ⟨fun _ => [0, 0, 0, 0, 0], fun _ _ _ => false⟩
      tenByteHashes ⟨0, by decide⟩ = .ok false := by decide +kernel
  have hsel : (⟨0, by decide⟩ : ValidPieceIndex tenBytes) ∈ selected tenBytes tenByteFiles none
      plainDraws ⟨[true, false, false, false, false, false, false, false]⟩ := by decide +kernel
  have hkept : validateFastresume tenBytes tenByteFiles
      ⟨fun _ => [0, 0, 0, 0, 0], fun _ _ _ => false⟩ tenByteHashes none plainDraws (fun _ => false)
      (some ⟨[true, false, false, false, false, false, false, false]⟩) =
        .ok (some ⟨[true, false, false, false, false, false, false, false]⟩) := by decide +kernel
  refine ⟨hbad, hsel, hkept, ?_⟩
  intro hs
  rw [hs.1 hkept _ hsel] at hbad
  cases hbad

end Fastresume

end Rtbit
