import Rtbit.Lib.Segments
import Rtbit.Spec.FileOps

/-! What the loops of `file_ops.rs` read: the stretches of the files that the piece covers,
in order. `check_piece` finds them from the first file, `initial_check` from where the piece
before has left the current file. -/

namespace Rtbit

open Lib

namespace FileOps

variable {st : Storage} {fs : List FileInfo}

/-! `update_hash_from_file` -/

section Loop

variable {fileId : ℕ} {fi : FileInfo}

theorem readChunk_length {pos n : ℕ} {b : List UInt8} (h : readChunk st fileId fi pos n = some b) :
    b.length = n := by
  unfold readChunk at h
  split_ifs at h with hp
  · obtain rfl := Option.some.inj h
    exact List.length_replicate
  · unfold Storage.preadExact at h
    split_ifs at h with hr
    obtain rfl := Option.some.inj h
    rw [List.length_take, List.length_drop]
    omega

theorem updateHashLoop_hash (bufLen rounds pos n : ℕ) (hash : List UInt8) :
    updateHashLoop st fileId fi bufLen rounds pos n hash =
      (updateHashLoop st fileId fi bufLen rounds pos n []).map (hash ++ ·) := by
  induction rounds generalizing pos n hash with
  | zero =>
    simp only [updateHashLoop]
    split_ifs <;> simp
  | succ rounds ih =>
    simp only [updateHashLoop]
    split_ifs with hn
    · simp
    · cases readChunk st fileId fi pos (min bufLen n) with
      | none => rfl
      | some b =>
        rw [Option.bind_some, Option.bind_some, ih, ih _ _ ([] ++ b), Option.map_map]
        congr 1
        funext x
        simp

/-- A buffer that is not smaller than what is read makes no difference. -/
theorem updateHashLoop_buf (bufLen m : ℕ) (rounds pos n : ℕ) (hash : List UInt8) (h : n ≤ m) :
    updateHashLoop st fileId fi (min bufLen m) rounds pos n hash =
      updateHashLoop st fileId fi bufLen rounds pos n hash := by
  induction rounds generalizing pos n hash with
  | zero => rfl
  | succ rounds ih =>
    have hmin : min (min bufLen m) n = min bufLen n := by omega
    simp only [updateHashLoop, hmin]
    split_ifs
    · rfl
    · congr 1
      funext b
      exact ih _ _ _ (by omega)

theorem updateHashLoop_length {bufLen rounds pos n : ℕ} {hash r : List UInt8}
    (h : updateHashLoop st fileId fi bufLen rounds pos n hash = some r) :
    r.length = hash.length + n := by
  induction rounds generalizing pos n hash with
  | zero =>
    simp only [updateHashLoop] at h
    split_ifs at h with hn
    obtain rfl := Option.some.inj h
    omega
  | succ rounds ih =>
    simp only [updateHashLoop] at h
    split_ifs at h with hn
    · obtain rfl := Option.some.inj h
      omega
    · obtain ⟨b, hb, hr⟩ := Option.bind_eq_some_iff.1 h
      have hl := ih hr
      rw [List.length_append, readChunk_length hb] at hl
      omega

end Loop

/-! The stretches of a piece. -/

def readSegment (st : Storage) (s : Segment FileInfo) : Option (List UInt8) :=
  updateHashFromFile st s.index s.block readBuffer s.pos s.size []

def readSegments (st : Storage) : List (Segment FileInfo) → Option (List UInt8)
  | [] => some []
  | s :: ss => (readSegment st s).bind fun b => (readSegments st ss).map (b ++ ·)

theorem updateHash_segment (st : Storage) (i : ℕ) (fi : FileInfo) (pos n : ℕ) (h : List UInt8) :
    updateHashFromFile st i fi readBuffer pos n h =
      (readSegment st ⟨i, fi, pos, n⟩).map (h ++ ·) :=
  updateHashLoop_hash readBuffer n pos n h

theorem readSegment_length {s : Segment FileInfo} {b : List UInt8} (h : readSegment st s = some b) :
    b.length = s.size := by
  have hl := updateHashLoop_length h
  simpa using hl

theorem readSegments_length {ss : List (Segment FileInfo)} {b : List UInt8}
    (h : readSegments st ss = some b) : b.length = (ss.map Segment.size).sum := by
  induction ss generalizing b with
  | nil =>
    obtain rfl := Option.some.inj h
    rfl
  | cons s ss ih =>
    obtain ⟨c, hc, hb⟩ := Option.bind_eq_some_iff.1 h
    obtain ⟨d, hd, rfl⟩ := Option.map_eq_some_iff.1 hb
    rw [List.length_append, readSegment_length hc, ih hd, List.map_cons, List.sum_cons]

theorem readSegments_isSome {ss : List (Segment FileInfo)}
    (h : ∀ s ∈ ss, (readSegment st s).isSome = true) : ∃ b, readSegments st ss = some b := by
  induction ss with
  | nil => exact ⟨[], rfl⟩
  | cons s ss ih =>
    obtain ⟨x, hx⟩ := Option.isSome_iff_exists.1 (h s List.mem_cons_self)
    obtain ⟨y, hy⟩ := ih fun t ht => h t (List.mem_cons_of_mem s ht)
    exact ⟨x ++ y, by rw [readSegments, hx, Option.bind_some, hy, Option.map_some]⟩

/-- `check_piece` reads the stretches that start at the offset. -/
theorem checkPieceLoop_eq (m i : ℕ) (fs : List FileInfo) (off n : ℕ) (h : List UInt8) (hn : n ≤ m) :
    (checkPieceLoop st (min readBuffer m) i fs off n h).toOption =
      (readSegments st (segments FileInfo.len i fs off n)).map (h ++ ·) := by
  induction fs generalizing i off n h with
  | nil => simp [checkPieceLoop, segments, readSegments, Except.toOption]
  | cons fi fs ih =>
    have hupd (k : ℕ) (hk : k ≤ m) : updateHashFromFile st i fi (min readBuffer m) off k h =
        (readSegment st ⟨i, fi, off, k⟩).map (h ++ ·) :=
      (updateHashLoop_buf readBuffer m k off k h hk).trans (updateHash_segment st i fi off k h)
    rw [checkPieceLoop]
    split_ifs with hoff
    · rw [ih _ _ _ _ hn, segments_skip _ _ _ _ _ (le_of_lt hoff)]
    simp only
    rw [hupd _ (by omega)]
    by_cases hzero : n = 0
    · have hread : readSegment st ⟨i, fi, off, 0⟩ = some [] := rfl
      simp [hzero, hread, segments_zero, readSegments, Except.toOption]
    rcases Nat.lt_or_ge off fi.len with hlt | hge
    · -- a stretch of this file
      rw [segments_cons _ _ _ _ _ hzero hlt, readSegments]
      cases readSegment st ⟨i, fi, off, min (fi.len - off) n⟩ with
      | none => rfl
      | some b =>
        simp only [Option.map_some, Option.bind_some]
        split_ifs with hdone
        · rw [Nat.sub_eq_zero_of_le (by omega), segments_zero]
          simp [readSegments, Except.toOption]
        · have hrest : n - min (fi.len - off) n = n - (fi.len - off) := by omega
          rw [ih _ _ _ _ (by omega), hrest, Option.map_map]
          congr 1
          funext x
          simp
    · -- the offset is the end of this file: nothing is read
      obtain rfl : off = fi.len := by omega
      have hread : readSegment st ⟨i, fi, fi.len, 0⟩ = some [] := rfl
      simp only [Nat.sub_self, Nat.zero_min, hread, Option.map_some, List.append_nil, Nat.sub_zero,
        if_neg hzero]
      rw [ih _ _ _ _ hn, segments_skip _ _ _ _ _ le_rfl, Nat.sub_self]

/-! `initial_check` -/

/-- The files from number `i` on, untouched. -/
def freshFiles (i : ℕ) (fs : List FileInfo) : List CurrentFile :=
  (fs.zipIdx i).map fun x => ⟨x.2, x.1, 0, false⟩

/-- The current file and the iterator after `a` bytes of the torrent. -/
structure At (fs : List FileInfo) (a : ℕ) (f : CurrentFile) (files : List CurrentFile) : Prop where
  split : ∃ before after, fs = before ++ f.fi :: after ∧ f.index = before.length ∧
    files = freshFiles (f.index + 1) after ∧ a = (before.map FileInfo.len).sum + f.processedBytes
  le : f.processedBytes ≤ f.fi.len

theorem At.start {f : CurrentFile} {files : List CurrentFile} (h : currentFiles fs = f :: files) :
    At fs 0 f files ∧ f.isBroken = false := by
  cases fs with
  | nil => cases h
  | cons fi fs =>
    simp only [currentFiles, List.zipIdx_cons, List.map_cons, List.cons.injEq] at h
    obtain ⟨rfl, rfl⟩ := h
    exact ⟨⟨⟨[], fs, rfl, rfl, rfl, rfl⟩, Nat.zero_le _⟩, rfl⟩

theorem At.end_eq {a : ℕ} {f : CurrentFile} {files : List CurrentFile} (h : At fs a f files) :
    ∃ after, files = freshFiles (f.index + 1) after ∧
      (∀ j n, segments FileInfo.len 0 fs (a + j) n =
        segments FileInfo.len f.index (f.fi :: after) (f.processedBytes + j) n) ∧
      (fs.map FileInfo.len).sum =
        a + f.remaining + (after.map FileInfo.len).sum := by
  obtain ⟨⟨before, after, rfl, hi, hf, rfl⟩, hle⟩ := h
  refine ⟨after, hf, ?_, ?_⟩
  · intro j n
    rw [Nat.add_assoc, segments_append, hi, Nat.zero_add]
  · simp only [List.map_append, List.map_cons, List.sum_append, List.sum_cons, CurrentFile.remaining]
    omega

/-- The next file, when nothing is left of the current one. -/
theorem At.next {a : ℕ} {f g : CurrentFile} {files : List CurrentFile} (h : At fs a f (g :: files))
    (hr : f.remaining = 0) : At fs a g files ∧ g.isBroken = false := by
  obtain ⟨⟨before, after, rfl, hi, hf, rfl⟩, hle⟩ := h
  cases after with
  | nil => cases hf
  | cons fi after =>
    simp only [freshFiles, List.zipIdx_cons, List.map_cons, List.cons.injEq] at hf
    obtain ⟨rfl, rfl⟩ := hf
    refine ⟨⟨⟨before ++ [f.fi], after, by simp, by simp [hi], rfl, ?_⟩, Nat.zero_le _⟩, rfl⟩
    simp only [CurrentFile.remaining] at hr
    simp only [List.map_append, List.map_cons, List.map_nil, List.sum_append, List.sum_cons,
      List.sum_nil]
    omega

theorem At.mark {a n : ℕ} {f : CurrentFile} {files : List CurrentFile} (h : At fs a f files)
    (hn : n ≤ f.remaining) (broken : Bool) :
    At fs (a + n) { f.markProcessedBytes n with isBroken := broken } files := by
  obtain ⟨⟨before, after, hfs, hi, hf, ha⟩, hle⟩ := h
  simp only [CurrentFile.remaining] at hn
  refine ⟨⟨before, after, hfs, hi, hf, ?_⟩, ?_⟩
  · simp only [CurrentFile.markProcessedBytes]
    omega
  · simp only [CurrentFile.markProcessedBytes]
    omega

theorem skipFiles_at {a n : ℕ} {f : CurrentFile} {files : List CurrentFile} (h : At fs a f files)
    (hn : n ≠ 0) (hle : a + n ≤ (fs.map FileInfo.len).sum) :
    ∃ g gs, skipFiles n f files = some (g, gs) ∧ At fs a g gs ∧ 0 < g.remaining ∧
      (f.isBroken = false → g.isBroken = false) := by
  induction files generalizing f with
  | nil =>
    obtain ⟨after, hf, -, hsum⟩ := h.end_eq
    cases after with
    | nil =>
      simp only [List.map_nil, List.sum_nil] at hsum
      refine ⟨f, [], ?_, h, by omega, id⟩
      rw [skipFiles, if_neg (by omega)]
    | cons fi after => cases hf
  | cons g files ih =>
    by_cases hz : f.remaining = 0
    · obtain ⟨hat, hb⟩ := h.next hz
      obtain ⟨g', gs, hs, hat', hpos, hb'⟩ := ih hat
      refine ⟨g', gs, ?_, hat', hpos, fun _ => hb' hb⟩
      rw [skipFiles, if_pos (by omega), hs]
    · refine ⟨f, g :: files, ?_, h, by omega, id⟩
      rw [skipFiles, if_neg (by omega)]

/-- What the loop over a piece of `n` bytes, `a` bytes into the torrent, does. `short` is the
case of a file that was found broken at an earlier piece. -/
structure Scanned (st : Storage) (fs : List FileInfo) (a n : ℕ) (s s' : Scan) : Prop where
  at_end : At fs (a + n) s'.currentFile s'.fileIterator
  sound : s'.someFilesBroken = false → s.someFilesBroken = false ∧
    ((∃ b, readSegments st (segments FileInfo.len 0 fs a n) = some b ∧
        s'.computedHash = s.computedHash ++ b) ∨
      s'.computedHash.length < s.computedHash.length + n)
  complete : (∀ seg ∈ segments FileInfo.len 0 fs a n, (readSegment st seg).isSome) →
    s.currentFile.isBroken = false → s.someFilesBroken = false →
      s'.currentFile.isBroken = false ∧ s'.someFilesBroken = false ∧
        ∃ b, readSegments st (segments FileInfo.len 0 fs a n) = some b ∧
          s'.computedHash = s.computedHash ++ b

/-- One read in the current file: the stretch is hashed, or the file is found broken, or it
was found broken before. -/
theorem readInFile_cases (st : Storage) (s : Scan) (n : ℕ) :
    (∃ b, readSegment st ⟨s.currentFile.index, s.currentFile.fi, s.currentFile.processedBytes, n⟩ =
        some b ∧ s.currentFile.isBroken = false ∧
      readInFile st s n =
        { s with
          currentFile := { s.currentFile.markProcessedBytes n with isBroken := false }
          computedHash := s.computedHash ++ b }) ∨
    (readSegment st ⟨s.currentFile.index, s.currentFile.fi, s.currentFile.processedBytes, n⟩ = none ∧
      readInFile st s n =
        { s with
          currentFile := { s.currentFile.markProcessedBytes n with isBroken := true }
          someFilesBroken := true }) ∨
    s.currentFile.isBroken = true ∧
      readInFile st s n =
        { s with currentFile := { s.currentFile.markProcessedBytes n with isBroken := true } } := by
  unfold readInFile
  simp only [updateHash_segment]
  cases hb : s.currentFile.isBroken with
  | true =>
    refine Or.inr (Or.inr ⟨rfl, ?_⟩)
    simp only [if_true, CurrentFile.markProcessedBytes, hb]
  | false =>
    cases hr : readSegment st
        ⟨s.currentFile.index, s.currentFile.fi, s.currentFile.processedBytes, n⟩ with
    | none => exact Or.inr (Or.inl ⟨rfl, by simp⟩)
    | some b =>
      refine Or.inl ⟨b, rfl, rfl, ?_⟩
      simp [CurrentFile.markProcessedBytes, hb]

theorem Scanned.refl {a : ℕ} {s : Scan} (h : At fs a s.currentFile s.fileIterator) :
    Scanned st fs a 0 s s := by
  refine ⟨h, ?_, ?_⟩
  · intro hs
    exact ⟨hs, Or.inl ⟨[], by simp [readSegments], by simp⟩⟩
  · intro _ hb hs
    exact ⟨hb, hs, [], by simp [readSegments], by simp⟩

/-- One round of the loop, and the rest of it. -/
theorem Scanned.cons {a k n : ℕ} {s s₁ s' : Scan} {seg : Segment FileInfo} (hk : seg.size = k)
    (hkn : k ≤ n)
    (hseg : segments FileInfo.len 0 fs a n = seg :: segments FileInfo.len 0 fs (a + k) (n - k))
    (hread : (∃ b, readSegment st seg = some b ∧ s₁.currentFile.isBroken = false ∧
        s₁.someFilesBroken = s.someFilesBroken ∧ s₁.computedHash = s.computedHash ++ b) ∨
      readSegment st seg = none ∧ s₁.someFilesBroken = true ∨
      0 < k ∧ s.currentFile.isBroken = true ∧ s₁.someFilesBroken = s.someFilesBroken ∧
        s₁.computedHash = s.computedHash)
    (h : Scanned st fs (a + k) (n - k) s₁ s') : Scanned st fs a n s s' := by
  refine ⟨?_, ?_, ?_⟩
  · have hend := h.at_end
    rwa [show a + k + (n - k) = a + n by omega] at hend
  · intro hs'
    obtain ⟨hs₁, hh⟩ := h.sound hs'
    rcases hread with ⟨b, hb, -, hs, hh₁⟩ | ⟨-, hs⟩ | ⟨hpos, -, hs, hh₁⟩
    · have hlen := readSegment_length hb
      refine ⟨hs ▸ hs₁, ?_⟩
      rcases hh with ⟨r, hr, he⟩ | hlt
      · refine Or.inl ⟨b ++ r, ?_, by rw [he, hh₁, List.append_assoc]⟩
        rw [hseg, readSegments, hb, Option.bind_some, hr, Option.map_some]
      · rw [hh₁, List.length_append] at hlt
        exact Or.inr (by omega)
    · rw [hs] at hs₁
      cases hs₁
    · refine ⟨hs ▸ hs₁, Or.inr ?_⟩
      rw [hh₁] at hh
      -- the stretch is missing from the hash, whatever the rest adds
      rcases hh with ⟨r, hr, he⟩ | hlt
      · rw [he, List.length_append]
        have hlen := readSegments_length hr
        have hsum : ((segments FileInfo.len 0 fs (a + k) (n - k)).map Segment.size).sum ≤ n - k :=
          sum_segments_le fs 0 (a + k) (n - k)
        omega
      · omega
  · intro hall hb hs
    rw [hseg] at hall
    have hsome := hall seg List.mem_cons_self
    rcases hread with ⟨b, hrb, hb₁, hs₁, hh₁⟩ | ⟨hnone, -⟩ | ⟨-, hb₁, -⟩
    · obtain ⟨hb', hs', r, hr, he⟩ :=
        h.complete (fun x hx => hall x (List.mem_cons_of_mem seg hx)) hb₁ (hs₁.trans hs)
      refine ⟨hb', hs', b ++ r, ?_, by rw [he, hh₁, List.append_assoc]⟩
      rw [hseg, readSegments, hrb, Option.bind_some, hr, Option.map_some]
    · simp [hnone] at hsome
    · simp [hb] at hb₁

/-- The loop over a piece that lies inside the files returns, whatever can be read. -/
theorem scanLoop_scanned (rounds a n : ℕ) (s : Scan) (hr : n ≤ rounds)
    (hat : At fs a s.currentFile s.fileIterator) (hle : a + n ≤ (fs.map FileInfo.len).sum) :
    ∃ s', scanLoop st rounds n s = .ok s' ∧ Scanned st fs a n s s' := by
  induction rounds generalizing a n s with
  | zero =>
    obtain rfl : n = 0 := by omega
    exact ⟨s, rfl, Scanned.refl hat⟩
  | succ rounds ih =>
    by_cases hn : n = 0
    · subst hn
      exact ⟨s, rfl, Scanned.refl hat⟩
    obtain ⟨g, gs, hskip, hg, hpos, hgb⟩ := skipFiles_at hat hn hle
    set k := min g.remaining n with hk
    set s₁ := readInFile st { s with currentFile := g, fileIterator := gs } k with hs₁
    have hcases := readInFile_cases st { s with currentFile := g, fileIterator := gs } k
    have hat₁ : At fs (a + k) s₁.currentFile s₁.fileIterator := by
      rcases hcases with ⟨b, -, -, he⟩ | ⟨-, he⟩ | ⟨-, he⟩
      all_goals rw [hs₁, he]; exact hg.mark (by omega) _
    obtain ⟨s', hs', hsc⟩ := ih (a + k) (n - k) s₁ (by omega) hat₁ (by omega)
    refine ⟨s', ?_, ?_⟩
    · rw [scanLoop, if_neg hn, hskip]
      exact hs'
    have hseg : segments FileInfo.len 0 fs a n =
        ⟨g.index, g.fi, g.processedBytes, k⟩ :: segments FileInfo.len 0 fs (a + k) (n - k) := by
      obtain ⟨after, -, hsegs, -⟩ := hg.end_eq
      have hstart := hsegs 0 n
      rw [Nat.add_zero, Nat.add_zero] at hstart
      rw [hstart, hsegs k]
      simp only [CurrentFile.remaining] at hpos
      exact segments_next _ _ _ _ _ hn (by omega)
    refine Scanned.cons (k := k) rfl (by omega) hseg ?_ hsc
    rcases hcases with ⟨b, hb, -, he⟩ | ⟨hb, he⟩ | ⟨hb, he⟩
    · exact Or.inl ⟨b, hb, by rw [hs₁, he], by rw [hs₁, he], by rw [hs₁, he]⟩
    · exact Or.inr (Or.inl ⟨hb, by rw [hs₁, he]⟩)
    · refine Or.inr (Or.inr ⟨by omega, ?_, by rw [hs₁, he], by rw [hs₁, he]⟩)
      by_contra hf
      have hg : g.isBroken = true := hb
      rw [hgb (by simpa using hf)] at hg
      cases hg

/-! When no read fails. -/

/-- Every read inside a file succeeds. -/
def NoReadFails (fs : List FileInfo) (st : Storage) : Prop :=
  ∀ i fi, fs[i]? = some fi → fi.padding = false →
    ∀ pos n, pos + n ≤ fi.len → (st.preadExact i pos n).isSome = true

theorem updateHashLoop_isSome {i : ℕ} {fi : FileInfo} {bufLen : ℕ} (hbuf : 0 < bufLen)
    {rounds pos n : ℕ} (hash : List UInt8) (hr : n ≤ rounds)
    (h : ∀ p k, p + k ≤ pos + n → (readChunk st i fi p k).isSome = true) :
    (updateHashLoop st i fi bufLen rounds pos n hash).isSome = true := by
  induction rounds generalizing pos n hash with
  | zero =>
    obtain rfl : n = 0 := by omega
    rfl
  | succ rounds ih =>
    rw [updateHashLoop]
    split_ifs with hn
    · rfl
    · obtain ⟨b, hb⟩ := Option.isSome_iff_exists.1 (h pos (min bufLen n) (by omega))
      simp only [hb, Option.bind_some]
      exact ih _ (by omega) fun p k hpk => h p k (by omega)

theorem NoReadFails.segment (h : NoReadFails fs st) {a n : ℕ} {seg : Segment FileInfo}
    (hseg : seg ∈ segments FileInfo.len 0 fs a n) : (readSegment st seg).isSome = true := by
  obtain ⟨j, hi, hj, hle⟩ := mem_segments hseg
  rw [Nat.zero_add] at hi
  refine updateHashLoop_isSome (by decide) [] le_rfl ?_
  intro p k hpk
  unfold readChunk
  split_ifs with hpad
  · rfl
  · exact h _ _ (hi ▸ hj) (by simpa using hpad) p k (by omega)

end FileOps

end Rtbit
