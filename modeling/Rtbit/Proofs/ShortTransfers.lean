import Rtbit.Sanity.Filesystem

/-! All or an error. The loops keep the promise. The two variants that make one call and do not
look at how much it has transferred keep it if the system does: `pwritev` on unix, whose count
`write_chunk` compares in debug builds only, and `seek_read` on Windows. -/

namespace Rtbit

namespace Filesystem

namespace FilesystemStorage

variable (os : Os) (p : Platform) (s : FilesystemStorage) (d : Disk)

def VectoredAllOrError (fileId offset : ℕ) (bufs : List UInt8 × List UInt8) : Prop :=
  ∀ d' n, s.pwriteAllVectored os p d fileId offset bufs = (d', .ok n) →
    ∃ f, s.lockRead fileId = .ok f ∧ Wrote d d' f offset (bufs.1 ++ bufs.2)

def PwriteAllOrError (fileId offset : ℕ) (buf : List UInt8) : Prop :=
  ∀ d', s.pwriteAll os p d fileId offset buf = (d', .ok ()) →
    ∃ f, s.lockRead fileId = .ok f ∧ Wrote d d' f offset buf

def PreadAllOrError (fileId offset : ℕ) (buf : List UInt8) : Prop :=
  ∀ d' buf', s.preadExact os p d fileId offset buf = (d', buf', .ok ()) →
    buf'.length = buf.length ∧ ∃ f, s.lockRead fileId = .ok f ∧ Filled d d' f offset buf'

/-- The bytes at `off` of the files that are numbered from `i`, as far as they are in no padding
file, have been written. -/
def ChunkMoved (calls : List SysCall) (i : ℕ) (fs : List FileInfo) (off : ℕ) (bytes : List UInt8) :
    Prop :=
  ∀ j fi, fs[j]? = some fi → fi.padding = false → ∀ k < fi.len, ∀ m b, bytes[m]? = some b →
    ((fs.take j).map FileInfo.len).sum + k = off + m →
      ∃ f, s.lockRead (i + j) = .ok f ∧ ∃ c ∈ calls, c.Moves .write f k b

def ChunkAllOrError {B : Type} (debugAssertions : Bool) (h : DoubleBufHelper B) (l : Lengths)
    (fs : List FileInfo) (c : ChunkInfo) (data : List UInt8 × List UInt8) : Prop :=
  ∀ d', s.writeChunk os p debugAssertions h l fs d c data = (d', .ok ()) →
    ∃ new, d'.calls = d.calls ++ new ∧
      s.ChunkMoved new 0 fs (l.chunkAbsoluteOffset c) (data.1 ++ data.2)

/-! When the system stops short. -/

/-- The `pwritev` of `len` bytes is answered with fewer. -/
def ShortWrite (fileId offset len : ℕ) : Prop :=
  p = .unix ∧ offset < 2 ^ 63 ∧ ∃ f n, s.lockRead fileId = .ok f ∧
    os.answer d.calls .write f offset len = some n ∧ n < len

/-- The `seek_read` into a buffer of `len` bytes is answered with fewer, or the file ends. -/
def ShortRead (fileId offset len : ℕ) : Prop :=
  p = .windows ∧ ∃ f n, s.lockRead fileId = .ok f ∧
    os.answer d.calls .read f offset len = some n ∧ min n ((d.bytes f).length - offset) < len

/-- What a chunk has of one file. -/
structure Part where
  fileIdx : ℕ
  offset : ℕ
  bytes : List UInt8

/-- The bytes at `off` of the files that are numbered from `i`, by file; none of padding. -/
def parts : ℕ → List FileInfo → ℕ → List UInt8 → List Part
  | _, [], _, _ => []
  | i, fi :: fis, off, bytes =>
    if off > fi.len then parts (i + 1) fis (off - fi.len) bytes
    else
      (if fi.padding then [] else [⟨i, off, bytes.take (fi.len - off)⟩]) ++
        if bytes.length ≤ fi.len - off then []
        else parts (i + 1) fis 0 (bytes.drop (fi.len - off))

/-- A `pwritev` of each part in turn, with what the system transfers of it; `none` if one of them
is answered with an error. -/
def pwritevs : Disk → List Part → Option (List SysCall)
  | _, [] => some []
  | d, q :: rest =>
    match s.lockRead q.fileIdx with
    | .error _ => none
    | .ok f =>
      if q.offset ≥ 2 ^ 63 then none
      else
        match writeAt os d f q.offset q.bytes with
        | (_, none) => none
        | (d, some n) =>
          (pwritevs d rest).map (⟨.write, f, q.offset, q.bytes.length, q.bytes.take n⟩ :: ·)

/-- Each `pwritev` of the chunk is answered in full, or one of them with an error. -/
def AnsweredInFull (ps : List Part) : Prop :=
  ∀ calls, s.pwritevs os d ps = some calls → ∀ c ∈ calls, c.moved.length = c.len

variable {os p s d} {d' : Disk} {fileId offset : ℕ} {buf : List UInt8}
  {bufs : List UInt8 × List UInt8}

/-! The calls on one file. -/

theorem file_pwriteAll_wrote {f : File} (h : File.pwriteAll os p d f offset buf = (d', .ok ())) :
    Wrote d d' f offset buf := by
  unfold File.pwriteAll at h
  cases p with
  | unix => exact writeAllLoop_wrote le_rfl h
  | windows => exact writeAllLoop_wrote le_rfl h
  | other => cases h

theorem pwriteAll_allOrError (fileId offset : ℕ) (buf : List UInt8) :
    s.PwriteAllOrError os p d fileId offset buf := by
  intro d' h
  unfold pwriteAll at h
  cases hf : s.lockRead fileId with
  | error e =>
    rw [hf] at h
    cases h
  | ok f =>
    rw [hf] at h
    exact ⟨f, rfl, file_pwriteAll_wrote h⟩

theorem countAll_ok {n m : ℕ} {r : Disk × Except IoError Unit} (h : countAll n r = (d', .ok m)) :
    r = (d', .ok ()) ∧ n = m := by
  obtain ⟨d₁, r⟩ := r
  cases r with
  | error e => cases h
  | ok u =>
    cases h
    exact ⟨rfl, rfl⟩

theorem file_together_wrote {f : File} {n : ℕ} {first second : List UInt8}
    (h : File.pwriteAllTogether os p d f offset first second = (d', .ok n)) :
    Wrote d d' f offset (first ++ second) := by
  cases first with
  | nil =>
    cases second with
    | nil =>
      cases h
      exact Wrote.nil _ f offset
    | cons b second => exact file_pwriteAll_wrote (countAll_ok h).1
  | cons a first =>
    cases second with
    | nil =>
      rw [List.append_nil]
      exact file_pwriteAll_wrote (countAll_ok h).1
    | cons b second =>
      unfold File.pwriteAllTogether at h
      dsimp only at h
      by_cases hfirst : (a :: first).length > chunkSize
      · rw [if_pos hfirst] at h
        cases h
      rw [if_neg hfirst] at h
      by_cases hboth : (a :: first).length + (b :: second).length > chunkSize
      · rw [if_pos hboth] at h
        cases h
      rw [if_neg hboth] at h
      exact file_pwriteAll_wrote (countAll_ok h).1

/-- A count of all bytes tells that they are written, and off unix the count is that. -/
theorem file_vectored_wrote {f : File} {n : ℕ}
    (h : File.pwriteAllVectored os p d f offset bufs = (d', .ok n))
    (hfull : p = .unix → n = (bufs.1 ++ bufs.2).length) : Wrote d d' f offset (bufs.1 ++ bufs.2) := by
  unfold File.pwriteAllVectored at h
  cases p with
  | unix =>
    dsimp only at h
    by_cases hoff : offset ≥ 2 ^ 63
    · rw [if_pos hoff] at h
      cases h
    rw [if_neg hoff] at h
    cases hw : writeAt os d f offset (bufs.1 ++ bufs.2) with
    | mk d₁ r =>
      rw [hw] at h
      cases r with
      | none => cases h
      | some m =>
        cases h
        have hwrote := (writeAt_some hw).2.1
        rwa [hfull rfl, List.take_length] at hwrote
  | windows => exact file_together_wrote h
  | other => exact file_together_wrote h

theorem vectored_wrote {n : ℕ} (h : s.pwriteAllVectored os p d fileId offset bufs = (d', .ok n))
    (hfull : p = .unix → n = (bufs.1 ++ bufs.2).length) :
    ∃ f, s.lockRead fileId = .ok f ∧ Wrote d d' f offset (bufs.1 ++ bufs.2) := by
  unfold pwriteAllVectored at h
  cases hf : s.lockRead fileId with
  | error e =>
    rw [hf] at h
    cases h
  | ok f =>
    rw [hf] at h
    exact ⟨f, rfl, file_vectored_wrote h hfull⟩

/-- The `pwritev` that unix makes of a vectored write. -/
theorem vectored_unix {f : File} {n : ℕ} (hf : s.lockRead fileId = .ok f) (hoff : offset < 2 ^ 63)
    (hw : writeAt os d f offset (bufs.1 ++ bufs.2) = (d', some n)) :
    s.pwriteAllVectored os .unix d fileId offset bufs = (d', .ok n) := by
  rw [pwriteAllVectored, hf]
  dsimp only
  rw [File.pwriteAllVectored, if_neg (not_le.2 hoff), hw]

theorem vectored_unix_ok {n : ℕ} (h : s.pwriteAllVectored os .unix d fileId offset bufs = (d', .ok n)) :
    ∃ f, s.lockRead fileId = .ok f ∧ offset < 2 ^ 63 ∧
      writeAt os d f offset (bufs.1 ++ bufs.2) = (d', some n) := by
  unfold pwriteAllVectored at h
  cases hf : s.lockRead fileId with
  | error e =>
    rw [hf] at h
    cases h
  | ok f =>
    rw [hf] at h
    dsimp only [File.pwriteAllVectored] at h
    by_cases hoff : offset ≥ 2 ^ 63
    · rw [if_pos hoff] at h
      cases h
    rw [if_neg hoff] at h
    cases hw : writeAt os d f offset (bufs.1 ++ bufs.2) with
    | mk d₁ r =>
      rw [hw] at h
      cases r with
      | none => cases h
      | some m =>
        cases h
        exact ⟨f, rfl, not_le.1 hoff, hw⟩

theorem vectored_allOrError_iff (os : Os) (p : Platform) (s : FilesystemStorage) (d : Disk)
    (fileId offset : ℕ) (bufs : List UInt8 × List UInt8) :
    s.VectoredAllOrError os p d fileId offset bufs ↔
      ¬s.ShortWrite os p d fileId offset (bufs.1 ++ bufs.2).length := by
  constructor
  · rintro h ⟨rfl, hoff, f, n, hf, ha, hlt⟩
    have hw : writeAt os d f offset (bufs.1 ++ bufs.2) =
        (⟨stored d.bytes f offset ((bufs.1 ++ bufs.2).take n), d.calls ++
          [⟨.write, f, offset, (bufs.1 ++ bufs.2).length, (bufs.1 ++ bufs.2).take n⟩]⟩, some n) := by
      rw [writeAt, ha]
    obtain ⟨f', hf', ⟨new, hnew, hmoved⟩, -⟩ := h _ n (vectored_unix hf hoff hw)
    obtain rfl := Except.ok.inj (hf.symm.trans hf')
    rw [← List.append_cancel_left hnew] at hmoved
    refine not_moved_short ?_ hmoved
    rw [List.length_take]
    omega
  · intro h d' n hok
    refine vectored_wrote hok ?_
    rintro rfl
    obtain ⟨f, hf, hoff, hw⟩ := vectored_unix_ok hok
    have ha := (writeAt_some hw).1
    by_contra hne
    exact h ⟨rfl, hoff, f, n, hf, ha, lt_of_le_of_ne (os.le _ _ _ _ _ _ ha) hne⟩

theorem pread_allOrError_iff (os : Os) (p : Platform) (s : FilesystemStorage) (d : Disk)
    (fileId offset : ℕ) (buf : List UInt8) :
    s.PreadAllOrError os p d fileId offset buf ↔ ¬s.ShortRead os p d fileId offset buf.length := by
  constructor
  · rintro h ⟨rfl, f, n, hf, ha, hlt⟩
    set b := ((d.bytes f).drop offset).take n with hb
    have hblen : b.length < buf.length := by
      rw [hb, List.length_take, List.length_drop]
      exact hlt
    have hread : s.preadExact os .windows d fileId offset buf =
        ({ d with calls := d.calls ++ [⟨.read, f, offset, buf.length, b⟩] },
          b ++ buf.drop b.length, .ok ()) := by
      rw [preadExact, hf]
      dsimp only
      rw [File.preadExact, readAt, ha]
    obtain ⟨hlen, f', hf', ⟨new, hnew, hmoved⟩, -, -⟩ := h _ _ hread
    obtain rfl := Except.ok.inj (hf.symm.trans hf')
    rw [← List.append_cancel_left hnew] at hmoved
    exact not_moved_short (by rw [hlen]; exact hblen) hmoved
  · intro h d' buf' hok
    unfold preadExact at hok
    cases hf : s.lockRead fileId with
    | error e =>
      rw [hf] at hok
      cases hok
    | ok f =>
      rw [hf] at hok
      dsimp only [File.preadExact] at hok
      cases p with
      | other => cases hok
      | unix =>
        cases hl : readExactLoop os buf.length d f offset buf.length with
        | mk d₁ r =>
          obtain ⟨b, r⟩ := r
          rw [hl] at hok
          cases hok
          obtain ⟨hlen, hfilled⟩ := readExactLoop_filled le_rfl hl
          rw [hlen, List.drop_length, List.append_nil]
          exact ⟨hlen, f, rfl, hfilled⟩
      | windows =>
        cases hr : readAt os d f offset buf.length with
        | mk d₁ r =>
          rw [hr] at hok
          cases r with
          | none => cases hok
          | some b =>
            cases hok
            obtain ⟨⟨n, ha, hb⟩, hfilled, -⟩ := readAt_some hr
            have hle := os.le _ _ _ _ _ _ ha
            have hlen : b.length = buf.length := by
              by_contra hne
              refine h ⟨rfl, f, n, hf, ha, ?_⟩
              rw [hb, List.length_take, List.length_drop] at hne
              omega
            rw [hlen, List.drop_length, List.append_nil]
            exact ⟨hlen, f, rfl, hfilled⟩

/-! A chunk, by the parts it has in the files. -/

/-- Every byte of every part has been written. -/
def PartsMoved (s : FilesystemStorage) (calls : List SysCall) (ps : List Part) : Prop :=
  ∀ q ∈ ps, ∀ m b, q.bytes[m]? = some b →
    ∃ f, s.lockRead q.fileIdx = .ok f ∧ ∃ c ∈ calls, c.Moves .write f (q.offset + m) b

variable {calls : List SysCall} {i off : ℕ} {fi : FileInfo} {fs : List FileInfo}
  {bytes : List UInt8}

/-- The first file and the others. -/
theorem chunkMoved_cons : s.ChunkMoved calls i (fi :: fs) off bytes ↔
    (fi.padding = false → ∀ m b, off + m < fi.len → bytes[m]? = some b →
      ∃ f, s.lockRead i = .ok f ∧ ∃ c ∈ calls, c.Moves .write f (off + m) b) ∧
    s.ChunkMoved calls (i + 1) fs (off - fi.len) (bytes.drop (fi.len - off)) := by
  constructor
  · intro h
    refine ⟨?_, ?_⟩
    · intro hp m b hlt hb
      exact h 0 fi rfl hp (off + m) hlt m b hb (by simp)
    · intro j fj hj hp k hk m b hb hpos
      rw [List.getElem?_drop] at hb
      have hm := h (j + 1) fj (by simpa using hj) hp k hk _ b hb (by
        simp only [List.take_succ_cons, List.map_cons, List.sum_cons]
        omega)
      rwa [← Nat.add_assoc, Nat.add_right_comm] at hm
  · rintro ⟨hhead, htail⟩ j fj hj hp k hk m b hb hpos
    cases j with
    | zero =>
      obtain rfl := Option.some.inj hj
      simp only [List.take_zero, List.map_nil, List.sum_nil, Nat.zero_add] at hpos
      subst hpos
      exact hhead hp m b hk hb
    | succ j =>
      simp only [List.take_succ_cons, List.map_cons, List.sum_cons] at hpos
      have hm := htail j fj (by simpa using hj) hp k hk (m - (fi.len - off)) b (by
        rw [List.getElem?_drop, ← hb]
        congr 1
        omega) (by omega)
      rwa [Nat.add_right_comm] at hm

theorem chunkMoved_nil_bytes : s.ChunkMoved calls i fs off [] := by
  rintro j fj - - k - m b ⟨⟩

theorem partsMoved_append {ps qs : List Part} : s.PartsMoved calls (ps ++ qs) ↔
    s.PartsMoved calls ps ∧ s.PartsMoved calls qs :=
  List.forall_mem_append

/-- The parts have the bytes of the chunk that are not padding. -/
theorem chunkMoved_iff : s.ChunkMoved calls i fs off bytes ↔
    s.PartsMoved calls (parts i fs off bytes) := by
  induction fs generalizing i off bytes with
  | nil =>
    refine iff_of_true ?_ ?_
    · rintro j fj hj
      simp at hj
    · rintro q ⟨⟩
  | cons fi fs ih =>
    rw [chunkMoved_cons, parts]
    by_cases hoff : off > fi.len
    · rw [if_pos hoff, ← ih, Nat.sub_eq_zero_of_le hoff.le, List.drop_zero]
      refine and_iff_right ?_
      intro _ m b hlt
      omega
    · rw [if_neg hoff, partsMoved_append]
      refine and_congr ?_ ?_
      · by_cases hp : fi.padding = true
        · rw [if_pos hp]
          refine iff_of_true ?_ ?_
          · intro hf
            rw [hp] at hf
            cases hf
          · rintro q ⟨⟩
        · rw [if_neg hp]
          constructor
          · intro h q hq m b hb
            obtain rfl := List.mem_singleton.1 hq
            have hm : m < fi.len - off := by
              have hlt := (List.getElem?_eq_some_iff.1 hb).1
              rw [List.length_take] at hlt
              omega
            rw [List.getElem?_take_of_lt hm] at hb
            exact h (by simpa using hp) m b (by omega) hb
          · intro h _ m b hlt hb
            refine h _ (List.mem_singleton_self _) m b ?_
            rw [List.getElem?_take_of_lt (by omega)]
            exact hb
      · have hzero : off - fi.len = 0 := by omega
        rw [hzero]
        by_cases hend : bytes.length ≤ fi.len - off
        · rw [if_pos hend, List.drop_eq_nil_of_le hend]
          refine iff_of_true chunkMoved_nil_bytes ?_
          rintro q ⟨⟩
        · rw [if_neg hend]
          exact ih

section Loop

variable {B : Type} {debugAssertions : Bool} {h : DoubleBufHelper B} {data : B}

/-- The slices of one file are its part of the chunk. -/
theorem slices_eq (h : DoubleBufHelper B) (data : B) (n : ℕ) :
    (h.asIoslices data (min (h.len data) n)).1 ++ (h.asIoslices data (min (h.len data) n)).2 =
      (h.bytes data).take n := by
  rw [h.ioslices_eq data _ (Nat.min_le_left _ _), h.len_eq, List.take_eq_take_iff]
  omega

/-- What is left of the chunk behind a file. -/
theorem advance_eq (h : DoubleBufHelper B) (data : B) (n : ℕ) :
    h.bytes (h.advance data (min (h.len data) n)) = (h.bytes data).drop n := by
  rw [h.bytes_advance data _ (Nat.min_le_left _ _), h.len_eq]
  rcases Nat.le_total (h.bytes data).length n with hle | hle
  · rw [Nat.min_eq_left hle, List.drop_length, List.drop_eq_nil_of_le hle]
  · rw [Nat.min_eq_right hle]

theorem len_advance (h : DoubleBufHelper B) (data : B) (n : ℕ) :
    h.len (h.advance data (min (h.len data) n)) = 0 ↔ (h.bytes data).length ≤ n := by
  rw [h.len_eq, advance_eq, List.length_drop, Nat.sub_eq_zero_iff_le]

/-- Off unix, and in a debug build, what `write_chunk` has written to a file is all of its part. -/
theorem writeFile_wrote {toWrite : ℕ} {slices : List UInt8 × List UInt8}
    (hp : fi.padding = false) (hlen : toWrite = (slices.1 ++ slices.2).length)
    (hfull : debugAssertions = true ∨ p ≠ .unix)
    (hok : s.writeFile os p debugAssertions d i fi off toWrite slices = (d', .ok ())) :
    ∃ f, s.lockRead i = .ok f ∧ Wrote d d' f off (slices.1 ++ slices.2) := by
  rw [writeFile, if_neg (by simp [hp])] at hok
  cases hv : s.pwriteAllVectored os p d i off slices with
  | mk d₁ r =>
    rw [hv] at hok
    cases r with
    | error e => cases hok
    | ok written =>
      dsimp only at hok
      by_cases hassert : debugAssertions = true ∧ written ≠ toWrite
      · rw [if_pos hassert] at hok
        cases hok
      rw [if_neg hassert] at hok
      cases hok
      refine vectored_wrote hv ?_
      intro hunix
      have hdebug := hfull.resolve_right (not_not.2 hunix)
      rw [← hlen]
      by_contra hne
      exact hassert ⟨hdebug, hne⟩

theorem PartsMoved.mono {new : List SysCall} {ps : List Part} (hsub : ∀ c ∈ calls, c ∈ new)
    (hm : s.PartsMoved calls ps) : s.PartsMoved new ps := by
  intro q hq m b hb
  obtain ⟨f, hf, c, hc, hmoves⟩ := hm q hq m b hb
  exact ⟨f, hf, c, hsub c hc, hmoves⟩

theorem loop_moved (hfull : debugAssertions = true ∨ p ≠ .unix)
    (hok : s.writeChunkLoop os p debugAssertions h i fs off data d = (d', .ok ())) :
    ∃ new, d'.calls = d.calls ++ new ∧ s.PartsMoved new (parts i fs off (h.bytes data)) := by
  induction fs generalizing i off data d with
  | nil =>
    cases hok
    exact ⟨[], (List.append_nil _).symm, by rintro q ⟨⟩⟩
  | cons fi fs ih =>
    rw [writeChunkLoop] at hok
    rw [parts]
    by_cases hoff : off > fi.len
    · rw [if_pos hoff] at hok ⊢
      exact ih hok
    rw [if_neg hoff] at hok ⊢
    dsimp only at hok
    have hslices := slices_eq h data (fi.len - off)
    cases hw : s.writeFile os p debugAssertions d i fi off (min (h.len data) (fi.len - off))
        (h.asIoslices data (min (h.len data) (fi.len - off))) with
    | mk d₁ r =>
      rw [hw] at hok
      cases r with
      | error e => cases hok
      | ok u =>
        dsimp only at hok
        obtain ⟨new, hnew, hmoved⟩ : ∃ new, d₁.calls = d.calls ++ new ∧ s.PartsMoved new
            (if fi.padding then [] else [⟨i, off, (h.bytes data).take (fi.len - off)⟩]) := by
          by_cases hp : fi.padding = true
          · rw [writeFile, if_pos hp] at hw
            cases hw
            rw [if_pos hp]
            exact ⟨[], (List.append_nil _).symm, by rintro q ⟨⟩⟩
          · rw [if_neg hp]
            have hlen : min (h.len data) (fi.len - off) = ((h.bytes data).take (fi.len - off)).length := by
              rw [List.length_take, h.len_eq, Nat.min_comm]
            obtain ⟨f, hf, ⟨new, hnew, hmoved⟩, -⟩ :=
              writeFile_wrote (by simpa using hp) (by rw [hslices, hlen]) hfull hw
            rw [hslices] at hmoved
            refine ⟨new, hnew, ?_⟩
            intro q hq m b hb
            obtain rfl := List.mem_singleton.1 hq
            exact ⟨f, hf, hmoved m b hb⟩
        by_cases hend : (h.bytes data).length ≤ fi.len - off
        · rw [if_pos ((len_advance h data _).2 hend)] at hok
          rw [if_pos hend]
          cases hok
          rw [List.append_nil]
          exact ⟨new, hnew, hmoved⟩
        · rw [if_neg (mt (len_advance h data _).1 hend)] at hok
          rw [if_neg hend]
          obtain ⟨rest, hrest, hmrest⟩ := ih hok
          rw [advance_eq] at hmrest
          refine ⟨new ++ rest, by rw [hrest, hnew, List.append_assoc], ?_⟩
          exact partsMoved_append.2 ⟨hmoved.mono fun c hc => List.mem_append_left _ hc,
            hmrest.mono fun c hc => List.mem_append_right _ hc⟩

/-- The result of a chunk whose parts the system answers with `calls`. -/
def EndsAs (d : Disk) (r : Disk × Except WriteChunkError Unit) (calls : Option (List SysCall)) :
    Prop :=
  (∃ cs, calls = some cs ∧ ∃ d', r = (d', .ok ()) ∧ d'.calls = d.calls ++ cs) ∨
    calls = none ∧ ∃ d' e, r = (d', .error e)

theorem EndsAs.prepend {d₁ : Disk} {new : List SysCall} {r : Disk × Except WriteChunkError Unit}
    {calls : Option (List SysCall)} (hnew : d₁.calls = d.calls ++ new) (he : EndsAs d₁ r calls) :
    EndsAs d r (calls.map (new ++ ·)) := by
  rcases he with ⟨cs, rfl, d', hr, hcs⟩ | ⟨rfl, hr⟩
  · exact Or.inl ⟨new ++ cs, rfl, d', hr, by rw [hcs, hnew, List.append_assoc]⟩
  · exact Or.inr ⟨rfl, hr⟩

/-- On unix a release build makes one `pwritev` a part, and ends well if all are answered. -/
theorem loop_pwritevs (os : Os) (s : FilesystemStorage) (h : DoubleBufHelper B) (i : ℕ)
    (fs : List FileInfo) (off : ℕ) (data : B) (d : Disk) :
    EndsAs d (s.writeChunkLoop os .unix false h i fs off data d)
      (s.pwritevs os d (parts i fs off (h.bytes data))) := by
  induction fs generalizing i off data d with
  | nil => exact Or.inl ⟨[], rfl, d, rfl, (List.append_nil _).symm⟩
  | cons fi fs ih =>
    rw [writeChunkLoop, parts]
    by_cases hoff : off > fi.len
    · rw [if_pos hoff, if_pos hoff]
      exact ih _ _ _ _
    rw [if_neg hoff, if_neg hoff]
    dsimp only
    have hslices := slices_eq h data (fi.len - off)
    -- what follows behind the write to this file
    have hrest (d₁ : Disk) : EndsAs d₁
        (if h.len (h.advance data (min (h.len data) (fi.len - off))) = 0 then (d₁, .ok ())
          else s.writeChunkLoop os .unix false h (i + 1) fs 0
            (h.advance data (min (h.len data) (fi.len - off))) d₁)
        (s.pwritevs os d₁ (if (h.bytes data).length ≤ fi.len - off then []
          else parts (i + 1) fs 0 ((h.bytes data).drop (fi.len - off)))) := by
      by_cases hend : (h.bytes data).length ≤ fi.len - off
      · rw [if_pos hend, if_pos ((len_advance h data _).2 hend)]
        exact Or.inl ⟨[], rfl, d₁, rfl, (List.append_nil _).symm⟩
      · rw [if_neg hend, if_neg (mt (len_advance h data _).1 hend), ← advance_eq]
        exact ih _ _ _ _
    by_cases hp : fi.padding = true
    · rw [writeFile, if_pos hp, if_pos hp]
      exact hrest d
    rw [writeFile, if_neg hp, if_neg hp, pwriteAllVectored, List.singleton_append, pwritevs]
    cases hf : s.lockRead i with
    | error e => exact Or.inr ⟨rfl, d, _, rfl⟩
    | ok f =>
      dsimp only [File.pwriteAllVectored]
      by_cases hbig : off ≥ 2 ^ 63
      · rw [if_pos hbig, if_pos hbig]
        exact Or.inr ⟨rfl, d, _, rfl⟩
      rw [if_neg hbig, if_neg hbig, hslices]
      cases hw : writeAt os d f off ((h.bytes data).take (fi.len - off)) with
      | mk d₁ r =>
        cases r with
        | none => exact Or.inr ⟨rfl, d₁, _, rfl⟩
        | some n =>
          simp only [Bool.false_eq_true, false_and, if_false]
          exact (hrest d₁).prepend (writeAt_some hw).2.2

end Loop

/-- `c` is the `pwritev` of the part `q`. -/
structure IsWriteOf (s : FilesystemStorage) (q : Part) (c : SysCall) : Prop where
  file : s.lockRead q.fileIdx = .ok c.file
  kind : c.kind = .write
  offset : c.offset = q.offset
  len : c.len = q.bytes.length
  moved : ∃ n, c.moved = q.bytes.take n

theorem pwritevs_get {ps : List Part} (h : s.pwritevs os d ps = some calls) :
    ps.length = calls.length ∧
      ∀ (k : ℕ) q c, ps[k]? = some q → calls[k]? = some c → s.IsWriteOf q c := by
  induction ps generalizing d calls with
  | nil =>
    cases h
    exact ⟨rfl, by rintro k q c ⟨⟩⟩
  | cons q ps ih =>
    rw [pwritevs] at h
    cases hf : s.lockRead q.fileIdx with
    | error e =>
      rw [hf] at h
      cases h
    | ok f =>
      rw [hf] at h
      dsimp only at h
      by_cases hbig : q.offset ≥ 2 ^ 63
      · rw [if_pos hbig] at h
        cases h
      rw [if_neg hbig] at h
      cases hw : writeAt os d f q.offset q.bytes with
      | mk d₁ r =>
        rw [hw] at h
        cases r with
        | none => cases h
        | some n =>
          obtain ⟨rest, hrest, rfl⟩ := Option.map_eq_some_iff.1 h
          obtain ⟨hlen, hall⟩ := ih hrest
          refine ⟨congrArg (· + 1) hlen, ?_⟩
          intro k q' c hq hc
          cases k with
          | zero =>
            obtain rfl := Option.some.inj hq
            obtain rfl := Option.some.inj hc
            exact ⟨hf, rfl, rfl, rfl, n, rfl⟩
          | succ k => exact hall k q' c (by simpa using hq) (by simpa using hc)

/-- The parts are of different files. -/
theorem parts_pairwise (i : ℕ) (fs : List FileInfo) (off : ℕ) (bytes : List UInt8) :
    (∀ q ∈ parts i fs off bytes, i ≤ q.fileIdx) ∧
      (parts i fs off bytes).Pairwise fun q q' => q.fileIdx < q'.fileIdx := by
  induction fs generalizing i off bytes with
  | nil => exact ⟨by rintro q ⟨⟩, List.Pairwise.nil⟩
  | cons fi fs ih =>
    rw [parts]
    by_cases hoff : off > fi.len
    · rw [if_pos hoff]
      obtain ⟨hle, hpair⟩ := ih (i + 1) (off - fi.len) bytes
      exact ⟨fun q hq => Nat.le_of_succ_le (hle q hq), hpair⟩
    rw [if_neg hoff]
    obtain ⟨hle, hpair⟩ : (∀ q ∈ (if bytes.length ≤ fi.len - off then []
        else parts (i + 1) fs 0 (bytes.drop (fi.len - off))), i + 1 ≤ q.fileIdx) ∧
        List.Pairwise (fun q q' : Part => q.fileIdx < q'.fileIdx)
          (if bytes.length ≤ fi.len - off then []
          else parts (i + 1) fs 0 (bytes.drop (fi.len - off))) := by
      by_cases hend : bytes.length ≤ fi.len - off
      · rw [if_pos hend]
        exact ⟨by rintro q ⟨⟩, List.Pairwise.nil⟩
      · rw [if_neg hend]
        exact ih _ _ _
    by_cases hp : fi.padding = true
    · rw [if_pos hp, List.nil_append]
      exact ⟨fun q hq => Nat.le_of_succ_le (hle q hq), hpair⟩
    · rw [if_neg hp, List.singleton_append]
      refine ⟨?_, List.pairwise_cons.2 ⟨hle, hpair⟩⟩
      intro q hq
      rcases List.mem_cons.1 hq with rfl | hq
      · exact le_rfl
      · exact Nat.le_of_succ_le (hle q hq)

theorem lockRead_inj {i j : ℕ} {f : File} (hi : s.lockRead i = .ok f) (hj : s.lockRead j = .ok f) :
    i = j :=
  s.distinct i j f (lockRead_eq_ok.1 hi) (lockRead_eq_ok.1 hj)

/-- The parts are written if and only if no call has stopped short. -/
theorem partsMoved_iff {ps : List Part}
    (hpair : ps.Pairwise fun q q' => q.fileIdx < q'.fileIdx) (h : s.pwritevs os d ps = some calls) :
    s.PartsMoved calls ps ↔ ∀ c ∈ calls, c.moved.length = c.len := by
  obtain ⟨hlen, hall⟩ := pwritevs_get h
  constructor
  · intro hm c hc
    obtain ⟨k, hk⟩ := List.mem_iff_getElem?.1 hc
    obtain ⟨q, hq⟩ : ∃ q, ps[k]? = some q :=
      ⟨_, List.getElem?_eq_getElem (by rw [hlen]; exact (List.getElem?_eq_some_iff.1 hk).1)⟩
    have hof := hall k q c hq hk
    obtain ⟨n, hn⟩ := hof.moved
    by_contra hne
    have hshort : c.moved.length < q.bytes.length := by
      rw [hof.len, hn, List.length_take] at hne
      rw [hn, List.length_take]
      omega
    -- the byte behind the end of this call is in no other, since the others are of other files
    obtain ⟨f, hf, c', hc', -, rfl, -, hget⟩ :=
      hm q (List.mem_iff_getElem?.2 ⟨k, hq⟩) _ _ (List.getElem?_eq_getElem hshort)
    obtain ⟨k', hk'⟩ := List.mem_iff_getElem?.1 hc'
    obtain ⟨q', hq'⟩ : ∃ q, ps[k']? = some q :=
      ⟨_, List.getElem?_eq_getElem (by rw [hlen]; exact (List.getElem?_eq_some_iff.1 hk').1)⟩
    have hidx := lockRead_inj (hall k' q' c' hq' hk').file hf
    obtain ⟨hlt, rfl⟩ := List.getElem?_eq_some_iff.1 hq
    obtain ⟨hlt', rfl⟩ := List.getElem?_eq_some_iff.1 hq'
    have hkk : k' = k := by
      rcases Nat.lt_trichotomy k' k with hlt' | heq | hgt
      · exact absurd hidx (List.pairwise_iff_getElem.1 hpair k' k _ _ hlt').ne
      · exact heq
      · exact absurd hidx (List.pairwise_iff_getElem.1 hpair k k' _ _ hgt).ne'
    subst hkk
    obtain rfl := Option.some.inj (hk.symm.trans hk')
    rw [hof.offset, Nat.add_sub_cancel_left, List.getElem?_eq_none le_rfl] at hget
    cases hget
  · intro hfull q hq m b hb
    obtain ⟨k, hk⟩ := List.mem_iff_getElem?.1 hq
    obtain ⟨c, hc⟩ : ∃ c, calls[k]? = some c :=
      ⟨_, List.getElem?_eq_getElem (by rw [← hlen]; exact (List.getElem?_eq_some_iff.1 hk).1)⟩
    have hof := hall k q c hk hc
    have hmem : c ∈ calls := List.mem_iff_getElem?.2 ⟨k, hc⟩
    obtain ⟨n, hn⟩ := hof.moved
    have hmoved : c.moved = q.bytes := by
      have hl := hfull c hmem
      rw [hof.len, hn, List.length_take] at hl
      rw [hn, List.take_of_length_le (by omega)]
    refine ⟨c.file, hof.file, c, hmem, hof.kind, rfl, ?_, ?_⟩
    · rw [hof.offset]
      exact Nat.le_add_right _ _
    · rw [hof.offset, Nat.add_sub_cancel_left, hmoved]
      exact hb

theorem chunk_allOrError_iff {B : Type} (os : Os) (p : Platform) (s : FilesystemStorage) (d : Disk)
    (debugAssertions : Bool) (h : DoubleBufHelper B) (l : Lengths) (fs : List FileInfo)
    (c : ChunkInfo) (data : List UInt8 × List UInt8) :
    s.ChunkAllOrError os p d debugAssertions h l fs c data ↔
      (p = .unix → debugAssertions = false →
        s.AnsweredInFull os d (parts 0 fs (l.chunkAbsoluteOffset c) (data.1 ++ data.2))) := by
  have hbytes := h.bytes_new data.1 data.2
  by_cases hfull : debugAssertions = true ∨ p ≠ .unix
  · refine iff_of_true ?_ ?_
    · intro d' hok
      obtain ⟨new, hnew, hm⟩ := loop_moved hfull hok
      rw [hbytes] at hm
      exact ⟨new, hnew, chunkMoved_iff.2 hm⟩
    · intro hp hdebug
      rcases hfull with hd | hne
      · rw [hdebug] at hd
        cases hd
      · exact absurd hp hne
  · rw [not_or, Bool.not_eq_true, not_ne_iff] at hfull
    obtain ⟨rfl, rfl⟩ := hfull
    have hpair := (parts_pairwise 0 fs (l.chunkAbsoluteOffset c) (data.1 ++ data.2)).2
    have hloop := loop_pwritevs os s h 0 fs (l.chunkAbsoluteOffset c) (h.new data.1 data.2) d
    rw [hbytes] at hloop
    constructor
    · intro hall _ _ calls hcalls
      rcases hloop with ⟨cs, hcs, d', hok, hd'⟩ | ⟨hnone, -⟩
      · obtain rfl := Option.some.inj (hcs.symm.trans hcalls)
        obtain ⟨new, hnew, hm⟩ := hall d' hok
        rw [hd'] at hnew
        rw [← List.append_cancel_left hnew, chunkMoved_iff] at hm
        exact (partsMoved_iff hpair hcs).1 hm
      · rw [hnone] at hcalls
        cases hcalls
    · intro hall d' hok
      rcases hloop with ⟨cs, hcs, d₁, hok₁, hd₁⟩ | ⟨-, d₁, e, herr⟩
      · rw [writeChunk, hok₁] at hok
        obtain ⟨rfl, -⟩ := Prod.mk.inj hok
        exact ⟨cs, hd₁, chunkMoved_iff.2 ((partsMoved_iff hpair hcs).2 (hall rfl rfl cs hcs))⟩
      · rw [writeChunk, herr] at hok
        cases hok

theorem transfers_all_or_error (os : Os) (p : Platform) (s : FilesystemStorage) (d : Disk) :
    (∀ fileId offset bufs, s.VectoredAllOrError os p d fileId offset bufs ↔
      ¬s.ShortWrite os p d fileId offset (bufs.1 ++ bufs.2).length) ∧
    (∀ fileId offset buf, s.PwriteAllOrError os p d fileId offset buf) ∧
    (∀ fileId offset buf, s.PreadAllOrError os p d fileId offset buf ↔
      ¬s.ShortRead os p d fileId offset buf.length) ∧
    ∀ {B : Type} (debugAssertions : Bool) (h : DoubleBufHelper B) (l : Lengths)
      (fs : List FileInfo) (c : ChunkInfo) (data : List UInt8 × List UInt8),
      s.ChunkAllOrError os p d debugAssertions h l fs c data ↔
        (p = .unix → debugAssertions = false →
          s.AnsweredInFull os d (parts 0 fs (l.chunkAbsoluteOffset c) (data.1 ++ data.2))) :=
  ⟨vectored_allOrError_iff os p s d, pwriteAll_allOrError, pread_allOrError_iff os p s d,
    chunk_allOrError_iff os p s d⟩

/-! A system that transfers one byte a call. -/

def byteByByte : Os where
  answer _ _ _ _ len := some (min len 1)
  le := by
    rintro calls kind f offset len n ⟨rfl⟩
    exact Nat.min_le_left len 1
  pos := by
    rintro calls kind f offset len n ⟨rfl⟩ hpos
    omega

def oneFile : FilesystemStorage where
  openedFiles := [some 0]
  distinct := by
    intro i j f hi hj
    have hi := (List.getElem?_eq_some_iff.1 hi).1
    have hj := (List.getElem?_eq_some_iff.1 hj).1
    simp only [List.length_singleton] at hi hj
    omega

def threeBytes : Lengths := Lengths.new 3 (2 ^ 3) (by decide) (by decide) (by decide) (by decide)

def threeOnDisk : Disk := ⟨fun _ => [1, 2, 3], []⟩

theorem short_transfer_ok :
    ¬oneFile.VectoredAllOrError byteByByte .unix threeOnDisk 0 0 ([7, 8], [9]) ∧
    ¬oneFile.PreadAllOrError byteByByte .windows threeOnDisk 0 0 [0, 0, 0] ∧
    ¬oneFile.ChunkAllOrError byteByByte .unix threeOnDisk false DoubleBufHelper.slices threeBytes
      [⟨0, (0, 1), false, 3⟩] ⟨0, 0, 0, 3⟩ ([7, 8], [9]) := by
  refine ⟨?_, ?_, ?_⟩
  · rw [vectored_allOrError_iff, not_not]
    exact ⟨rfl, by decide, 0, 1, rfl, rfl, by decide⟩
  · rw [pread_allOrError_iff, not_not]
    exact ⟨rfl, 0, 1, rfl, rfl, by decide⟩
  · rw [chunk_allOrError_iff]
    intro hall
    have hfull := hall rfl rfl [⟨.write, 0, 0, 3, [7]⟩] rfl _ (List.mem_singleton_self _)
    exact absurd hfull (by decide)

end FilesystemStorage

end Filesystem

end Rtbit
