import Rtbit.Proofs.FlatView

/-! Serving a chunk to a peer. The writer hands `read_chunk` the rest of its message buffer,
and `read_chunk` fills the buffer it is given: it goes on to read what follows the chunk in the
torrent, and fails if that cannot be read, though only the chunk is sent. This does no harm
exactly when the rest of the buffer is padding or lies behind the end of the torrent. -/

namespace Rtbit

open Lib

namespace ChunkOps

/-- The call reads the byte `k` of the files, which are numbered from `i`. -/
def ReadCall.CoversFrom (i : ℕ) (fs : List FileInfo) (call : ReadCall) (k : ℕ) : Prop :=
  i ≤ call.fileId ∧
    ((fs.take (call.fileId - i)).map FileInfo.len).sum + call.offset ≤ k ∧
    k < ((fs.take (call.fileId - i)).map FileInfo.len).sum + call.offset + call.len

/-- The call reads the byte `k` of the torrent. -/
def ReadCall.Covers (fs : List FileInfo) (call : ReadCall) (k : ℕ) : Prop := call.CoversFrom 0 fs k

/-- The call stays inside a file that is not padding. -/
def ReadCall.InFile (i : ℕ) (fs : List FileInfo) (call : ReadCall) : Prop :=
  i ≤ call.fileId ∧ ∃ fi, fs[call.fileId - i]? = some fi ∧ fi.padding = false ∧
    call.offset + call.len ≤ fi.len

variable {st : Storage}

theorem coversFrom_cons {i k : ℕ} (fi : FileInfo) {fs : List FileInfo} {call : ReadCall}
    (h : call.CoversFrom (i + 1) fs k) : call.CoversFrom i (fi :: fs) (fi.len + k) := by
  obtain ⟨hi, h1, h2⟩ := h
  have hsucc : call.fileId - i = (call.fileId - (i + 1)) + 1 := by omega
  refine ⟨by omega, ?_, ?_⟩
  · rw [hsucc, List.take_succ_cons, List.map_cons, List.sum_cons]
    omega
  · rw [hsucc, List.take_succ_cons, List.map_cons, List.sum_cons]
    omega

theorem coversFrom_tail {i k : ℕ} {fi : FileInfo} {fs : List FileInfo} {call : ReadCall}
    (hi : i + 1 ≤ call.fileId) (h : call.CoversFrom i (fi :: fs) k) :
    fi.len ≤ k ∧ call.CoversFrom (i + 1) fs (k - fi.len) := by
  obtain ⟨-, h1, h2⟩ := h
  have hsucc : call.fileId - i = (call.fileId - (i + 1)) + 1 := by omega
  rw [hsucc, List.take_succ_cons, List.map_cons, List.sum_cons] at h1 h2
  exact ⟨by omega, hi, by omega, by omega⟩

theorem coversFrom_head {i k off n : ℕ} {fs : List FileInfo} :
    (⟨i, off, n⟩ : ReadCall).CoversFrom i fs k ↔ off ≤ k ∧ k < off + n := by
  simp [ReadCall.CoversFrom]

theorem inFile_cons {i : ℕ} {fi : FileInfo} {fs : List FileInfo} {call : ReadCall}
    (h : call.InFile (i + 1) fs) : call.InFile i (fi :: fs) := by
  obtain ⟨hi, fj, hget, hp, hle⟩ := h
  have hsucc : call.fileId - i = (call.fileId - (i + 1)) + 1 := by omega
  refine ⟨by omega, fj, ?_, hp, hle⟩
  rw [hsucc, List.getElem?_cons_succ]
  exact hget

/-- What a call of the loop reads lies in the range, and in a file that is not padding. -/
theorem mem_readChunkLoop {fs : List FileInfo} {i off : ℕ} {buf : List UInt8} {call : ReadCall}
    (h : call ∈ (readChunkLoop st i fs off buf).1) :
    call.InFile i fs ∧ ∀ k, call.CoversFrom i fs k →
      off ≤ k ∧ k < off + buf.length ∧ k < (fs.map FileInfo.len).sum ∧ paddingAt fs k = false := by
  induction fs generalizing i off buf with
  | nil => cases h
  | cons fi fs ih =>
    rw [List.map_cons, List.sum_cons]
    rw [readChunkLoop] at h
    by_cases hoff : off > fi.len
    · rw [if_pos hoff] at h
      obtain ⟨hin, hcov⟩ := ih h
      refine ⟨inFile_cons hin, ?_⟩
      intro k hk
      obtain ⟨hle, hk⟩ := coversFrom_tail hin.1 hk
      obtain ⟨h1, h2, h3, hp⟩ := hcov _ hk
      refine ⟨by omega, by omega, by omega, ?_⟩
      rw [paddingAt, if_neg (by omega), hp]
    · rw [if_neg hoff] at h
      simp only at h
      set m := min (fi.len - off) buf.length with hm
      have hfile (hmem : call ∈ (if fi.padding then [] else [(⟨i, off, m⟩ : ReadCall)])) :
          call.InFile i (fi :: fs) ∧ ∀ k, call.CoversFrom i (fi :: fs) k →
            off ≤ k ∧ k < off + buf.length ∧ k < fi.len + (fs.map FileInfo.len).sum ∧
              paddingAt (fi :: fs) k = false := by
        split_ifs at hmem with hp
        · cases hmem
        · obtain rfl := List.mem_singleton.1 hmem
          have hp : fi.padding = false := by simpa using hp
          refine ⟨⟨le_rfl, fi, by simp, hp, by simp only; omega⟩, ?_⟩
          intro k hk
          obtain ⟨h1, h2⟩ := coversFrom_head.1 hk
          refine ⟨h1, by omega, by omega, ?_⟩
          rw [paddingAt, if_pos (by omega), hp]
      cases hx : readFile st i fi off m with
      | none =>
        simp only [hx] at h
        exact hfile h
      | some x =>
        simp only [hx] at h
        by_cases hfull : (buf.drop m).isEmpty = true
        · rw [if_pos hfull] at h
          exact hfile h
        · rw [if_neg hfull] at h
          rcases List.mem_append.1 h with h | h
          · exact hfile h
          · have hlt : ¬ buf.length ≤ m := by simpa using hfull
            obtain ⟨hin, hcov⟩ := ih h
            refine ⟨inFile_cons hin, ?_⟩
            intro k hk
            obtain ⟨hle, hk⟩ := coversFrom_tail hin.1 hk
            obtain ⟨h1, h2, h3, hp⟩ := hcov _ hk
            rw [List.length_drop] at h2
            refine ⟨by omega, by omega, by omega, ?_⟩
            rw [paddingAt, if_neg (by omega), hp]

/-- If the loop fails, so does one of its calls. -/
theorem readChunkLoop_isOk {fs : List FileInfo} {i off : ℕ} {buf : List UInt8}
    (h : ∀ call ∈ (readChunkLoop st i fs off buf).1,
      (st.readAt call.fileId call.offset call.len).isSome = true) :
    ∃ b, (readChunkLoop st i fs off buf).2 = .ok b := by
  induction fs generalizing i off buf with
  | nil => exact ⟨buf, rfl⟩
  | cons fi fs ih =>
    rw [readChunkLoop] at h ⊢
    by_cases hoff : off > fi.len
    · rw [if_pos hoff] at h ⊢
      exact ih h
    · rw [if_neg hoff] at h ⊢
      simp only at h ⊢
      set m := min (fi.len - off) buf.length with hm
      cases hx : readFile st i fi off m with
      | none =>
        simp only [hx] at h
        unfold readFile at hx
        split_ifs at hx with hp
        have hsome := h ⟨i, off, m⟩ (by simp [hp])
        simp [hx] at hsome
      | some x =>
        simp only [hx] at h ⊢
        by_cases hfull : (buf.drop m).isEmpty = true
        · rw [if_pos hfull]
          exact ⟨x, rfl⟩
        · rw [if_neg hfull] at h ⊢
          obtain ⟨y, hy⟩ := ih fun call hc => h call (List.mem_append_right _ hc)
          exact ⟨x ++ y, by simp [hy, Except.map]⟩

/-- If the loop succeeds, it has read every byte of the range. -/
theorem readChunkLoop_covers {fs : List FileInfo} {i off : ℕ} {buf b : List UInt8}
    (h : (readChunkLoop st i fs off buf).2 = .ok b) {k : ℕ} (h1 : off ≤ k)
    (h2 : k < off + buf.length) (h3 : k < (fs.map FileInfo.len).sum)
    (hp : paddingAt fs k = false) :
    ∃ call ∈ (readChunkLoop st i fs off buf).1, call.CoversFrom i fs k := by
  induction fs generalizing i off buf b k with
  | nil => simp at h3
  | cons fi fs ih =>
    rw [List.map_cons, List.sum_cons] at h3
    rw [readChunkLoop] at h ⊢
    by_cases hoff : off > fi.len
    · rw [if_pos hoff] at h ⊢
      rw [paddingAt, if_neg (by omega)] at hp
      obtain ⟨call, hc, hk⟩ := ih h (k := k - fi.len) (by omega) (by omega) (by omega) hp
      have hcons := coversFrom_cons fi hk
      rw [show fi.len + (k - fi.len) = k by omega] at hcons
      exact ⟨call, hc, hcons⟩
    · rw [if_neg hoff] at h ⊢
      simp only at h ⊢
      set m := min (fi.len - off) buf.length with hm
      cases hx : readFile st i fi off m with
      | none => simp [hx] at h
      | some x =>
        simp only [hx] at h ⊢
        rw [paddingAt] at hp
        rcases Nat.lt_or_ge k fi.len with hlt | hge
        · -- the call for this file
          rw [if_pos hlt] at hp
          have hcov : (⟨i, off, m⟩ : ReadCall).CoversFrom i (fi :: fs) k :=
            coversFrom_head.2 ⟨h1, by omega⟩
          refine ⟨⟨i, off, m⟩, ?_, hcov⟩
          rw [if_neg (by simp [hp] : ¬ fi.padding = true)]
          by_cases hfull : (buf.drop m).isEmpty = true
          · rw [if_pos hfull]
            exact List.mem_singleton_self _
          · rw [if_neg hfull]
            exact List.mem_append_left _ (List.mem_singleton_self _)
        · rw [if_neg (by omega)] at hp
          have hfull : ¬ (buf.drop m).isEmpty = true := by
            simp only [List.isEmpty_iff, List.drop_eq_nil_iff]
            omega
          rw [if_neg hfull] at h ⊢
          cases hr : (readChunkLoop st (i + 1) fs 0 (buf.drop m)).2 with
          | error e => simp [hr, Except.map] at h
          | ok y =>
            obtain ⟨call, hc, hk⟩ := ih hr (k := k - fi.len) (Nat.zero_le _)
              (by rw [List.length_drop]; omega) (by omega) hp
            have hcons := coversFrom_cons fi hk
            rw [show fi.len + (k - fi.len) = k by omega] at hcons
            exact ⟨call, List.mem_append_right _ hc, hcons⟩

/-- Every read of bytes of the chunk alone succeeds. -/
def ChunkReadable (fs : List FileInfo) (st : Storage) (o n : ℕ) : Prop :=
  ∀ call : ReadCall, call.InFile 0 fs → (∀ k, call.Covers fs k → o ≤ k ∧ k < o + n) →
    (st.readAt call.fileId call.offset call.len).isSome = true

section Serve

variable (f : PieceFormat) (l : Lengths) (fs : List FileInfo) (st : Storage) (c : ChunkInfo)
  (writeBuf : List UInt8)

/-- Serving the chunk depends on the chunk alone. -/
structure ServesChunk : Prop where
  succeeds : ChunkReadable fs st (l.chunkAbsoluteOffset c) c.size →
    ∃ b, (readChunkRequest f l fs st c writeBuf).2 = .ok b
  reads : ∀ call ∈ (readChunkRequest f l fs st c writeBuf).1, ∀ k, call.Covers fs k →
    l.chunkAbsoluteOffset c ≤ k ∧ k < l.chunkAbsoluteOffset c + c.size
  sends : ∀ b, (readChunkRequest f l fs st c writeBuf).2 = .ok b →
    b = f.preamble c ++ slice fs st (l.chunkAbsoluteOffset c) c.size

/-- As far as the message buffer goes, only padding follows the chunk in the torrent. -/
def NothingAfter : Prop :=
  ∀ k, l.chunkAbsoluteOffset c + c.size ≤ k →
    k < l.chunkAbsoluteOffset c + (f.maxMsgLen - (f.preamble c).length) →
    k < l.totalLength → paddingAt fs k = true

variable {f l fs st c writeBuf}

theorem readChunkRequest_eq (hc : c.Valid l) (hbuf : writeBuf.length = f.maxMsgLen) :
    readChunkRequest f l fs st c writeBuf =
      ((readChunkLoop st 0 fs (l.chunkAbsoluteOffset c) (writeBuf.drop (f.preamble c).length)).1,
        (readChunkLoop st 0 fs (l.chunkAbsoluteOffset c)
          (writeBuf.drop (f.preamble c).length)).2.map fun b => f.preamble c ++ b.take c.size) := by
  have hroom := f.room c
  have hsize := hc.size_le
  unfold readChunkRequest readChunk
  simp only [List.drop_left, List.take_left, List.length_drop, hbuf]
  rw [if_neg (by omega)]
  simp only [List.take_append, List.take_of_length_le (Nat.le_add_right _ _), Nat.add_sub_cancel_left]

theorem NothingAfter.serves (hsum : (fs.map FileInfo.len).sum = l.totalLength) (hc : c.Valid l)
    (hbuf : writeBuf.length = f.maxMsgLen) (h : NothingAfter f l fs c) :
    ServesChunk f l fs st c writeBuf := by
  have hroom := f.room c
  have hsize := hc.size_le
  have hend := chunk_end_le hc
  have hlen : (writeBuf.drop (f.preamble c).length).length =
      f.maxMsgLen - (f.preamble c).length := by
    rw [List.length_drop, hbuf]
  have hreads : ∀ call ∈ (readChunkRequest f l fs st c writeBuf).1, ∀ k, call.Covers fs k →
      l.chunkAbsoluteOffset c ≤ k ∧ k < l.chunkAbsoluteOffset c + c.size := by
    intro call hcall k hk
    rw [readChunkRequest_eq hc hbuf] at hcall
    obtain ⟨h1, h2, h3, hp⟩ := (mem_readChunkLoop hcall).2 k hk
    refine ⟨h1, ?_⟩
    by_contra hge
    rw [hlen] at h2
    have hpad := h k (by omega) h2 (by omega)
    simp [hp] at hpad
  refine ⟨?_, hreads, ?_⟩
  · intro hreadable
    rw [readChunkRequest_eq hc hbuf] at hreads ⊢
    obtain ⟨b, hb⟩ := readChunkLoop_isOk fun call hcall =>
      hreadable call (mem_readChunkLoop hcall).1 (hreads call hcall)
    exact ⟨f.preamble c ++ b.take c.size, by simp only [hb, Except.map]⟩
  · intro b hb
    rw [readChunkRequest_eq hc hbuf] at hb
    cases hr : (readChunkLoop st 0 fs (l.chunkAbsoluteOffset c)
        (writeBuf.drop (f.preamble c).length)).2 with
    | error e => simp [hr, Except.map] at hb
    | ok x =>
      simp only [hr, Except.map, Except.ok.injEq] at hb
      rw [← hb, readChunkLoop_slice hr, hlen]
      congr 1
      have hfirst : ((flatFrom st 0 fs).drop (l.chunkAbsoluteOffset c)).length =
          l.totalLength - l.chunkAbsoluteOffset c := by
        rw [List.length_drop, length_flatFrom, hsum]
      rw [List.take_append_of_le_length (by rw [List.length_take, hfirst]; omega), List.take_take,
        Nat.min_eq_left (by omega)]
      rfl

theorem nothingAfter_of_serves (hsum : (fs.map FileInfo.len).sum = l.totalLength) (hc : c.Valid l)
    (hbuf : writeBuf.length = f.maxMsgLen)
    (hreadable : ChunkReadable fs st (l.chunkAbsoluteOffset c) c.size)
    (h : ServesChunk f l fs st c writeBuf) : NothingAfter f l fs c := by
  intro k h1 h2 h3
  by_contra hp
  obtain ⟨b, hb⟩ := h.succeeds hreadable
  have hreads := h.reads
  rw [readChunkRequest_eq hc hbuf] at hb hreads
  cases hr : (readChunkLoop st 0 fs (l.chunkAbsoluteOffset c)
      (writeBuf.drop (f.preamble c).length)).2 with
  | error e => simp [hr, Except.map] at hb
  | ok x =>
    -- the loop does not stop before it has read the byte `k` behind the chunk
    obtain ⟨call, hcall, hk⟩ := readChunkLoop_covers hr (k := k) (by omega)
      (by rw [List.length_drop, hbuf]; exact h2) (by omega) (by simpa using hp)
    have hin := (hreads call hcall k hk).2
    omega

/-- A storage that has every file. -/
def fullStorage (fs : List FileInfo) : Storage where
  contents i := List.replicate ((fs[i]?.map FileInfo.len).getD 0) 0
  fails _ _ _ := false

theorem fullStorage_readable (o n : ℕ) : ChunkReadable fs (fullStorage fs) o n := by
  rintro call ⟨-, fi, hget, -, hle⟩ -
  rw [Nat.sub_zero] at hget
  unfold Storage.readAt Storage.preadExact
  split_ifs with h0 h
  · rfl
  · rfl
  · refine absurd ⟨rfl, ?_⟩ h
    simpa [fullStorage, hget] using hle

end Serve

/-- Serving a chunk depends on nothing but the chunk if and only if the buffer of the writer
ends with the chunk, or with padding after it. -/
theorem servesChunk_iff (l : Lengths) (fs : List FileInfo)
    (hsum : (fs.map FileInfo.len).sum = l.totalLength) (f : PieceFormat) (c : ChunkInfo)
    (hc : c.Valid l) (writeBuf : List UInt8) (hbuf : writeBuf.length = f.maxMsgLen) :
    ((∀ st, ServesChunk f l fs st c writeBuf) ↔ NothingAfter f l fs c) ∧
      ∀ st, ChunkReadable fs st (l.chunkAbsoluteOffset c) c.size →
        (ServesChunk f l fs st c writeBuf ↔ NothingAfter f l fs c) := by
  refine ⟨⟨?_, ?_⟩, ?_⟩
  · intro h
    exact nothingAfter_of_serves hsum hc hbuf (fullStorage_readable _ _) (h (fullStorage fs))
  · intro h st
    exact h.serves hsum hc hbuf
  · intro st hreadable
    exact ⟨nothingAfter_of_serves hsum hc hbuf hreadable, fun h => h.serves hsum hc hbuf⟩

/-- A number as four bytes, the highest first. -/
def be32 (n : ℕ) : List UInt8 :=
  [UInt8.ofNat (n / 2 ^ 24), UInt8.ofNat (n / 2 ^ 16), UInt8.ofNat (n / 2 ^ 8), UInt8.ofNat n]

/-- Length, message id, piece and offset; the buffer has room for one chunk. -/
def pieceFormat : PieceFormat where
  maxMsgLen := 13 + chunkSize
  preamble c := be32 (9 + c.size) ++ [7] ++ be32 c.pieceIndex ++ be32 c.offset
  room _ := le_rfl

/-- Eight bytes in two pieces, and a file for each. -/
def eightBytes : Lengths := Lengths.new 8 (8 / 2) (by decide) (by decide) (by decide) (by decide)

def eightByteFiles : List FileInfo := [⟨0, (0, 1), false, 4⟩, ⟨4, (1, 2), false, 4⟩]

/-- The second file has been left out of the download. -/
def firstFileOnly : Storage where
  contents i := if i = 0 then [1, 2, 3, 4] else []
  fails _ _ _ := false

def messageBuffer : List UInt8 := List.replicate pieceFormat.maxMsgLen 0

theorem messageBuffer_length : messageBuffer.length = pieceFormat.maxMsgLen :=
  List.length_replicate

/-- The last chunk of the torrent: nothing follows it. -/
theorem lastChunk_served : ServesChunk pieceFormat eightBytes eightByteFiles
    (fullStorage eightByteFiles) ⟨1, 0, 0, 4⟩ messageBuffer := by
  refine (servesChunk_iff eightBytes eightByteFiles rfl pieceFormat ⟨1, 0, 0, 4⟩
    ⟨by decide, by decide, by decide⟩ messageBuffer messageBuffer_length).1.2 ?_ _
  intro k h1 _ h3
  have h1 : 8 ≤ k := h1
  have h3 : k < 8 := h3
  omega

theorem firstFileOnly_readable : ChunkReadable eightByteFiles firstFileOnly 0 4 := by
  rintro ⟨i, off, n⟩ ⟨-, fi, hget, -, hle⟩ hcov
  simp only [Nat.sub_zero] at hget
  unfold Storage.readAt Storage.preadExact
  split_ifs with h0 h
  · rfl
  · rfl
  · -- a read of the second file covers a byte behind the chunk
    rcases i with - | i
    · obtain rfl : (⟨0, (0, 1), false, 4⟩ : FileInfo) = fi := by simpa [eightByteFiles] using hget
      exact absurd ⟨rfl, by simpa [firstFileOnly] using hle⟩ h
    · rcases i with - | i
      · have hpos : 0 < n := Nat.pos_of_ne_zero h0
        have hin := hcov (4 + off) ⟨Nat.zero_le _, by simp [eightByteFiles], by simp [eightByteFiles, hpos]⟩
        omega
      · simp [eightByteFiles] at hget

/-- A buffer longer than the first file. -/
theorem readChunkLoop_firstFileOnly {buf : List UInt8} (h : 8 ≤ buf.length) :
    (readChunkLoop firstFileOnly 0 eightByteFiles 0 buf).2 = .error (.read 1 4) := by
  have h4 : min 4 buf.length = 4 := by omega
  have h4' : min 4 (buf.length - 4) = 4 := by omega
  have hfull : ¬ buf.length ≤ 4 := by omega
  simp [readChunkLoop, readFile, Storage.readAt, Storage.preadExact, eightByteFiles, firstFileOnly,
    h4, h4', hfull, Except.map]

/-- The first piece can be read from its file, but the read goes on to the second file. -/
theorem firstChunk_not_served :
    ChunkReadable eightByteFiles firstFileOnly 0 4 ∧
    (readChunkRequest pieceFormat eightBytes eightByteFiles firstFileOnly ⟨0, 0, 0, 4⟩
      messageBuffer).2 = .error (.read 1 4) ∧
    ¬ ServesChunk pieceFormat eightBytes eightByteFiles firstFileOnly ⟨0, 0, 0, 4⟩
      messageBuffer := by
  have herr : (readChunkRequest pieceFormat eightBytes eightByteFiles firstFileOnly ⟨0, 0, 0, 4⟩
      messageBuffer).2 = .error (.read 1 4) := by
    have hlen : 8 ≤ (messageBuffer.drop (pieceFormat.preamble ⟨0, 0, 0, 4⟩).length).length := by
      rw [List.length_drop, messageBuffer_length]
      simp [pieceFormat, be32, chunkSize]
    have hstart : eightBytes.chunkAbsoluteOffset ⟨0, 0, 0, 4⟩ = 0 := rfl
    rw [readChunkRequest_eq ⟨by decide, by decide, by decide⟩ messageBuffer_length, hstart]
    simp only [readChunkLoop_firstFileOnly hlen, Except.map]
  refine ⟨firstFileOnly_readable, herr, ?_⟩
  intro h
  obtain ⟨b, hb⟩ := h.succeeds firstFileOnly_readable
  rw [herr] at hb
  cases hb

end ChunkOps

end Rtbit
