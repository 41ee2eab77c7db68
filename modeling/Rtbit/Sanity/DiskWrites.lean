import Rtbit.Proofs.FlatView
import Rtbit.Sanity.ChunkBits
import Rtbit.Sanity.WriteToDisk
import Rtbit.Spec.DiskWrites

/-! A run of `write_to_disk` seen on the bytes of the torrent: whether `write_chunk` succeeds or
fails, a byte it changes lies in its chunk and comes from its data. The steps of the runs are those
of `Writes`, and each run keeps the data it was created with. -/

namespace Rtbit

open Lib

namespace ChunkOps

variable {B : Type} {rejects : ℕ → ℕ → ℕ → Bool} {d : DoubleBufHelper B} {st st' : Storage}

/-- A write to one file that fails has written a beginning of its bytes. -/
theorem writeFile_error {i off : ℕ} {fi : FileInfo} {bufs : List UInt8 × List UInt8}
    (hle : off + (bufs.1 ++ bufs.2).length ≤ fi.len)
    (h : writeFile rejects st i fi off bufs = .error st') :
    ∃ m ≤ bufs.1.length, WrittenHead st st' i fi off ((bufs.1 ++ bufs.2).take m) := by
  have hnone : WrittenHead st st i fi off [] := by
    refine ⟨rfl, fun _ => le_rfl, fun _ _ _ => rfl, ?_, fun _ _ => rfl⟩
    intro k h1 h2
    simp only [List.length_nil] at h2
    omega
  unfold writeFile at h
  split_ifs at h with hp
  unfold Storage.pwriteAllVectored at h
  cases h1 : st.pwriteAll rejects i off bufs.1 with
  | none =>
    simp only [h1, Except.error.injEq] at h
    subst h
    exact ⟨0, Nat.zero_le _, hnone⟩
  | some st₁ =>
    simp only [h1] at h
    cases h2 : st₁.pwriteAll rejects i (off + bufs.1.length) bufs.2 with
    | some st₂ => simp [h2] at h
    | none =>
      simp only [h2, Except.error.injEq] at h
      subst h
      refine ⟨bufs.1.length, le_rfl, ?_⟩
      rw [List.take_left']
      · refine Stored.head (by simpa using hp) ?_ (pwriteAll_stored h1)
        rw [List.length_append] at hle
        omega
      · rfl

/-- What was written of the first file, and nothing after it. -/
theorem WrittenHead.only {i off : ℕ} {fi : FileInfo} {fs : List FileInfo} {bytes : List UInt8}
    (hoff : off ≤ fi.len) (hlen : bytes.length ≤ fi.len - off)
    (h : WrittenHead st st' i fi off bytes) : WrittenFrom st st' i (fi :: fs) off bytes := by
  refine WrittenHead.cons hoff (w := bytes.length) (by omega) (by rwa [List.take_length]) ?_
  rw [List.drop_length]
  exact WrittenFrom.refl _ _ _ _

theorem writeChunkLoop_error {fs : List FileInfo} {i off : ℕ} {data : B} {e : WriteChunkError}
    (h : writeChunkLoop rejects d i fs off data st = .error e) :
    ∃ m, WrittenFrom st e.storage i fs off ((d.bytes data).take m) := by
  induction fs generalizing i off data st with
  | nil => simp [writeChunkLoop] at h
  | cons fi fs ih =>
    rw [writeChunkLoop] at h
    by_cases hoff : off > fi.len
    · rw [if_pos hoff] at h
      obtain ⟨m, hm⟩ := ih h
      exact ⟨m, hm.skip hoff.le⟩
    · rw [if_neg hoff] at h
      set w := min (d.len data) (fi.len - off) with hw
      have hwle : w ≤ d.len data := Nat.min_le_left _ _
      have hslices := d.ioslices_eq data w hwle
      have hlen : ((d.bytes data).take w).length = w := by
        rw [List.length_take, ← d.len_eq]
        omega
      cases hf : writeFile rejects st i fi off (d.asIoslices data w) with
      | error st₁ =>
        simp only [hf, Except.error.injEq] at h
        subst h
        obtain ⟨m, hm, hhead⟩ := writeFile_error (by rw [hslices, hlen]; omega) hf
        rw [hslices] at hhead
        refine ⟨min m w, ?_⟩
        rw [List.take_take] at hhead
        refine hhead.only (by omega) ?_
        rw [List.length_take]
        omega
      | ok st₁ =>
        simp only [hf] at h
        split_ifs at h with hdone
        obtain ⟨m, hm⟩ := ih h
        rw [d.bytes_advance data w hwle] at hm
        have hhead : WrittenHead st st₁ i fi off ((d.bytes data).take w) := by
          have hwf := writeFile_head (by rw [hslices, hlen]; omega) hf
          rwa [hslices] at hwf
        rw [d.len_eq] at hw
        have hfirst : WrittenHead st st₁ i fi off (((d.bytes data).take (w + m)).take w) := by
          rwa [List.take_take, Nat.min_eq_left (Nat.le_add_right _ _)]
        refine ⟨w + m, hfirst.cons (by omega) ?_ ?_⟩
        · rw [List.length_take]
          omega
        · rwa [List.drop_take, Nat.add_sub_cancel_left]

/-- A byte that `write_chunk` has changed, succeeding or not, is in the chunk and is that of the
data. -/
theorem writeChunk_left {l : Lengths} {fs : List FileInfo}
    (rejects : ℕ → ℕ → ℕ → Bool) (d : DoubleBufHelper B) (st : Storage)
    (hsum : (fs.map FileInfo.len).sum = l.totalLength) {c : ChunkInfo} (hc : c.Valid l)
    {data : List UInt8 × List UInt8} (hdata : (data.1 ++ data.2).length = c.size) (k : ℕ) :
    (flat fs (leftBy (writeChunk rejects d l fs st c data)))[k]? = (flat fs st)[k]? ∨
      (l.chunkAbsoluteOffset c ≤ k ∧ k < l.chunkAbsoluteOffset c + c.size) ∧
        (flat fs (leftBy (writeChunk rejects d l fs st c data)))[k]? =
          (data.1 ++ data.2)[k - l.chunkAbsoluteOffset c]? := by
  obtain ⟨m, hm⟩ : ∃ m, WrittenFrom st (leftBy (writeChunk rejects d l fs st c data)) 0 fs
      (l.chunkAbsoluteOffset c) ((data.1 ++ data.2).take m) := by
    rw [← d.bytes_new]
    cases hw : writeChunk rejects d l fs st c data with
    | error e => exact writeChunkLoop_error hw
    | ok st' => exact ⟨_, by rw [List.take_length]; exact writeChunkLoop_written hw⟩
  have hend := chunk_end_le hc
  have hlen : ((data.1 ++ data.2).take m).length ≤ c.size := by
    rw [List.length_take]
    omega
  by_cases hk : l.chunkAbsoluteOffset c ≤ k ∧
      k < l.chunkAbsoluteOffset c + ((data.1 ++ data.2).take m).length ∧ paddingAt fs k = false
  · obtain ⟨h1, h2, h3⟩ := hk
    refine Or.inr ⟨⟨h1, by omega⟩, ?_⟩
    have hin := hm.inside k h1 h2 (by omega) h3
    rw [List.length_take] at h2
    rwa [List.getElem?_take_of_lt (by omega)] at hin
  · refine Or.inl (hm.outside k ?_)
    by_contra hno
    simp only [not_or, Nat.not_lt, Nat.not_le, Bool.not_eq_true] at hno
    exact hk hno

/-- Bytes `o` to `o + n` of the torrent are those of `content`. -/
theorem slice_eq_iff {fs : List FileInfo} {content : List UInt8} {o n : ℕ} :
    slice fs st o n = (content.drop o).take n ↔
      ∀ k, o ≤ k → k < o + n → (flat fs st)[k]? = content[k]? := by
  unfold slice
  constructor
  · intro h k h1 h2
    have hk := congrArg (fun b => b[k - o]?) h
    simp only [List.getElem?_take, List.getElem?_drop, if_pos (by omega : k - o < n)] at hk
    rwa [Nat.add_sub_cancel' h1] at hk
  · intro h
    apply List.ext_getElem?
    intro j
    simp only [List.getElem?_take, List.getElem?_drop]
    split_ifs with hj
    · exact h (o + j) (by omega) (by omega)
    · rfl

/-- A byte of a padding file is zero whatever the storage holds. -/
theorem flat_padding {fs : List FileInfo} (st st' : Storage) {k : ℕ} (h : paddingAt fs k = true) :
    (flat fs st)[k]? = (flat fs st')[k]? := by
  have key (fs : List FileInfo) (i k : ℕ) (h : paddingAt fs k = true) :
      (flatFrom st i fs)[k]? = (flatFrom st' i fs)[k]? := by
    induction fs generalizing i k with
    | nil => cases h
    | cons fi fs ih =>
      rw [paddingAt] at h
      rw [flatFrom, flatFrom]
      split_ifs at h with hk
      · rw [List.getElem?_append_left (by simpa using hk),
          List.getElem?_append_left (by simpa using hk), fileBytes, if_pos h, fileBytes, if_pos h]
      · rw [List.getElem?_append_right (by simpa using hk),
          List.getElem?_append_right (by simpa using hk), length_fileBytes, length_fileBytes]
        exact ih _ _ h
  exact key fs 0 k h

end ChunkOps

/-! Pieces and chunks as ranges of bytes. -/

namespace Lengths

variable {l : Lengths}

theorem pieceLength_le {p : ℕ} (hp : p < l.totalPieces) : l.pieceLength p ≤ l.defaultPieceLength := by
  rw [l.pieceLength_eq p hp]
  exact Nat.min_le_left _ _

/-- The piece of a byte. -/
theorem piece_of_byte {p k : ℕ} (hp : p < l.totalPieces) (h1 : p * l.defaultPieceLength ≤ k)
    (h2 : k < p * l.defaultPieceLength + l.pieceLength p) : k / l.defaultPieceLength = p := by
  have hle := l.pieceLength_le hp
  refine Nat.div_eq_of_lt_le h1 ?_
  rw [Nat.add_mul, Nat.one_mul]
  omega

/-- Every byte of the torrent is in a piece. -/
theorem exists_piece {k : ℕ} (hk : k < l.totalLength) : ∃ p : ValidPieceIndex l,
    p * l.defaultPieceLength ≤ k ∧ k < p * l.defaultPieceLength + l.pieceLength p := by
  have hle := l.totalLength_le
  have hpos : 0 < l.defaultPieceLength := by
    rcases Nat.eq_zero_or_pos l.defaultPieceLength with h | h
    · rw [h] at hle
      omega
    · exact h
  have hlt : k / l.defaultPieceLength < l.totalPieces := by
    rw [Nat.div_lt_iff_lt_mul hpos]
    omega
  refine ⟨⟨k / l.defaultPieceLength, hlt⟩, Nat.div_mul_le_self k _, ?_⟩
  have hmod := Nat.div_add_mod k l.defaultPieceLength
  have hmodlt := Nat.mod_lt k hpos
  rw [Nat.mul_comm] at hmod
  change k < k / l.defaultPieceLength * l.defaultPieceLength +
    l.pieceLength (k / l.defaultPieceLength)
  rw [l.pieceLength_eq _ hlt]
  omega

/-- The chunks of `Lengths.new`. -/
theorem new_tiled (total pl : ℕ) (ht : 0 < total) (hpl : 0 < pl) (h64 : total < 2 ^ 64)
    (h32 : (total + pl - 1) / pl < 2 ^ 32) : (new total pl ht hpl h64 h32).Tiled := by
  have hchunk (p i : ℕ) : i < newChunks total pl p ↔ i * chunkSize < newPieceLength total pl p := by
    unfold newChunks chunkSize
    omega
  refine ⟨?_, ?_⟩
  · intro p hp c hc
    obtain ⟨i, hi, rfl⟩ := List.mem_map.1 hc
    have hlt := (hchunk p i).1 (List.mem_range.1 hi)
    refine ⟨hp, ?_, Nat.min_le_left _ _⟩
    change i * chunkSize + min chunkSize (newPieceLength total pl p - i * chunkSize) ≤
      newPieceLength total pl p
    omega
  · intro p _ k hk
    change k < newPieceLength total pl p at hk
    have hle : k / chunkSize * chunkSize ≤ k := Nat.div_mul_le_self k chunkSize
    have hlt : k < k / chunkSize * chunkSize + chunkSize := Nat.lt_div_mul_add (by decide)
    refine ⟨newChunkInfo total pl p (k / chunkSize), List.mem_map_of_mem ?_, hle, ?_⟩
    · exact List.mem_range.2 ((hchunk p _).2 (by omega))
    · simp only [newChunkInfo]
      omega

/-- The bytes of a chunk are bytes of its piece. -/
theorem chunk_in_piece {c : ChunkInfo} (hc : c.Valid l) {k : ℕ}
    (h1 : l.chunkAbsoluteOffset c ≤ k) (h2 : k < l.chunkAbsoluteOffset c + c.size) :
    c.pieceIndex * l.defaultPieceLength ≤ k ∧
      k < c.pieceIndex * l.defaultPieceLength + l.pieceLength c.pieceIndex := by
  have hle := hc.end_le
  unfold chunkAbsoluteOffset at h1 h2
  omega

end Lengths

/-! The steps. -/

theorem PieceView.have_of_apply {v : PieceView} {op : PieceOp} (h : (v.apply op).have_ = true) :
    v.have_ = true ∨ op = .check .ok := by
  cases op with
  | check r =>
    cases r with
    | ok => exact Or.inr rfl
    | failed => exact Or.inl h
    | ioError => exact Or.inl h
  | _ => exact Or.inl h

namespace Writes

variable {l : Lengths} {fs : List FileInfo} {s s' : Writes l}

/-- A piece becomes have through a hash result only. -/
theorem step_have {op : WriteOp l} (h : step fs s op = some s') {p : ValidPieceIndex l}
    (hp : s'.pieces.chunks.havePieces.get p = true) :
    s.pieces.chunks.havePieces.get p = true ∨
      ∃ i r, op = .run i (.hashed .ok) ∧ s.runs[i]? = some r ∧ r.piece = p := by
  rcases step_sim h with he | ⟨top, has, hstep⟩
  · have hpieces : s'.pieces = s.pieces := congrArg LiveTracker.pieces he
    rw [hpieces] at hp
    exact Or.inl hp
  · obtain ⟨pop, hi, -, ha⟩ := Torrent.step_piece hstep p
    have hview : (((Torrent.live s.tracker).piece p).apply pop).have_ = true := by
      rw [← ha]
      exact hp
    rcases PieceView.have_of_apply hview with hv | rfl
    · exact Or.inl hv
    · cases hi
      cases has with
      | hashed _ hr => exact Or.inr ⟨_, _, rfl, hr, rfl⟩

/-- The messages of the runs. -/
def msgs (s : Writes l) : List PieceMsg := s.runs.map WriteRun.msg

theorem recv_msgs {peer : PeerHandle} {m : PieceMsg} (h : step fs s (.recv peer m) = some s') :
    s'.msgs = s.msgs ++ [m] := by
  simp only [step] at h
  split at h
  · cases h
  · split_ifs at h
    injection h with h
    rw [← h, msgs, List.map_append]
    rfl

/-- No other step changes them. -/
theorem step_msgs {op : WriteOp l} (h : step fs s op = some s') (hop : ∀ peer m, op ≠ .recv peer m) :
    s'.msgs = s.msgs := by
  cases op with
  | recv peer m => exact absurd rfl (hop peer m)
  | acquire req => injection h with h; subst h; rfl
  | die a => injection h with h; subst h; rfl
  | updateOnlyFiles only => injection h with h; subst h; rfl
  | run i e =>
    obtain ⟨r, t, ph, hr, -, rfl⟩ := run_step h
    apply List.ext_getElem?
    intro j
    simp only [msgs, List.getElem?_map, List.getElem?_set]
    split_ifs with hij hlt
    · subst hij
      rw [hr]
      rfl
    · subst hij
      exact absurd (List.getElem?_eq_some_iff.1 hr).1 hlt
    · rfl

end Writes

namespace DiskWrites

variable {l : Lengths} {fs : List FileInfo} {B H : Type} [DecidableEq H] {ph : PieceHash H}
  {d : DoubleBufHelper B} {s s' : DiskWrites l}

theorem recv_step {peer : PeerHandle} {m : PieceMsg} {data : List UInt8 × List UInt8}
    (h : step fs ph d s (.recv peer m data) = some s') :
    (data.1 ++ data.2).length = m.len ∧ ∃ w, s.writes.step fs (.recv peer m) = some w ∧
      s' = { s with writes := w, data := s.data ++ [data] } := by
  simp only [step, Option.ite_none_right_eq_some, Option.map_eq_some_iff] at h
  obtain ⟨hlen, w, hw, rfl⟩ := h
  exact ⟨hlen, w, hw, rfl⟩

theorem write_step {i : ℕ} {rejects : ℕ → ℕ → ℕ → Bool}
    (h : step fs ph d s (.write i rejects) = some s') :
    ∃ r data c w, s.writes.runs[i]? = some r ∧ s.data[i]? = some data ∧ chunkInfo r = some c ∧
      s.writes.step fs
        (.run i (.write (ChunkOps.writeChunk rejects d l fs s.storage c data).toBool)) = some w ∧
      s' = { s with
        writes := w
        storage := ChunkOps.leftBy (ChunkOps.writeChunk rejects d l fs s.storage c data) } := by
  simp only [step, Option.bind_eq_some_iff, Option.map_eq_some_iff] at h
  obtain ⟨r, hr, data, hdata, c, hc, w, hw, rfl⟩ := h
  exact ⟨r, data, c, w, hr, hdata, hc, hw, rfl⟩

theorem hashed_step {i : ℕ} (h : step fs ph d s (.hashed i) = some s') :
    ∃ r w, s.writes.runs[i]? = some r ∧
      s.writes.step fs (.run i
        (.hashed (.of (FileOps.checkPiece l fs s.storage ph r.piece)))) = some w ∧
      s' = { s with writes := w } := by
  simp only [step, Option.bind_eq_some_iff, Option.map_eq_some_iff] at h
  obtain ⟨r, hr, w, hw, rfl⟩ := h
  exact ⟨r, w, hr, hw, rfl⟩

theorem tracker_step {op : WriteOp l} (h : step fs ph d s (.tracker op) = some s') :
    op.onFiles = false ∧ ∃ w, s.writes.step fs op = some w ∧ s' = { s with writes := w } := by
  simp only [step, Option.ite_none_left_eq_some, Option.map_eq_some_iff, Bool.not_eq_true] at h
  obtain ⟨hop, w, hw, rfl⟩ := h
  exact ⟨hop, w, hw, rfl⟩

/-- The step of the runs that a step is. -/
inductive As (fs : List FileInfo) (ph : PieceHash H) (d : DoubleBufHelper B) (s : DiskWrites l) :
    DiskOp l → WriteOp l → Prop
  | recv (peer m data) : As fs ph d s (.recv peer m data) (.recv peer m)
  | write {i r data c} (rejects) : s.writes.runs[i]? = some r → s.data[i]? = some data →
      chunkInfo r = some c → As fs ph d s (.write i rejects)
        (.run i (.write (ChunkOps.writeChunk rejects d l fs s.storage c data).toBool))
  | hashed {i r} : s.writes.runs[i]? = some r → As fs ph d s (.hashed i)
      (.run i (.hashed (.of (FileOps.checkPiece l fs s.storage ph r.piece))))
  | tracker {op} : op.onFiles = false → As fs ph d s (.tracker op) op

theorem step_writes {op : DiskOp l} (h : step fs ph d s op = some s') :
    s'.writes = s.writes ∨ ∃ wop, As fs ph d s op wop ∧ s.writes.step fs wop = some s'.writes := by
  cases op with
  | recv peer m data =>
    obtain ⟨-, w, hw, rfl⟩ := recv_step h
    exact Or.inr ⟨_, .recv peer m data, hw⟩
  | write i rejects =>
    obtain ⟨r, data, c, w, hr, hdata, hc, hw, rfl⟩ := write_step h
    exact Or.inr ⟨_, .write rejects hr hdata hc, hw⟩
  | hashed i =>
    obtain ⟨r, w, hr, hw, rfl⟩ := hashed_step h
    exact Or.inr ⟨_, .hashed hr, hw⟩
  | faults fails =>
    injection h with h
    exact Or.inl (h ▸ rfl)
  | tracker op =>
    obtain ⟨hop, w, hw, rfl⟩ := tracker_step h
    exact Or.inr ⟨_, .tracker hop, hw⟩

/-- The data of each run belongs to its message. -/
def Carries (R : PieceMsg → List UInt8 × List UInt8 → Prop) (s : DiskWrites l) : Prop :=
  List.Forall₂ R s.writes.msgs s.data

theorem Carries.step {R : PieceMsg → List UInt8 × List UInt8 → Prop} {op : DiskOp l}
    (h : s.Carries R) (hs : DiskWrites.step fs ph d s op = some s')
    (hrecv : ∀ peer m data, op = .recv peer m data → (data.1 ++ data.2).length = m.len → R m data) :
    s'.Carries R := by
  unfold Carries at h ⊢
  cases op with
  | recv peer m data =>
    obtain ⟨hlen, w, hw, rfl⟩ := recv_step hs
    rw [Writes.recv_msgs hw]
    exact List.rel_append h (.cons (hrecv peer m data rfl hlen) .nil)
  | write i rejects =>
    obtain ⟨r, data, c, w, -, -, -, hw, rfl⟩ := write_step hs
    rwa [Writes.step_msgs hw (by simp)]
  | hashed i =>
    obtain ⟨r, w, -, hw, rfl⟩ := hashed_step hs
    rwa [Writes.step_msgs hw (by simp)]
  | faults fails =>
    injection hs with hs
    rwa [← hs]
  | tracker op =>
    obtain ⟨hop, w, hw, rfl⟩ := tracker_step hs
    rwa [Writes.step_msgs hw]
    rintro peer m rfl
    cases hop

theorem Carries.get {R : PieceMsg → List UInt8 × List UInt8 → Prop} (h : s.Carries R) {i : ℕ}
    {r : WriteRun l} {data : List UInt8 × List UInt8} (hr : s.writes.runs[i]? = some r)
    (hdata : s.data[i]? = some data) : R r.msg data := by
  obtain ⟨hi, rfl⟩ := List.getElem?_eq_some_iff.1 hr
  obtain ⟨hj, rfl⟩ := List.getElem?_eq_some_iff.1 hdata
  have hget := (List.forall₂_iff_get.1 h).2 i (by simpa [Writes.msgs] using hi) hj
  simpa [Writes.msgs] using hget

theorem start_carries (R : PieceMsg → List UInt8 × List UInt8 → Prop) (c : ChunkTracker l)
    (st : Storage) : (start c st).Carries R := .nil

/-- The message and the data have the length of the chunk. -/
theorem chunk_of_run (hl : l.Tiled) {r : WriteRun l} {c : ChunkInfo} (h : chunkInfo r = some c) :
    c.Valid l ∧ c.pieceIndex = r.piece ∧ c.size = r.msg.len ∧ c ∈ l.iterChunkInfos r.piece := by
  obtain ⟨hmem, -, hsize⟩ := (l.received_iff r.piece r.piece.isLt _ _ c).1 h
  exact ⟨hl.valid _ r.piece.isLt c hmem, l.pieceIndex_iter _ r.piece.isLt c hmem, hsize, hmem⟩

/-- A step changes bytes of the torrent only by a write, and then to the data of its run. -/
theorem step_flat (hl : l.Tiled) (hsum : (fs.map FileInfo.len).sum = l.totalLength) {op : DiskOp l}
    (hlen : s.Carries fun m x => (x.1 ++ x.2).length = m.len)
    (h : step fs ph d s op = some s') (k : ℕ) :
    (flat fs s'.storage)[k]? = (flat fs s.storage)[k]? ∨
      ∃ (i : ℕ) (r : WriteRun l) (data : List UInt8 × List UInt8) (c : ChunkInfo),
        s.writes.runs[i]? = some r ∧ r.phase = .checked ∧ s.data[i]? = some data ∧
        chunkInfo r = some c ∧ (l.chunkAbsoluteOffset c ≤ k ∧ k < l.chunkAbsoluteOffset c + c.size) ∧
        (flat fs s'.storage)[k]? = (data.1 ++ data.2)[k - l.chunkAbsoluteOffset c]? := by
  cases op with
  | recv peer m data =>
    obtain ⟨-, w, -, rfl⟩ := recv_step h
    exact Or.inl rfl
  | hashed i =>
    obtain ⟨r, w, -, -, rfl⟩ := hashed_step h
    exact Or.inl rfl
  | tracker op =>
    obtain ⟨-, w, -, rfl⟩ := tracker_step h
    exact Or.inl rfl
  | faults fails =>
    injection h with h
    subst h
    exact Or.inl (congrArg (fun b => b[k]?) (flatFrom_congr fun _ _ _ => rfl))
  | write i rejects =>
    obtain ⟨r, data, c, w, hr, hdata, hc, hw, rfl⟩ := write_step h
    obtain ⟨hvalid, -, hsize, -⟩ := chunk_of_run hl hc
    have hphase : r.phase = .checked := by
      obtain ⟨r', t, p, hr', hm, -⟩ := Writes.run_step hw
      obtain rfl := Option.some.inj (hr.symm.trans hr')
      cases hm with
      | write _ hp => exact hp
    rcases ChunkOps.writeChunk_left rejects d s.storage hsum hvalid
      ((hlen.get hr hdata).trans hsize.symm) k with hk | ⟨hrange, hk⟩
    · exact Or.inl hk
    · exact Or.inr ⟨i, r, data, c, hr, hphase, hdata, hc, hrange, hk⟩

end DiskWrites

end Rtbit
