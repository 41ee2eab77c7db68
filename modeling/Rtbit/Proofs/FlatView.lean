import Rtbit.Proofs.Verifiers
import Rtbit.Sanity.Chunks

/-! Reading and writing through the file list is reading and writing one string of bytes: a
chunk that is written replaces its range of it, except where the range is padding, a chunk
that is read is its range, and `check_piece` hashes the range of the piece. -/

namespace Rtbit

open Lib

namespace ChunkOps

variable {B : Type} {rejects : ℕ → ℕ → ℕ → Bool} {d : DoubleBufHelper B} {st st' : Storage}

/-- What a write of `bytes` at `off` of the files from number `i` on does. -/
structure WrittenFrom (st st' : Storage) (i : ℕ) (fs : List FileInfo) (off : ℕ)
    (bytes : List UInt8) : Prop where
  fails : st'.fails = st.fails
  grows : ∀ j, (st.contents j).length ≤ (st'.contents j).length
  other : ∀ j < i, ∀ k, st'.byte j k = st.byte j k
  inside : ∀ k, off ≤ k → k < off + bytes.length → k < (fs.map FileInfo.len).sum →
    paddingAt fs k = false → (flatFrom st' i fs)[k]? = bytes[k - off]?
  outside : ∀ k, k < off ∨ off + bytes.length ≤ k ∨ paddingAt fs k = true →
    (flatFrom st' i fs)[k]? = (flatFrom st i fs)[k]?

theorem WrittenFrom.refl (st : Storage) (i : ℕ) (fs : List FileInfo) (off : ℕ) :
    WrittenFrom st st i fs off [] := by
  refine ⟨rfl, fun _ => le_rfl, fun _ _ _ => rfl, ?_, fun _ _ => rfl⟩
  intro k h1 h2
  simp only [List.length_nil] at h2
  omega

/-- The write to the first file. -/
structure WrittenHead (st st' : Storage) (i : ℕ) (fi : FileInfo) (off : ℕ) (buf : List UInt8) :
    Prop where
  fails : st'.fails = st.fails
  grows : ∀ j, (st.contents j).length ≤ (st'.contents j).length
  other : ∀ j, j ≠ i → ∀ k, st'.byte j k = st.byte j k
  inside : ∀ k, off ≤ k → k < off + buf.length → fi.padding = false →
    (fileBytes st' i fi)[k]? = buf[k - off]?
  outside : ∀ k, k < off ∨ off + buf.length ≤ k ∨ fi.padding = true →
    (fileBytes st' i fi)[k]? = (fileBytes st i fi)[k]?

theorem Stored.head {i off : ℕ} {fi : FileInfo} {buf : List UInt8} (hp : fi.padding = false)
    (hle : off + buf.length ≤ fi.len) (h : Stored st st' i off buf) :
    WrittenHead st st' i fi off buf := by
  refine ⟨h.fails, h.grows, ?_, ?_, ?_⟩
  · intro j hj k
    rw [h.byte, if_neg (by tauto)]
  · intro k h1 h2 _
    rw [fileBytes_get hp (by omega), h.byte, if_pos ⟨rfl, h1, h2⟩, List.getD_eq_getElem _ _ (by omega),
      List.getElem?_eq_getElem]
  · intro k hk
    rcases Nat.lt_or_ge k fi.len with hlt | hge
    · rw [fileBytes_get hp hlt, fileBytes_get hp hlt, h.byte, if_neg]
      rintro ⟨-, h1, h2⟩
      rcases hk with hk | hk | hk
      · omega
      · omega
      · simp [hp] at hk
    · rw [List.getElem?_eq_none (by simpa using hge), List.getElem?_eq_none (by simpa using hge)]

theorem writeFile_head {i off : ℕ} {fi : FileInfo} {bufs : List UInt8 × List UInt8}
    (hle : off + (bufs.1 ++ bufs.2).length ≤ fi.len)
    (h : writeFile rejects st i fi off bufs = .ok st') :
    WrittenHead st st' i fi off (bufs.1 ++ bufs.2) := by
  unfold writeFile at h
  split_ifs at h with hp
  · obtain rfl := Except.ok.inj h
    refine ⟨rfl, fun _ => le_rfl, fun _ _ _ => rfl, ?_, fun _ _ => rfl⟩
    intro k _ _ hnp
    simp [hp] at hnp
  · exact (pwriteAllVectored_stored h).head (by simpa using hp) hle

/-- The files after one that ends before the range. -/
theorem WrittenFrom.skip {i off : ℕ} {fi : FileInfo} {fs : List FileInfo} {bytes : List UInt8}
    (hoff : fi.len ≤ off) (h : WrittenFrom st st' (i + 1) fs (off - fi.len) bytes) :
    WrittenFrom st st' i (fi :: fs) off bytes := by
  have hhead : fileBytes st' i fi = fileBytes st i fi :=
    fileBytes_congr fun k => h.other i (Nat.lt_succ_self i) k
  refine ⟨h.fails, h.grows, fun j hj => h.other j (by omega), ?_, ?_⟩
  · intro k h1 h2 h3 hp
    rw [paddingAt, if_neg (by omega)] at hp
    rw [List.map_cons, List.sum_cons] at h3
    rw [flatFrom, List.getElem?_append_right (by rw [length_fileBytes]; omega), length_fileBytes,
      h.inside (k - fi.len) (by omega) (by omega) (by omega) hp]
    congr 1
    omega
  · intro k hk
    rw [flatFrom, flatFrom, hhead]
    rcases Nat.lt_or_ge k fi.len with hlt | hge
    · rw [List.getElem?_append_left (by simpa using hlt), List.getElem?_append_left (by simpa using hlt)]
    · rw [List.getElem?_append_right (by simpa using hge),
        List.getElem?_append_right (by simpa using hge), length_fileBytes]
      rw [paddingAt, if_neg (by omega)] at hk
      exact h.outside _ (hk.imp (fun _ => by omega) (Or.imp_left fun _ => by omega))

/-- The part of the range in the first file, and the rest of it. -/
theorem WrittenHead.cons {st₁ : Storage} {i off w : ℕ} {fi : FileInfo} {fs : List FileInfo}
    {bytes : List UInt8} (hoff : off ≤ fi.len) (hw : w = min bytes.length (fi.len - off))
    (h : WrittenHead st st₁ i fi off (bytes.take w))
    (ht : WrittenFrom st₁ st' (i + 1) fs 0 (bytes.drop w)) :
    WrittenFrom st st' i (fi :: fs) off bytes := by
  have hhead : fileBytes st' i fi = fileBytes st₁ i fi :=
    fileBytes_congr fun k => ht.other i (Nat.lt_succ_self i) k
  have htail : flatFrom st₁ (i + 1) fs = flatFrom st (i + 1) fs :=
    flatFrom_congr fun j k hj => h.other j (by omega) k
  have htake : (bytes.take w).length = w := by
    rw [List.length_take]
    omega
  refine ⟨ht.fails.trans h.fails, fun j => (h.grows j).trans (ht.grows j), ?_, ?_, ?_⟩
  · intro j hj k
    rw [ht.other j (by omega), h.other j (by omega)]
  · intro k h1 h2 h3 hp
    rw [List.map_cons, List.sum_cons] at h3
    rw [flatFrom, hhead]
    rcases Nat.lt_or_ge k fi.len with hlt | hge
    · rw [paddingAt, if_pos hlt] at hp
      rw [List.getElem?_append_left (by simpa using hlt), h.inside k h1 (by omega) hp,
        List.getElem?_take_of_lt (by omega)]
    · rw [paddingAt, if_neg (by omega)] at hp
      rw [List.getElem?_append_right (by simpa using hge), length_fileBytes,
        ht.inside (k - fi.len) (Nat.zero_le _) (by rw [List.length_drop]; omega) (by omega) hp,
        List.getElem?_drop]
      congr 1
      omega
  · intro k hk
    rw [flatFrom, flatFrom, hhead]
    rcases Nat.lt_or_ge k fi.len with hlt | hge
    · rw [paddingAt, if_pos hlt] at hk
      rw [List.getElem?_append_left (by simpa using hlt), List.getElem?_append_left (by simpa using hlt)]
      exact h.outside k (hk.imp_right (Or.imp_left fun _ => by omega))
    · rw [paddingAt, if_neg (by omega)] at hk
      rw [List.getElem?_append_right (by simpa using hge),
        List.getElem?_append_right (by simpa using hge), length_fileBytes, length_fileBytes, ← htail]
      refine ht.outside _ (Or.inr (hk.elim (fun _ => by omega) (Or.imp_left fun _ => ?_)))
      rw [List.length_drop]
      omega

theorem writeChunkLoop_written {fs : List FileInfo} {i off : ℕ} {data : B}
    (h : writeChunkLoop rejects d i fs off data st = .ok st') :
    WrittenFrom st st' i fs off (d.bytes data) := by
  induction fs generalizing i off data st with
  | nil =>
    obtain rfl := Except.ok.inj h
    refine ⟨rfl, fun _ => le_rfl, fun _ _ _ => rfl, ?_, fun _ _ => rfl⟩
    intro k _ _ hk
    simp at hk
  | cons fi fs ih =>
    rw [writeChunkLoop] at h
    by_cases hoff : off > fi.len
    · rw [if_pos hoff] at h
      exact (ih h).skip hoff.le
    · rw [if_neg hoff] at h
      set w := min (d.len data) (fi.len - off) with hw
      have hwle : w ≤ d.len data := Nat.min_le_left _ _
      cases hf : writeFile rejects st i fi off (d.asIoslices data w) with
      | error e => simp [hf] at h
      | ok st₁ =>
        simp only [hf] at h
        have hslices := d.ioslices_eq data w hwle
        have hhead : WrittenHead st st₁ i fi off ((d.bytes data).take w) := by
          have hwf := writeFile_head (by rw [hslices, List.length_take]; omega) hf
          rwa [hslices] at hwf
        rw [d.len_eq] at hw
        refine hhead.cons (by omega) hw ?_
        rw [← d.bytes_advance data w hwle]
        split_ifs at h with hdone
        · obtain rfl := Except.ok.inj h
          rw [d.len_eq, List.length_eq_zero_iff] at hdone
          rw [hdone]
          exact WrittenFrom.refl _ _ _ _
        · exact ih h

theorem writeChunkLoop_ok (hr : ∀ i off n, rejects i off n = false) (fs : List FileInfo)
    (i off : ℕ) (data : B) (st : Storage) :
    ∃ st', writeChunkLoop rejects d i fs off data st = .ok st' := by
  induction fs generalizing i off data st with
  | nil => exact ⟨st, rfl⟩
  | cons fi fs ih =>
    rw [writeChunkLoop]
    split_ifs with hoff
    · exact ih _ _ _ _
    · obtain ⟨st₁, h1⟩ : ∃ st₁, writeFile rejects st i fi off
          (d.asIoslices data (min (d.len data) (fi.len - off))) = .ok st₁ := by
        unfold writeFile
        split_ifs
        · exact ⟨st, rfl⟩
        · exact pwriteAllVectored_ok hr _ _ _ _
      simp only [h1]
      split_ifs
      · exact ⟨st₁, rfl⟩
      · exact ih _ _ _ _

/-- What has been written can be read, if no read fails. -/
theorem writeChunkLoop_readable {fs : List FileInfo} {i off : ℕ} {data : B}
    (h : writeChunkLoop rejects d i fs off data st = .ok st') {st₂ : Storage}
    (hgrows : ∀ j, (st'.contents j).length ≤ (st₂.contents j).length)
    (hfails : ∀ i off n, st₂.fails i off n = false) {buf : List UInt8}
    (hbuf : buf.length = d.len data) : ∃ b, (readChunkLoop st₂ i fs off buf).2 = .ok b := by
  induction fs generalizing i off data st buf with
  | nil => exact ⟨buf, rfl⟩
  | cons fi fs ih =>
    rw [writeChunkLoop] at h
    rw [readChunkLoop]
    by_cases hoff : off > fi.len
    · rw [if_pos hoff] at h ⊢
      exact ih h hbuf
    · rw [if_neg hoff] at h ⊢
      rw [Nat.min_comm] at h
      simp only [hbuf]
      set w := min (fi.len - off) (d.len data) with hw
      have hwle : w ≤ d.len data := Nat.min_le_right _ _
      have hlen : d.len (d.advance data w) = d.len data - w := by
        rw [d.len_eq, d.bytes_advance data w hwle, List.length_drop, ← d.len_eq]
      cases hf : writeFile rejects st i fi off (d.asIoslices data w) with
      | error e => simp [hf] at h
      | ok st₁ =>
        simp only [hf] at h
        have hgrows₁ : ∀ j, (st₁.contents j).length ≤ (st₂.contents j).length := by
          intro j
          refine le_trans ?_ (hgrows j)
          split_ifs at h
          · rw [← Except.ok.inj h]
          · exact (writeChunkLoop_written h).grows j
        obtain ⟨b, hb⟩ : ∃ b, readFile st₂ i fi off w = some b := by
          unfold readFile Storage.readAt Storage.preadExact
          split_ifs with hp h0 hread
          · exact ⟨_, rfl⟩
          · exact ⟨_, rfl⟩
          · exact ⟨_, rfl⟩
          · -- the bytes of this file have been written
            refine absurd ⟨hfails i off w, le_trans ?_ (hgrows₁ i)⟩ hread
            rw [writeFile, if_neg hp] at hf
            have hstored := pwriteAllVectored_stored hf
            have hslices := d.ioslices_eq data w hwle
            have hlw : ((d.bytes data).take w).length = w := by
              rw [List.length_take, ← d.len_eq]
              omega
            rw [hslices] at hstored
            have hcov := hstored.covers (fun he => h0 (by rw [← hlw, he, List.length_nil]))
            rwa [hlw] at hcov
        simp only [hb]
        by_cases hdone : d.len data ≤ w
        · rw [if_pos (by simpa [hbuf] using hdone)]
          exact ⟨b, rfl⟩
        · rw [if_neg (by rw [hlen]; omega)] at h
          rw [if_neg (by simpa [hbuf] using hdone)]
          obtain ⟨r, hr⟩ : ∃ r, (readChunkLoop st₂ (i + 1) fs 0 (buf.drop w)).2 = .ok r :=
            ih h (by rw [List.length_drop, hbuf, hlen])
          exact ⟨b ++ r, by simp [hr, Except.map]⟩

/-! The claim about all three. -/

/-- Bytes `o` to `o + n` of the torrent. -/
def slice (fs : List FileInfo) (st : Storage) (o n : ℕ) : List UInt8 := ((flat fs st).drop o).take n

/-- The range at `o` is changed to `data`, except for padding, and nothing else is changed. -/
structure Replaces (fs : List FileInfo) (st st' : Storage) (o : ℕ) (data : List UInt8) : Prop where
  inside : ∀ k, o ≤ k → k < o + data.length → paddingAt fs k = false →
    (flat fs st')[k]? = data[k - o]?
  outside : ∀ k, k < o ∨ o + data.length ≤ k ∨ paddingAt fs k = true →
    (flat fs st')[k]? = (flat fs st)[k]?

/-- A chunk ends inside the torrent. -/
theorem chunk_end_le {l : Lengths} {c : ChunkInfo} (hc : c.Valid l) :
    l.chunkAbsoluteOffset c + c.size ≤ l.totalLength := by
  obtain ⟨-, hend⟩ := FileOps.piece_end l hc.piece_lt
  have hle := hc.end_le
  unfold Lengths.chunkAbsoluteOffset
  omega

theorem readChunk_slice {l : Lengths} {fs : List FileInfo}
    (hsum : (fs.map FileInfo.len).sum = l.totalLength) {c : ChunkInfo} (hc : c.Valid l)
    {buf b : List UInt8} (hbuf : buf.length = c.size) (h : (readChunk l fs st c buf).2 = .ok b) :
    b = slice fs st (l.chunkAbsoluteOffset c) c.size := by
  have hend := chunk_end_le hc
  rw [readChunk, if_neg (by omega)] at h
  have hrest : buf.drop ((fs.map FileInfo.len).sum - l.chunkAbsoluteOffset c) = [] :=
    List.drop_eq_nil_of_le (by omega)
  rw [readChunkLoop_slice h, hrest, hbuf, List.append_nil]
  rfl

theorem checkPiece_hashes {H : Type} [DecidableEq H] {l : Lengths} (fs : List FileInfo)
    (st : Storage) (ph : PieceHash H) (p : ValidPieceIndex l) :
    (∀ r, FileOps.checkPiece l fs st ph p = .ok r →
      ph.compareHash p (slice fs st (p * l.defaultPieceLength) (l.pieceLength p)) = some r) ∧
    (FileOps.NoReadFails fs st → FileOps.checkPiece l fs st ph p =
      (ph.compareHash p (slice fs st (p * l.defaultPieceLength) (l.pieceLength p))).elim
        (.error .noHash) .ok) := by
  constructor
  · intro r h
    obtain ⟨b, hb, hr⟩ := (FileOps.checkPiece_iff p).1 h
    rwa [FileOps.readSegments_slice hb] at hr
  · intro hno
    rcases FileOps.checkPiece_eq fs st ph p with ⟨e, hr, -⟩ | ⟨b, hr, he⟩
    · obtain ⟨b, hb⟩ := FileOps.readSegments_isSome fun seg hseg => hno.segment hseg
      rw [FileOps.pieceSegments, hb] at hr
      cases hr
    · rw [FileOps.readSegments_slice hr] at he
      exact he

/-- Writing a chunk, reading a chunk and checking a piece, on the torrent as one string of
bytes. `rejects` are the writes that the storage does not accept. -/
theorem chunks_on_flat {H : Type} [DecidableEq H] (l : Lengths) (fs : List FileInfo)
    (hsum : (fs.map FileInfo.len).sum = l.totalLength) (rejects : ℕ → ℕ → ℕ → Bool)
    (d : DoubleBufHelper B) (st : Storage) (c : ChunkInfo) (hc : c.Valid l)
    (data : List UInt8 × List UInt8) (hdata : (data.1 ++ data.2).length = c.size) :
    (∀ st', writeChunk rejects d l fs st c data = .ok st' →
      Replaces fs st st' (l.chunkAbsoluteOffset c) (data.1 ++ data.2) ∧
      ∀ buf, buf.length = c.size →
        (∀ b, (readChunk l fs st' c buf).2 = .ok b →
          b = slice fs st' (l.chunkAbsoluteOffset c) c.size) ∧
        ((∀ i off n, st.fails i off n = false) → ∃ b, (readChunk l fs st' c buf).2 = .ok b)) ∧
    ((∀ i off n, rejects i off n = false) →
      ∃ st', writeChunk rejects d l fs st c data = .ok st') ∧
    (∀ (ph : PieceHash H) (p : ValidPieceIndex l),
      (∀ r, FileOps.checkPiece l fs st ph p = .ok r →
        ph.compareHash p (slice fs st (p * l.defaultPieceLength) (l.pieceLength p)) = some r) ∧
      (FileOps.NoReadFails fs st → FileOps.checkPiece l fs st ph p =
        (ph.compareHash p (slice fs st (p * l.defaultPieceLength) (l.pieceLength p))).elim
          (.error .noHash) .ok)) := by
  refine ⟨?_, ?_, fun ph p => checkPiece_hashes fs st ph p⟩
  · intro st' h
    have hend := chunk_end_le hc
    have hw := writeChunkLoop_written h
    rw [d.bytes_new] at hw
    refine ⟨⟨?_, hw.outside⟩, ?_⟩
    · intro k h1 h2 hp
      exact hw.inside k h1 h2 (by omega) hp
    · intro buf hbuf
      refine ⟨fun b hb => readChunk_slice hsum hc hbuf hb, ?_⟩
      intro hfails
      rw [readChunk, if_neg (by omega)]
      refine writeChunkLoop_readable h (fun _ => le_rfl) ?_ ?_
      · intro i off n
        rw [hw.fails]
        exact hfails i off n
      · rw [d.len_eq, d.bytes_new, hdata, hbuf]
  · intro hr
    exact writeChunkLoop_ok hr _ _ _ _ _

/-- The files of `tenBytes`, all readable. -/
def tenByteDisk : Storage where
  contents i := if i = 0 then [1, 2, 3] else [4, 5, 6, 7, 8]
  fails _ _ _ := false

/-- The second piece: its first byte is padding, the other three begin the last file. -/
def secondPiece : ChunkInfo := ⟨1, 0, 0, 4⟩

theorem secondPiece_valid : secondPiece.Valid FileOps.tenBytes := ⟨by decide, by decide, by decide⟩

theorem secondPiece_on_flat : ∃ st', writeChunk (fun _ _ _ => false) DoubleBufHelper.slices
      FileOps.tenBytes FileOps.tenByteFiles tenByteDisk secondPiece ([9], [8, 7, 6]) = .ok st' ∧
    (flat FileOps.tenByteFiles st')[5]? = some 8 ∧
    (flat FileOps.tenByteFiles st')[4]? = (flat FileOps.tenByteFiles tenByteDisk)[4]? ∧
    ∃ b, (readChunk FileOps.tenBytes FileOps.tenByteFiles st' secondPiece [0, 0, 0, 0]).2 = .ok b ∧
      b = slice FileOps.tenByteFiles st' 4 4 := by
  obtain ⟨hw, hok, -⟩ := chunks_on_flat (H := List UInt8) FileOps.tenBytes FileOps.tenByteFiles rfl
    (fun _ _ _ => false) DoubleBufHelper.slices tenByteDisk secondPiece secondPiece_valid
    ([9], [8, 7, 6]) rfl
  obtain ⟨st', hst'⟩ := hok fun _ _ _ => rfl
  obtain ⟨hrep, hread⟩ := hw st' hst'
  obtain ⟨hslice, hsome⟩ := hread [0, 0, 0, 0] rfl
  obtain ⟨b, hb⟩ := hsome fun _ _ _ => rfl
  refine ⟨st', hst', ?_, ?_, b, hb, hslice b hb⟩
  · exact hrep.inside 5 (by decide) (by decide) rfl
  · exact hrep.outside 4 (Or.inr (Or.inr rfl))

end ChunkOps

end Rtbit
