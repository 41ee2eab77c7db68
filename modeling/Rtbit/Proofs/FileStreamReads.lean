import Rtbit.Lib.Runs
import Rtbit.Sanity.FileLayout
import Rtbit.Spec.FileStream

/-! What a `FileStream` reads. The position stays inside the file and is the same in both places
where it is kept; a read is cut at the end of the buffer, of the piece and of the file, so that it
returns bytes of its own file in one piece that is have. -/

namespace Rtbit

open Lib

namespace Streaming

open Streams (CurrentPiece)

variable {l : Lengths} {computeCurrentPiece : ℕ → ℕ → Option (CurrentPiece l)} {h h' : Handle}
  {fileId : ℕ} {fi : FileInfo}

/-- What `compute_current_piece` promises: the piece that a position of a file is in, and the bytes
of the piece from there on. -/
def ComputesPiece (l : Lengths) (computeCurrentPiece : ℕ → ℕ → Option (CurrentPiece l)) : Prop :=
  ∀ position offset current, computeCurrentPiece position offset = some current →
    current.id * l.defaultPieceLength ≤ offset + position ∧ 0 < current.pieceRemaining ∧
      offset + position + current.pieceRemaining =
        current.id * l.defaultPieceLength + l.pieceLength current.id

/-- The stream is that of a file, its position is inside the file, and its entry has the same. -/
structure Handle.Wf (h : Handle) (fileId : ℕ) (fi : FileInfo) : Prop where
  file : h.stream.fileId = fileId
  len : h.stream.fileLen = fi.len
  offset : h.stream.fileTorrentAbsOffset = fi.offsetInTorrent
  position_le : h.stream.position ≤ fi.len
  entry : ∃ st, h.state = some st ∧ st.position = h.stream.position

/-! The position. -/

theorem wf_open (t : TorrentStreams) (fileId : ℕ) (fi : FileInfo) :
    (t.open fileId fi).Wf fileId fi where
  file := rfl
  len := rfl
  offset := rfl
  position_le := Nat.zero_le _
  entry := ⟨_, Function.update_self _ _ _, rfl⟩

@[simp] theorem state_setState (h : Handle) (st : StreamState) : (h.setState st).state = some st :=
  Function.update_self _ _ _

theorem Handle.Wf.setState (hw : h.Wf fileId fi) {st : StreamState}
    (hst : st.position = h.stream.position) : (h.setState st).Wf fileId fi :=
  ⟨hw.file, hw.len, hw.offset, hw.position_le, st, state_setState h st, hst⟩

theorem Handle.Wf.setPosition (hw : h.Wf fileId fi) {newPos : ℕ} (hle : newPos ≤ fi.len) :
    ∃ h', h.setPosition newPos = some h' ∧ h'.Wf fileId fi ∧ h'.stream.position = newPos := by
  obtain ⟨st, hst, -⟩ := hw.entry
  rw [Handle.setPosition, hst]
  exact ⟨_, rfl, ⟨hw.file, hw.len, hw.offset, hle, _, Function.update_self _ _ _, rfl⟩, rfl⟩

theorem Handle.Wf.registerWaker (hw : h.Wf fileId fi) : h.registerWaker.Wf fileId fi := by
  obtain ⟨st, hst, hpos⟩ := hw.entry
  rw [Handle.registerWaker, hst]
  exact hw.setState hpos

theorem registerWaker_stream (h : Handle) : h.registerWaker.stream = h.stream := by
  unfold Handle.registerWaker
  split <;> rfl

/-! Seeks. -/

/-- The position that is asked for, without any overflow. -/
def target (h : Handle) : SeekFrom → ℤ
  | .start s => s.toNat
  | .end_ e => h.stream.fileLen + e.toInt
  | .current o => h.stream.position + o.toInt

/-- A sum that overflows is negative. -/
theorem i64Add_cases {n : ℕ} (hn : n < 2 ^ 63) (e : Int64) :
    i64Add n e.toInt = n + e.toInt ∨ i64Add n e.toInt < 0 ∧ 2 ^ 63 ≤ n + e.toInt := by
  have hlow : -2 ^ 63 ≤ e.toInt := e.le_toInt
  have hhigh : e.toInt < 2 ^ 63 := e.toInt_lt
  unfold i64Add
  rcases lt_or_ge ((n : ℤ) + e.toInt) (2 ^ 63) with hlt | hge
  · left
    exact Int.bmod_eq_of_le (by omega) (by omega)
  · right
    have hsub : ((n : ℤ) + e.toInt).bmod (2 ^ 64) = n + e.toInt - 2 ^ 64 := by
      rw [← Int.sub_bmod_right]
      exact Int.bmod_eq_of_le (by omega) (by omega)
    omega

theorem newPos_cases (hw : h.Wf fileId fi) (hlen : fi.len < 2 ^ 63) (position : SeekFrom) :
    h.newPos position = some (target h position) ∨
      (h.newPos position = none ∨ ∃ p < 0, h.newPos position = some p) ∧
        (fi.len : ℤ) < target h position := by
  have hsum (n : ℕ) (hn : n ≤ fi.len) (e : Int64) :
      (toI64 n).map (fun n => i64Add n e.toInt) = some (n + e.toInt) ∨
        (∃ p < 0, (toI64 n).map (fun n => i64Add n e.toInt) = some p) ∧
          (fi.len : ℤ) < n + e.toInt := by
    have hn : n < 2 ^ 63 := by omega
    rw [toI64, if_pos hn, Option.map_some]
    rcases i64Add_cases hn e with heq | ⟨hneg, hge⟩
    · exact Or.inl (by rw [heq])
    · exact Or.inr ⟨⟨_, hneg, rfl⟩, by omega⟩
  cases position with
  | start s =>
    simp only [Handle.newPos, target, toI64]
    split_ifs with hs
    · exact Or.inl rfl
    · exact Or.inr ⟨Or.inl rfl, by omega⟩
  | end_ e =>
    rw [Handle.newPos, target, hw.len]
    rcases hsum fi.len le_rfl e with hok | ⟨hneg, hlt⟩
    · exact Or.inl hok
    · exact Or.inr ⟨Or.inr hneg, hlt⟩
  | current o =>
    rw [Handle.newPos, target]
    rcases hsum h.stream.position hw.position_le o with hok | ⟨hneg, hlt⟩
    · exact Or.inl hok
    · exact Or.inr ⟨Or.inr hneg, hlt⟩

/-- The position that is asked for is one of the file, whose length is an `i64`. -/
def Reaches (h : Handle) (fi : FileInfo) (position : SeekFrom) : Prop :=
  fi.len < 2 ^ 63 ∧ 0 ≤ target h position ∧ target h position ≤ fi.len

/-- A seek to a position of the file succeeds; any other changes nothing. -/
theorem startSeek_cases (hw : h.Wf fileId fi) (position : SeekFrom) :
    (Reaches h fi position ∧ ∃ h', h.startSeek position = some (true, h') ∧ h'.Wf fileId fi ∧
      (h'.stream.position : ℤ) = target h position) ∨
    ¬Reaches h fi position ∧ h.startSeek position = some (false, h) := by
  unfold Reaches
  by_cases hlen : fi.len < 2 ^ 63
  · have hend : toI64 h.stream.fileLen = some (fi.len : ℤ) := by
      rw [hw.len, toI64, if_pos hlen]
    rcases newPos_cases hw hlen position with hok | ⟨hbad, hlt⟩
    · rw [Handle.startSeek, hend, hok]
      simp only
      split_ifs with hout
      · exact Or.inr ⟨by omega, rfl⟩
      · have hin : (target h position).toNat ≤ fi.len := by omega
        obtain ⟨h', hset, hw', hpos⟩ := hw.setPosition hin
        refine Or.inl ⟨by omega, h', ?_, hw', by rw [hpos]; omega⟩
        rw [hset]
        rfl
    · refine Or.inr ⟨by omega, ?_⟩
      rcases hbad with hnone | ⟨p, hneg, hsome⟩
      · rw [Handle.startSeek, hend, hnone]
      · rw [Handle.startSeek, hend, hsome]
        exact if_pos (Or.inl hneg)
  · refine Or.inr ⟨fun hr => hlen hr.1, ?_⟩
    have hend : toI64 h.stream.fileLen = none := by
      rw [hw.len, toI64, if_neg hlen]
    rw [Handle.startSeek, hend]

/-! Reads. -/

/-- The bytes that a read returns: as many as the buffer takes, from the position on, of the file
and of one piece that is have. -/
structure ReadsFrom (l : Lengths) (fileId : ℕ) (fi : FileInfo) (position bufLen : ℕ)
    (havePieces : Option (ValidPieceIndex l → Bool)) (storage : Option Storage)
    (bytes : List UInt8) : Prop where
  length_le : bytes.length ≤ bufLen
  end_le : position + bytes.length ≤ fi.len
  /-- No bytes only at the end of the file, or into an empty buffer. -/
  empty : bytes = [] → position = fi.len ∨ bufLen = 0
  piece : bytes ≠ [] → ∃ st haves, storage = some st ∧ havePieces = some haves ∧
    bytes = ((st.contents fileId).drop position).take bytes.length ∧
    ∃ p : ValidPieceIndex l, haves p = true ∧
      p * l.defaultPieceLength ≤ fi.offsetInTorrent + position ∧
      fi.offsetInTorrent + position + bytes.length ≤ p * l.defaultPieceLength + l.pieceLength p

theorem preadExact_some {st : Storage} {fileId offset n : ℕ} {bytes : List UInt8}
    (h : st.preadExact fileId offset n = some bytes) :
    bytes.length = n ∧ bytes = ((st.contents fileId).drop offset).take n := by
  unfold Storage.preadExact at h
  split_ifs at h with hread
  obtain rfl := Option.some.inj h
  refine ⟨?_, rfl⟩
  rw [List.length_take, List.length_drop]
  omega

/-- What a poll does. -/
def Polled (l : Lengths) (h : Handle) (fileId : ℕ) (fi : FileInfo) (bufLen : ℕ)
    (havePieces : Option (ValidPieceIndex l → Bool)) (storage : Option Storage) (h' : Handle) :
    PollRead → Prop
  | .pending => h'.stream = h.stream
  | .err => h' = h
  | .ok bytes => h'.stream.position = h.stream.position + bytes.length ∧
    ReadsFrom l fileId fi h.stream.position bufLen havePieces storage bytes

theorem pollRead_spec (hcompute : ComputesPiece l computeCurrentPiece) (hw : h.Wf fileId fi)
    (hlen : fi.len < 2 ^ 64) (bufLen : ℕ) (havePieces : Option (ValidPieceIndex l → Bool))
    (storage : Option Storage) : ∃ r h',
      h.pollRead computeCurrentPiece bufLen havePieces storage = some (r, h') ∧
        h'.Wf fileId fi ∧ Polled l h fileId fi bufLen havePieces storage h' r := by
  have hle := hw.position_le
  unfold Handle.pollRead
  by_cases heof : h.stream.position = h.stream.fileLen
  · rw [if_pos heof]
    refine ⟨_, h, rfl, hw, rfl, Nat.zero_le _, hle, fun _ => Or.inl (heof.trans hw.len), ?_⟩
    exact fun hne => absurd rfl hne
  rw [if_neg heof]
  cases hcurrent : computeCurrentPiece h.stream.position h.stream.fileTorrentAbsOffset with
  | none => exact ⟨_, h, rfl, hw, rfl⟩
  | some current =>
    cases havePieces with
    | none => exact ⟨_, h, rfl, hw, rfl⟩
    | some haves =>
      simp only
      split_ifs with hhave
      · obtain ⟨hstart, hpositive, hend⟩ := hcompute _ _ _ hcurrent
        rw [hw.offset] at hstart hend
        have hremaining : u64Sub h.stream.fileLen h.stream.position =
            fi.len - h.stream.position := by
          rw [hw.len]
          exact u64Sub_of_le hle hlen
        rw [hremaining]
        have hlt : h.stream.position < fi.len := by
          rw [hw.len] at heof
          omega
        split
        next => exact ⟨_, h, rfl, hw, rfl⟩
        next bytes hbytes =>
          obtain ⟨st, hst, hread⟩ := Option.bind_eq_some_iff.1 hbytes
          rw [hw.file] at hread
          obtain ⟨hlength, hslice⟩ := preadExact_some hread
          rw [← hlength] at hslice ⊢
          have hbuf : bytes.length ≤ bufLen := by omega
          have hpiece : bytes.length ≤ current.pieceRemaining := by omega
          have hfile : h.stream.position + bytes.length ≤ fi.len := by omega
          obtain ⟨h', hset, hw', hpos⟩ := hw.setPosition hfile
          rw [Handle.advance, Nat.mod_eq_of_lt (by omega), hset, Option.map_some]
          refine ⟨_, h', rfl, hw', hpos, hbuf, hfile, ?_, ?_⟩
          · rintro rfl
            rw [List.length_nil] at hlength
            omega
          · intro _
            exact ⟨st, haves, hst, rfl, hslice, current.id, hhave, hstart, by omega⟩
      · exact ⟨_, _, rfl, hw.registerWaker, registerWaker_stream h⟩

/-! Runs. -/

theorem step_wf (hcompute : ComputesPiece l computeCurrentPiece) (hlen : fi.len < 2 ^ 64)
    {e : Event l} (hw : h.Wf fileId fi) (hs : step computeCurrentPiece h e = some h') :
    h'.Wf fileId fi := by
  cases e with
  | seek position =>
    rcases startSeek_cases hw position with ⟨-, h₁, hseek, hw₁, -⟩ | ⟨-, hseek⟩
    · simp only [step, hseek, Option.map_some, Option.some.injEq] at hs
      exact hs ▸ hw₁
    · simp only [step, hseek, Option.map_some, Option.some.injEq] at hs
      exact hs ▸ hw
  | read bufLen havePieces storage =>
    obtain ⟨r, h₁, hread, hw₁, -⟩ := pollRead_spec hcompute hw hlen bufLen havePieces storage
    simp only [step, hread, Option.map_some, Option.some.injEq] at hs
    exact hs ▸ hw₁
  | wake =>
    obtain ⟨st, hst, hpos⟩ := hw.entry
    simp only [step, hst, Option.some.injEq] at hs
    rw [← hs]
    exact hw.setState hpos
  | other streamId st =>
    simp only [step] at hs
    split_ifs at hs with hne
    obtain rfl := Option.some.inj hs
    refine ⟨hw.file, hw.len, hw.offset, hw.position_le, ?_⟩
    obtain ⟨st', hst', hpos⟩ := hw.entry
    refine ⟨st', ?_, hpos⟩
    rw [← hst']
    exact Function.update_of_ne (fun he => hne he.symm) _ _

/-- The bytes of a read are not those of another file. -/
theorem ReadsFrom.outside {fs : List FileInfo} {i j bufLen position : ℕ} {fj : FileInfo}
    {havePieces : Option (ValidPieceIndex l → Bool)} {storage : Option Storage}
    {bytes : List UInt8} (hr : ReadsFrom l i fi position bufLen havePieces storage bytes)
    (hl : LooseLayout l fs) (hi : fs[i]? = some fi) (hj : fs[j]? = some fj) (hij : j ≠ i)
    {k : ℕ} (hk : k < bytes.length) :
    ¬(fj.offsetInTorrent ≤ fi.offsetInTorrent + position + k ∧
      fi.offsetInTorrent + position + k < fj.offsetInTorrent + fj.len) := by
  have hend := hr.end_le
  rcases lt_or_gt_of_ne hij with hlt | hgt
  · have hle := hl.end_le hj hi hlt
    omega
  · have hle := hl.end_le hi hj hgt
    omega

/-- Whatever was read and sought before, and whatever other streams do: the position is inside the
file, and the entry has the same; a seek succeeds exactly if the position it asks for is in the file,
and else changes nothing; and a read that completes returns bytes of the file, from the position on,
in one piece that is have, and moves the position behind them. -/
theorem fileStream_reads (l : Lengths) (computeCurrentPiece : ℕ → ℕ → Option (CurrentPiece l))
    (fs : List FileInfo) (i : ℕ) (fi : FileInfo) (t : TorrentStreams)
    (hcompute : ComputesPiece l computeCurrentPiece) (hl : LooseLayout l fs)
    (hi : fs[i]? = some fi) :
    ∀ evs h, Run (step computeCurrentPiece) Any (t.open i fi) evs h →
      h.stream.position ≤ fi.len ∧
      (∃ st, h.state = some st ∧ st.position = h.stream.position) ∧
      (∀ position, (Reaches h fi position ∧ ∃ h', h.startSeek position = some (true, h') ∧
          (h'.stream.position : ℤ) = target h position) ∨
        ¬Reaches h fi position ∧ h.startSeek position = some (false, h)) ∧
      ∀ bufLen havePieces storage, ∃ r h',
        h.pollRead computeCurrentPiece bufLen havePieces storage = some (r, h') ∧
        Polled l h i fi bufLen havePieces storage h' r ∧
        ∀ bytes, r = .ok bytes → ∀ (j : ℕ) (fj : FileInfo), fs[j]? = some fj → j ≠ i →
          ∀ k < bytes.length, ¬(fj.offsetInTorrent ≤ fi.offsetInTorrent + h.stream.position + k ∧
            fi.offsetInTorrent + h.stream.position + k < fj.offsetInTorrent + fj.len) := by
  intro evs h hrun
  have hlen : fi.len < 2 ^ 64 := by
    have hle := hl.end_le_total hi
    have hlt := l.totalLength_lt
    omega
  have hw : h.Wf i fi :=
    hrun.inv (fun h => h.Wf i fi) (wf_open t i fi) fun _ _ _ hw _ hs => step_wf hcompute hlen hw hs
  refine ⟨hw.position_le, hw.entry, fun position => ?_, fun bufLen havePieces storage => ?_⟩
  · rcases startSeek_cases hw position with ⟨hr, h', hseek, -, hpos⟩ | hfail
    · exact Or.inl ⟨hr, h', hseek, hpos⟩
    · exact Or.inr hfail
  · obtain ⟨r, h', hread, -, hpolled⟩ := pollRead_spec hcompute hw hlen bufLen havePieces storage
    refine ⟨r, h', hread, hpolled, ?_⟩
    rintro bytes rfl j fj hj hij k hk
    exact hpolled.2.outside hl hi hj hij hk

/-- The piece of a position, and what is left of it, by their definition. -/
def pieceAt (l : Lengths) (position offset : ℕ) : Option (CurrentPiece l) :=
  if offset + position < l.totalLength then
    (l.validatePieceIndex ((offset + position) / l.defaultPieceLength)).map fun p =>
      ⟨p, p * l.defaultPieceLength + l.pieceLength p - (offset + position)⟩
  else none

theorem pieceAt_computes (l : Lengths) : ComputesPiece l (pieceAt l) := by
  intro position offset current hcurrent
  unfold pieceAt at hcurrent
  split_ifs at hcurrent with hlt
  obtain ⟨p, hp, rfl⟩ := Option.map_eq_some_iff.1 hcurrent
  have hp := l.validatePieceIndex_eq_some.1 hp
  have hpos := l.defaultPieceLength_pos p
  have hdiv := Nat.div_add_mod (offset + position) l.defaultPieceLength
  have hmod := Nat.mod_lt (offset + position) hpos
  rw [hp, Nat.mul_comm] at hdiv
  have hlen := l.pieceLength_eq p p.isLt
  simp only
  generalize (p : ℕ) * l.defaultPieceLength = start at *
  omega

/-- Pieces of four bytes. -/
def elevenBytes : Lengths := Lengths.new 11 (2 ^ 2) (by decide) (by decide) (by decide) (by decide)

/-- The files share the first piece. -/
def elevenFiles : List FileInfo := [⟨0, (0, 1), false, 3⟩, ⟨3, (0, 3), false, 8⟩]

def elevenStorage : Storage where
  contents i := if i = 0 then [1, 2, 3] else [10, 11, 12, 13, 14, 15, 16, 17]
  fails _ _ _ := false

def elevenStream : Handle :=
  TorrentStreams.open ⟨0, fun _ => none⟩ 1 ⟨3, (0, 3), false, 8⟩

/-- After a seek, a read into ten bytes ends with the piece. -/
theorem elevenStream_reads : ∃ h h',
    Run (step (pieceAt elevenBytes)) Any elevenStream [.seek (.current 2)] h ∧
      h.pollRead (pieceAt elevenBytes) 10 (some fun _ => true) (some elevenStorage) =
        some (.ok [12, 13, 14], h') ∧
      Polled elevenBytes h 1 ⟨3, (0, 3), false, 8⟩ 10 (some fun _ => true) (some elevenStorage) h'
        (.ok [12, 13, 14]) := by
  have hlayout : LooseLayout elevenBytes elevenFiles :=
    .of_layout (.of_check (by decide +kernel) (by decide +kernel) (by decide +kernel))
  have hexec : (exec (step (pieceAt elevenBytes)) Any elevenStream [.seek (.current 2)]).any
      (fun h => (h.pollRead (pieceAt elevenBytes) 10 (some fun _ => true)
        (some elevenStorage)).map Prod.fst == some (.ok [12, 13, 14])) = true := by
    decide +kernel
  obtain ⟨h, hrun, hresult⟩ := Run.exists_of_exec hexec
  obtain ⟨-, -, -, hreads⟩ := fileStream_reads elevenBytes (pieceAt elevenBytes) elevenFiles 1 _ _
    (pieceAt_computes elevenBytes) hlayout rfl _ h hrun
  obtain ⟨r, h', hread, hpolled, -⟩ := hreads 10 (some fun _ => true) (some elevenStorage)
  rw [hread] at hresult
  obtain rfl : r = .ok [12, 13, 14] := Option.some.inj (eq_of_beq hresult)
  exact ⟨h, h', hrun, hread, hpolled⟩

end Streaming

end Rtbit
