import Rtbit.Proofs.ChunkCompletion
import Rtbit.Proofs.Selection
import Rtbit.Proofs.Uploads

/-! Nodes that get pieces from each other only. No hash check of any of them fails, whatever is
stolen, written twice, written in part or reserved twice: a byte that is right stays right, and a
chunk whose bit is set has been written. -/

namespace Rtbit

open Lib

/-- `mark_chunk_downloaded` is what a run does to the chunk bits. -/
theorem LiveTracker.markChunk_chunks {l : Lengths} (s : LiveTracker l) (m : PieceMsg) (now : ℕ) :
    (s.markChunk m now).pieces.chunks = ChunkTracker.MarkCall.run s.pieces.chunks (.chunk m) := by
  cases hm : s.pieces.chunks.markChunkDownloaded m with
  | none =>
    simp only [markChunk, PieceTracker.markChunkDownloaded, ChunkTracker.MarkCall.run, hm,
      Option.map_none, Option.getD_none]
  | some x =>
    obtain ⟨r, c⟩ := x
    simp only [markChunk, PieceTracker.markChunkDownloaded, ChunkTracker.MarkCall.run, hm,
      Option.map_some, Option.getD_some]
    cases r with
    | previouslyCompleted => rfl
    | notCompleted => rfl
    | completed =>
      cases l.validatePieceIndex m.index with
      | none => rfl
      | some p => exact PieceTracker.take_chunks _ _ _

/-- `on_piece_completed` leaves the chunk bits alone. -/
theorem PieceTracker.onPieceCompleted_status {l : Lengths} (t : PieceTracker l)
    (fs : List FileInfo) (p : ValidPieceIndex l) :
    (t.onPieceCompleted fs p).chunks.chunkStatus = t.chunks.chunkStatus := by
  simp only [onPieceCompleted]
  generalize filesOnPieceCompleted fs p = xs
  generalize t.chunks = c
  induction xs generalizing c with
  | nil => rfl
  | cons x xs ih => exact ih _

namespace WriteRun

variable {l : Lengths} {fs : List FileInfo} {r : WriteRun l} {t t' : PieceTracker l} {e : RunStep}
  {p : Phase}

theorem Moves.mark_chunks {now : ℕ} (hm : r.Moves fs t (.mark now) t' p) :
    t'.chunks = ChunkTracker.MarkCall.run t.chunks (.chunk r.msg) := by
  cases hm with
  | mark _ _ hmark _ _ _ =>
    have ht := congrArg (fun x => x.pieces.chunks) (hmark (fun _ => 0) fun _ => 0)
    rw [LiveTracker.markChunk_chunks] at ht
    exact ht.symm

/-- A run is `written` after a write that has succeeded. -/
theorem Moves.written (hm : r.Moves fs t e t' p) (hp : p = .written) : e = .write true := by
  cases hm with
  | write ok _ =>
    cases ok with
    | true => rfl
    | false => cases hp
  | mark _ hph => rcases hph with rfl | ⟨b, rfl⟩ <;> cases hp
  | unlock taken _ => cases taken <;> cases hp
  | _ => cases hp

/-- A run comes to its hash check when it has marked the last chunk of the piece. -/
theorem Moves.window (hm : r.Moves fs t e t' p) (hp : p.inWindow = true) :
    r.phase.inWindow = true ∨ ∃ now, e = .mark now ∧
      (t.chunks.markChunkDownloaded r.msg).map Prod.fst = some .completed := by
  cases hm with
  | write ok _ => cases ok <;> cases hp
  | @mark now _ _ _ _ _ _ _ hdone =>
    refine Or.inr ⟨now, rfl, ?_⟩
    rw [← hdone hp, PieceTracker.markChunkDownloaded, Option.map_map]
    rfl
  | unlock taken hph =>
    cases taken with
    | true => exact Or.inl (by rw [hph]; rfl)
    | false => cases hp
  | _ => cases hp

end WriteRun

namespace Writes

variable {l : Lengths} {fs : List FileInfo} {s s' : Writes l}

/-- The chunk bits grow only when a run marks its chunk. -/
theorem step_bits {op : WriteOp l} (h : step fs s op = some s') :
    (∀ k, s'.pieces.chunks.chunkStatus.get k = true → s.pieces.chunks.chunkStatus.get k = true) ∨
      ∃ i r now, op = .run i (.mark now) ∧ s.runs[i]? = some r ∧ r.phase = .written ∧
        s'.pieces.chunks = ChunkTracker.MarkCall.run s.pieces.chunks (.chunk r.msg) := by
  have hbroken (ps : List (ValidPieceIndex l)) (t : ChunkTracker l) (k : ℕ)
      (hk : (ps.foldl ChunkTracker.markPieceBrokenIfNotHave t).chunkStatus.get k = true) :
      t.chunkStatus.get k = true := by
    induction ps generalizing t with
    | nil => exact hk
    | cons p ps ih => exact (ChunkTracker.broken_status p).1 (ih _ hk) |>.1
  cases op with
  | acquire req =>
    injection h with h
    subst h
    left
    have hacq := s.pieces.acquire_cases (s.request req)
    generalize (s.pieces.acquirePiece (s.request req)).2 = t at hacq
    generalize (s.pieces.acquirePiece (s.request req)).1 = res at hacq
    cases hacq <;> exact fun k hk => hk
  | recv peer m =>
    obtain ⟨r, -, -, rfl⟩ := recv_step h
    exact Or.inl fun k hk => hk
  | die a =>
    injection h with h
    subst h
    left
    intro k hk
    simp only [PieceTracker.releasePiecesOwnedBy, PieceTracker.release_chunks] at hk
    exact hbroken _ _ k hk
  | updateOnlyFiles only =>
    injection h with h
    subst h
    exact Or.inl fun k hk => (ChunkTracker.update_status.1 hk).1
  | run i e =>
    obtain ⟨r, t, p, hr, hm, rfl⟩ := run_step h
    have hmark (now : ℕ) (he : e = .mark now) :
        t.chunks = ChunkTracker.MarkCall.run s.pieces.chunks (.chunk r.msg) := (he ▸ hm).mark_chunks
    cases hm with
    | @mark now _ _ hp _ _ _ _ _ => exact Or.inr ⟨i, r, now, rfl, hr, hp, hmark now rfl⟩
    | hashOk _ =>
      left
      intro k hk
      simp only [PieceTracker.markPieceHashOk, ChunkTracker.markPieceDownloaded] at hk
      split_ifs at hk <;> exact hk
    | hashFailed _ => exact Or.inl fun k hk => ((ChunkTracker.broken_status _).1 hk).1
    | completed _ =>
      left
      intro k hk
      rwa [PieceTracker.onPieceCompleted_status] at hk
    | _ => exact Or.inl fun k hk => hk

/-- Where a run stands after a step. -/
theorem step_phase {op : WriteOp l} (h : step fs s op = some s') {j : ℕ} {x : WriteRun l}
    (hx : s'.runs[j]? = some x) : s.runs[j]? = some x ∨ x.phase = .received ∨
      ∃ r e ph, op = .run j e ∧ s.runs[j]? = some r ∧ r.Moves fs s.pieces e s'.pieces ph ∧
        x = { r with phase := ph } := by
  cases op with
  | run i e =>
    obtain ⟨r, t, p, hr, hm, rfl⟩ := run_step h
    rcases get_set hx with ⟨rfl, rfl⟩ | ⟨-, hx'⟩
    · exact Or.inr (Or.inr ⟨r, e, p, rfl, hr, hm, rfl⟩)
    · exact Or.inl hx'
  | recv peer m =>
    obtain ⟨r, -, hp, rfl⟩ := recv_step h
    rcases get_append hx with hx' | ⟨-, rfl⟩
    · exact Or.inl hx'
    · exact Or.inr (Or.inl hp)
  | acquire req => injection h with h; subst h; exact Or.inl hx
  | die a => injection h with h; subst h; exact Or.inl hx
  | updateOnlyFiles only => injection h with h; subst h; exact Or.inl hx

end Writes

namespace ChunkTracker

variable {l : Lengths} {t : ChunkTracker l} {p : ValidPieceIndex l} {m : PieceMsg}

/-- After `Completed` every chunk of the piece is there. -/
theorem run_completed {i : ℕ} (h : l.IsChunk m p i)
    (hm : (t.markChunkDownloaded m).map Prod.fst = some .completed) {j : ℕ}
    (hj : j < l.chunksPerPiece p) : (MarkCall.run t (.chunk m)).chunkBit p j = true := by
  rw [markChunk_eq h] at hm
  rw [MarkCall.run, markChunk_eq h]
  split_ifs at hm ⊢ with h1 h2
  · cases hm
  · exact h2 j hj
  · cases hm

/-- A new tracker has the chunks of the pieces that are have, if no offset overflows. -/
theorem new_bit {h sel : Bits} {fs : List FileInfo} (hc : new h sel fs = .ok t)
    (hfit : ∀ p : ValidPieceIndex l, h.get p = true → p * l.defaultChunksPerPiece < 2 ^ 32) {j : ℕ}
    (hj : j < l.chunksPerPiece p) (hbit : t.chunkBit p j = true) : h.get p = true := by
  obtain ⟨bf, hbf, hbits⟩ := computeChunkHaveStatus_ok (l := l) (h := h)
    (computeChunkHaveStatus_len (new_status hc)).1
  obtain rfl := Except.ok.inj (hbf.symm.trans (new_status hc))
  obtain ⟨q, hq, hin⟩ := (hbits _).1 hbit
  rw [Lengths.inWrapped_of_lt (hfit q hq)] at hin
  obtain ⟨i, hi, he⟩ := Lengths.mem_chunkRange.1 hin
  obtain ⟨rfl, -⟩ := (Lengths.chunkPos_inj hi hj).1 he
  exact hq

end ChunkTracker

namespace DiskWrites

variable {l : Lengths} {fs : List FileInfo} {B H : Type} [DecidableEq H] {ph : PieceHash H}
  {d : DoubleBufHelper B} {s s' : DiskWrites l} {src : Storage}

/-- The data is that of the chunk of the message. -/
def Genuine (l : Lengths) (content : List UInt8) (m : PieceMsg) (x : List UInt8 × List UInt8) :
    Prop :=
  (x.1 ++ x.2).length = m.len ∧ ∀ (p : ValidPieceIndex l) (c : ChunkInfo), m.index = p →
    l.chunkInfoFromReceivedData p m.start m.len = some c →
      x.1 ++ x.2 = (content.drop (l.chunkAbsoluteOffset c)).take c.size

/-- The files hold the bytes of the chunk. -/
def ChunkRight (fs : List FileInfo) (src st : Storage) (l : Lengths) (c : ChunkInfo) : Prop :=
  ∀ k, l.chunkAbsoluteOffset c ≤ k → k < l.chunkAbsoluteOffset c + c.size →
    (flat fs st)[k]? = (flat fs src)[k]?

structure Progress (fs : List FileInfo) (src : Storage) (s : DiskWrites l) : Prop where
  data : s.Carries (Genuine l (flat fs src))
  written : ∀ (i : ℕ) (r : WriteRun l) (c : ChunkInfo), s.writes.runs[i]? = some r →
    r.phase = .written → chunkInfo r = some c → ChunkRight fs src s.storage l c
  bits : ∀ (p : ValidPieceIndex l), ∀ c ∈ l.iterChunkInfos p,
    s.writes.pieces.chunks.chunkBit p c.chunkIndex = true → ChunkRight fs src s.storage l c
  window : ∀ (i : ℕ) (r : WriteRun l), s.writes.runs[i]? = some r → r.phase.inWindow = true →
    pieceBytes fs s.storage r.piece = l.pieceOf (flat fs src) r.piece
  have_ : ∀ p, s.IsHave p → pieceBytes fs s.storage p = l.pieceOf (flat fs src) p

/-- The chunk of a message is that of the run. -/
theorem Genuine.chunk {content : List UInt8} {r : WriteRun l} {x : List UInt8 × List UInt8}
    (h : Genuine l content r.msg x) {c : ChunkInfo} (hc : chunkInfo r = some c) :
    x.1 ++ x.2 = (content.drop (l.chunkAbsoluteOffset c)).take c.size :=
  h.2 r.piece c ((l.validatePieceIndex_eq_some).1 r.piece_eq) hc

/-- A byte that is right stays right. -/
theorem Progress.keeps (hl : l.Tiled) (hsum : (fs.map FileInfo.len).sum = l.totalLength)
    {op : DiskOp l} (h : s.Progress fs src) (hs : DiskWrites.step fs ph d s op = some s') {k : ℕ}
    (hk : (flat fs s.storage)[k]? = (flat fs src)[k]?) :
    (flat fs s'.storage)[k]? = (flat fs src)[k]? := by
  have hlen : s.Carries fun m x => (x.1 ++ x.2).length = m.len := h.data.imp fun _ _ hg => hg.1
  rcases step_flat hl hsum hlen hs k with hsame | ⟨i, r, x, c, hr, -, hx, hc, ⟨h1, h2⟩, hnew⟩
  · rw [hsame, hk]
  · rw [hnew, (h.data.get hr hx).chunk hc, List.getElem?_take_of_lt (by omega), List.getElem?_drop,
      Nat.add_sub_cancel' h1]

theorem Progress.keeps_piece (hl : l.Tiled) (hsum : (fs.map FileInfo.len).sum = l.totalLength)
    {op : DiskOp l} (h : s.Progress fs src) (hs : DiskWrites.step fs ph d s op = some s')
    {p : ValidPieceIndex l} (hp : pieceBytes fs s.storage p = l.pieceOf (flat fs src) p) :
    pieceBytes fs s'.storage p = l.pieceOf (flat fs src) p :=
  pieceBytes_eq_iff.2 fun k h1 h2 => h.keeps hl hsum hs (pieceBytes_eq_iff.1 hp k h1 h2)

/-- A chunk whose write has succeeded is there. -/
theorem written_right (hl : l.Tiled) (hsum : (fs.map FileInfo.len).sum = l.totalLength)
    {rejects : ℕ → ℕ → ℕ → Bool} {st st' : Storage} {r : WriteRun l} {c : ChunkInfo}
    {x : List UInt8 × List UInt8} (hx : Genuine l (flat fs src) r.msg x)
    (hc : chunkInfo r = some c)
    (hw : ChunkOps.writeChunk rejects d l fs st c x = .ok st') : ChunkRight fs src st' l c := by
  obtain ⟨hvalid, -, hsize, -⟩ := chunk_of_run hl hc
  have hend := ChunkOps.chunk_end_le hvalid
  intro k h1 h2
  cases hp : paddingAt fs k with
  | true => exact ChunkOps.flat_padding st' src hp
  | false =>
    have hin := ChunkOps.writeChunkLoop_written hw
    rw [d.bytes_new] at hin
    rw [flat, hin.inside k h1 (by rw [hx.1, ← hsize]; exact h2) (by omega) hp, hx.chunk hc,
      List.getElem?_take_of_lt (by omega), List.getElem?_drop, Nat.add_sub_cancel' h1]

/-- A piece all of whose chunks are there. -/
theorem piece_right (hl : l.Tiled) {st : Storage} {p : ValidPieceIndex l}
    (h : ∀ c ∈ l.iterChunkInfos p, ChunkRight fs src st l c) :
    pieceBytes fs st p = l.pieceOf (flat fs src) p := by
  refine pieceBytes_eq_iff.2 fun k h1 h2 => ?_
  obtain ⟨c, hc, h3, h4⟩ := hl.covers p p.isLt (k - p * l.defaultPieceLength) (by omega)
  have hpiece := l.pieceIndex_iter p p.isLt c hc
  refine h c hc k ?_ ?_ <;> (unfold Lengths.chunkAbsoluteOffset; rw [hpiece]; omega)

/-- The hash check of a piece that is right. -/
theorem checkPiece_of_right (hh : ph.HashesOf l (flat fs src)) {st : Storage}
    {p : ValidPieceIndex l} (hp : pieceBytes fs st p = l.pieceOf (flat fs src) p) :
    FileOps.checkPiece l fs st ph p ≠ .ok false ∧
      (FileOps.NoReadFails fs st → FileOps.checkPiece l fs st ph p = .ok true) := by
  obtain ⟨hsome, hread⟩ := ChunkOps.checkPiece_hashes fs st ph p
  have hcomp : ph.compareHash p (pieceBytes fs st p) = some true := by
    rw [PieceHash.compareHash, hh.expected _ p.isLt, hp]
    simp
  unfold pieceBytes at hcomp
  constructor
  · intro hbad
    rw [hsome false hbad] at hcomp
    cases hcomp
  · intro hno
    rw [hread hno, hcomp]
    rfl

/-- A chunk of a piece is told by its number. -/
theorem chunk_unique {p : ValidPieceIndex l} {c c' : ChunkInfo} (hc : c ∈ l.iterChunkInfos p)
    (hc' : c' ∈ l.iterChunkInfos p) (he : c.chunkIndex = c'.chunkIndex) : c = c' := by
  have hnodup : ((l.iterChunkInfos p).map ChunkInfo.chunkIndex).Nodup := by
    rw [l.chunkIndex_iter p p.isLt]
    exact List.nodup_range
  exact List.inj_on_of_nodup_map hnodup hc hc' he

theorem chunkIndex_lt {p : ValidPieceIndex l} {c : ChunkInfo} (hc : c ∈ l.iterChunkInfos p) :
    c.chunkIndex < l.chunksPerPiece p := by
  have hmem := List.mem_map_of_mem (f := ChunkInfo.chunkIndex) hc
  rw [l.chunkIndex_iter p p.isLt] at hmem
  exact List.mem_range.1 hmem

/-- The chunk a run marks is that of its message. -/
theorem chunkInfo_of_isChunk {r : WriteRun l} {q : ValidPieceIndex l} {i : ℕ}
    (h : l.IsChunk r.msg q i) :
    q = r.piece ∧ ∃ c ∈ l.iterChunkInfos q, c.chunkIndex = i ∧ chunkInfo r = some c := by
  obtain rfl : q = r.piece := by
    have hp := (l.validatePieceIndex_eq_some).1 r.piece_eq
    exact Fin.ext (h.index_eq.symm.trans hp)
  obtain ⟨c, hc, hi, hoff, hlen⟩ := h.mem
  exact ⟨rfl, c, hc, hi, (l.received_iff _ r.piece.isLt _ _ c).2 ⟨hc, hoff, hlen⟩⟩

/-- The bits after a step: each belongs to a chunk that was there, or has just been marked after
its write. -/
theorem Progress.step_bits {op : WriteOp l} {w : Writes l} (h : s.Progress fs src)
    (hw : s.writes.step fs op = some w) (p : ValidPieceIndex l) {c : ChunkInfo}
    (hc : c ∈ l.iterChunkInfos p) (hbit : w.pieces.chunks.chunkBit p c.chunkIndex = true) :
    ChunkRight fs src s.storage l c := by
  rcases Writes.step_bits hw with hfewer | ⟨i, r, now, -, hr, hph, hrun⟩
  · exact h.bits p c hc (hfewer _ hbit)
  · rw [hrun] at hbit
    by_cases hchunk : ∃ q j, l.IsChunk r.msg q j
    · obtain ⟨q, j, hchunk⟩ := hchunk
      rw [ChunkTracker.run_chunk_bit hchunk (chunkIndex_lt hc)] at hbit
      split_ifs at hbit with hnew
      · obtain ⟨rfl, rfl⟩ := hnew
        obtain ⟨-, c', hc', hi, hinfo⟩ := chunkInfo_of_isChunk hchunk
        obtain rfl := chunk_unique hc' hc hi
        exact h.written i r c' hr hph hinfo
      · exact h.bits p c hc hbit
    · rw [ChunkTracker.run_eq_self (ChunkTracker.markChunk_eq_none_iff.2 hchunk)] at hbit
      exact h.bits p c hc hbit

theorem Progress.step (hl : l.Tiled) (hsum : (fs.map FileInfo.len).sum = l.totalLength)
    (hh : ph.HashesOf l (flat fs src)) {op : DiskOp l} (h : s.Progress fs src)
    (hs : DiskWrites.step fs ph d s op = some s')
    (hrecv : ∀ peer m data, op = .recv peer m data → Genuine l (flat fs src) m data) :
    s'.Progress fs src := by
  have hkeep {c : ChunkInfo} (hc : ChunkRight fs src s.storage l c) :
      ChunkRight fs src s'.storage l c := fun k h1 h2 => h.keeps hl hsum hs (hc k h1 h2)
  have hbits (p : ValidPieceIndex l) (c : ChunkInfo) (hc : c ∈ l.iterChunkInfos p)
      (hbit : s'.writes.pieces.chunks.chunkBit p c.chunkIndex = true) :
      ChunkRight fs src s'.storage l c := by
    rcases step_writes hs with hw | ⟨wop, -, hw⟩
    · exact hkeep (h.bits p c hc (hw ▸ hbit))
    · exact hkeep (h.step_bits hw p hc hbit)
  constructor
  case data => exact h.data.step hs fun peer m data hop _ => hrecv peer m data hop
  case bits => exact hbits
  case written =>
    intro i r c hr hph hc
    rcases step_writes hs with hw | ⟨wop, has, hw⟩
    · exact hkeep (h.written i r c (hw ▸ hr) hph hc)
    · rcases Writes.step_phase hw hr with hold | hrec | ⟨r₀, e, p, rfl, hr₀, hm, rfl⟩
      · exact hkeep (h.written i r c hold hph hc)
      · rw [hrec] at hph
        cases hph
      · obtain rfl := hm.written hph
        generalize hwop : WriteOp.run i (.write true) = wop at has
        cases has with
        | write rejects hr' hdata hc' =>
          simp only [WriteOp.run.injEq, RunStep.write.injEq] at hwop
          obtain ⟨rfl, hok⟩ := hwop
          obtain ⟨r₁, x, c₁, w, hr₁, hx, hc₁, -, rfl⟩ := write_step hs
          obtain rfl := Option.some.inj (hr₀.symm.trans hr₁)
          obtain rfl := Option.some.inj (hr₀.symm.trans hr')
          obtain rfl := Option.some.inj (hx.symm.trans hdata)
          obtain rfl := Option.some.inj (hc₁.symm.trans hc')
          obtain rfl := Option.some.inj (hc₁.symm.trans hc)
          cases hres : ChunkOps.writeChunk rejects d l fs s.storage c₁ x with
          | error e => simp [hres, Except.toBool] at hok
          | ok st' => exact written_right hl hsum (h.data.get hr₀ hx) hc₁ hres
        | tracker hop =>
          subst hwop
          cases hop
        | _ => cases hwop
  case window =>
    intro i r hr hwin
    rcases step_writes hs with hw | ⟨wop, has, hw⟩
    · exact h.keeps_piece hl hsum hs (h.window i r (hw ▸ hr) hwin)
    · rcases Writes.step_phase hw hr with hold | hrec | ⟨r₀, e, p, rfl, hr₀, hm, rfl⟩
      · exact h.keeps_piece hl hsum hs (h.window i r hold hwin)
      · rw [hrec] at hwin
        cases hwin
      · rcases hm.window hwin with hold | ⟨now, rfl, hdone⟩
        · exact h.keeps_piece hl hsum hs (h.window i r₀ hr₀ hold)
        · -- every chunk bit of the piece is set
          obtain ⟨q, j, hchunk⟩ : ∃ q j, l.IsChunk r₀.msg q j := by
            by_contra hno
            rw [ChunkTracker.markChunk_eq_none_iff.2 hno] at hdone
            cases hdone
          obtain ⟨rfl, -⟩ := chunkInfo_of_isChunk hchunk
          refine piece_right hl fun c hc => hbits _ c hc ?_
          rw [hm.mark_chunks]
          exact ChunkTracker.run_completed hchunk hdone (chunkIndex_lt hc)
  case have_ =>
    intro p hp
    rcases step_isHave hs hp with hold | ⟨hst, hcheck⟩
    · exact h.keeps_piece hl hsum hs (h.have_ p hold)
    · rw [hst]
      exact pieceBytes_of_check hh hcheck

theorem start_progress (hl : l.Tiled) {h sel : Bits} {c : ChunkTracker l} {st : Storage}
    (hh : ph.HashesOf l (flat fs src)) (hc : ChunkTracker.new h sel fs = .ok c)
    (h0 : ∀ p : ValidPieceIndex l, h.get p = true → FileOps.checkPiece l fs st ph p = .ok true)
    (hfit : ∀ p : ValidPieceIndex l, h.get p = true → p * l.defaultChunksPerPiece < 2 ^ 32) :
    (start c st).Progress fs src := by
  have hright (p : ValidPieceIndex l) (hp : h.get p = true) :
      pieceBytes fs st p = l.pieceOf (flat fs src) p := pieceBytes_of_check hh (h0 p hp)
  constructor
  case data => exact start_carries _ _ _
  case written => exact fun i r c hr => by simp [start, Writes.start] at hr
  case window => exact fun i r hr => by simp [start, Writes.start] at hr
  case have_ =>
    intro p hp
    obtain ⟨-, hhave, -⟩ := ChunkTracker.new_ok hc
    refine hright p ?_
    rw [← hhave]
    exact hp
  case bits =>
    intro p k hk hbit j h1 h2
    have hp := ChunkTracker.new_bit hc hfit (chunkIndex_lt hk) hbit
    have hpiece := l.pieceIndex_iter p p.isLt k hk
    obtain ⟨h3, h4⟩ := l.chunk_in_piece (hl.valid p p.isLt k hk) h1 h2
    rw [hpiece] at h3 h4
    exact pieceBytes_eq_iff.1 (hright p hp) j h3 h4

end DiskWrites

namespace Exchange

variable {N : Type} {l : Lengths} {fs : List FileInfo} {B H : Type} [DecidableEq H]
  {ph : PieceHash H} {d : DoubleBufHelper B} {f : ChunkOps.PieceFormat} {s s' : Exchange N l}
  {src : Storage}

/-- No message comes from outside. -/
def Closed (_ : Exchange N l) : ExchangeOp N l → Prop
  | .receive _ _ _ _ => False
  | _ => True

instance (s : Exchange N l) : (op : ExchangeOp N l) → Decidable (Closed s op)
  | .receive _ _ _ _ => isFalse id
  | .onDownloadRequest _ _ | .readChunkRequest _ _ | .deliver _ _ _ _ | .node _ _ => isTrue trivial

/-- Wherever the read buffer cuts a genuine message. -/
theorem IsGenuine.cut {content : List UInt8} (hlen : content.length = l.totalLength) {m : PieceMsg}
    {b : List UInt8} (h : IsGenuine l content (m, b)) (cut : ℕ) :
    DiskWrites.Genuine l content m (b.take cut, b.drop cut) := by
  obtain ⟨c, hc, rfl, rfl⟩ := h
  have hend := ChunkOps.chunk_end_le hc
  refine ⟨?_, ?_⟩
  · simp only [List.take_append_drop, List.length_take, List.length_drop]
    omega
  · intro p c' hp hc'
    obtain ⟨hmem, hoff, hsize⟩ := (l.received_iff p p.isLt _ _ c').1 hc'
    have hpiece := l.pieceIndex_iter p p.isLt c' hmem
    simp only [List.take_append_drop, Lengths.chunkAbsoluteOffset, hpiece, hoff, hsize, ← hp]

variable [DecidableEq N]

structure Sound (fs : List FileInfo) (src : Storage) (s : Exchange N l) : Prop where
  nodes : ∀ i, (s.nodes i).Progress fs src
  uploads : s.UploadsHave
  sent : ∀ x ∈ s.sent, IsGenuine l (flat fs src) x

theorem Sound.step (hl : l.Tiled) (hsum : (fs.map FileInfo.len).sum = l.totalLength)
    (hh : ph.HashesOf l (flat fs src)) {op : ExchangeOp N l} (h : s.Sound fs src)
    (hok : Closed s op) (hs : Exchange.step fs ph d f s op = some s') : s'.Sound fs src := by
  have hsteps := step_cases hs
  have huploads : s'.UploadsHave := h.uploads.step hl (isHave_mono hsteps) hsteps
  cases hsteps with
  | accepts hc hp => exact ⟨h.nodes, huploads, h.sent⟩
  | fails k writeBuf => exact ⟨h.nodes, huploads, h.sent⟩
  | @sends k writeBuf i c b hk hbuf hb =>
    refine ⟨h.nodes, huploads, ?_⟩
    intro x hx
    rcases List.mem_append.1 hx with hx | hx
    · exact h.sent x hx
    · obtain rfl := List.mem_singleton.1 hx
      obtain ⟨hc, hp⟩ := h.uploads _ (List.mem_of_getElem? hk)
      have hgenuine := (h.nodes i).have_ _ hp
      exact sends_genuine hsum hc (DiskWrites.pieceBytes_eq_iff.1 hgenuine) hbuf hb
  | @node _ i dop n hd hn =>
    refine ⟨setNode_nodes h.nodes ((h.nodes i).step hl hsum hh hn ?_), huploads, h.sent⟩
    rintro peer m data rfl
    cases hd with
    | deliver _ _ cut hk => exact (h.sent _ (List.mem_of_getElem? hk)).cut hh.length cut
    | receive => exact absurd hok id
    | node _ hop => cases hop

/-- The seeder sends the second piece. Its first write fails half-way and the peer dies; the message
is repeated, and comes to its hash check. -/
def transferred : List (ExchangeOp Bool FileOps.tenBytes) :=
  [.onDownloadRequest true ⟨1, 0, 4⟩, .readChunkRequest 0 ChunkOps.messageBuffer,
    .node false (.tracker (.updateOnlyFiles {3})),
    .node false (.tracker (.acquire { requestFor _ FileOps.tenByteFiles peerA with
      peerHasPiece := fun p => decide (p = ⟨1, by decide⟩) })),
    .deliver 0 false peerA 1, .node false (.tracker (.run 0 .check)),
    .node false (.write 0 fun _ off _ => off == 1), .node false (.tracker (.die peerA)),
    .node false (.tracker (.acquire { requestFor _ FileOps.tenByteFiles peerB with
      peerHasPiece := fun p => decide (p = ⟨1, by decide⟩) })),
    .deliver 0 false peerB 2, .node false (.tracker (.run 1 .check)),
    .node false (.write 1 fun _ _ _ => false), .node false (.tracker (.run 1 (.mark 1))),
    .node false (.tracker (.run 1 .unlock))]

end Exchange

end Rtbit
