import Rtbit.Sanity.Torrent

/-! No selected piece that is missing is lost: it is queued, in flight, or held by a
`write_to_disk` run. Two exits from the hash check do not put the piece back: an
I/O error of `check_piece`, and `pause` while the check is running. -/

namespace Rtbit

open Lib

namespace PieceView

/-- Selected, missing, and neither queued nor in flight. -/
def OnlyHeld (v : PieceView) : Prop :=
  v.selected = true ∧ v.have_ = false ∧ v.queued = false ∧ v.owner = none

instance (v : PieceView) : Decidable v.OnlyHeld := inferInstanceAs (Decidable (_ ∧ _))

def Kept (v : PieceView) : Prop := v.OnlyHeld → 0 < v.hashing

/-- The operation does not end the last run that holds the piece without putting it back. -/
def PutsBack (v : PieceView) : PieceOp → Prop
  | .check .ioError => v.OnlyHeld → v.hashing ≠ 1
  | .pause => ¬v.OnlyHeld
  | _ => True

theorem Kept.apply {v : PieceView} (h : v.Kept) {op : PieceOp} (hp : v.PutsBack op) :
    (v.apply op).Kept := by
  rintro ⟨hs, hh, hq, ho⟩
  cases op with
  | stay => exact h ⟨hs, hh, hq, ho⟩
  | reserve a priority => cases ho
  | steal a => cases ho
  | take => exact Nat.succ_pos _
  | check r =>
    cases r with
    | ok => cases hh
    | failed =>
      have hh : v.have_ = false := hh
      simp [PieceView.apply, hh] at hq
    | ioError =>
      have hlast : v.hashing ≠ 1 := hp ⟨hs, hh, hq, ho⟩
      have hpos : 0 < v.hashing := h ⟨hs, hh, hq, ho⟩
      change 0 < v.hashing - 1
      omega
  | completed => exact h ⟨hs, hh, hq, ho⟩
  | release =>
    have hh : v.have_ = false := hh
    simp [PieceView.apply, hh] at hq
  | select sel =>
    have hs : sel = true := hs
    have hh : v.have_ = false := hh
    -- a piece that was not selected before is queued now
    have hboth : v.queued = false ∧ v.selected = true := by
      simpa [PieceView.apply, hs, hh] using hq
    exact h ⟨hboth.2, hh, hboth.1, ho⟩
  | pause =>
    have hh : v.have_ = false := hh
    have hboth : v.queued = false ∧ v.owner = none := by
      simpa [PieceView.apply, hh] using hq
    exact absurd ⟨hs, hh, hboth.1, hboth.2⟩ hp

end PieceView

namespace Torrent

variable {l : Lengths} {fs : List FileInfo}

/-- No I/O error ends the last run that holds a missing piece, and no pause comes while
only a run holds one. -/
def PutsBack : Torrent l → TorrentOp l → Prop
  | s, .checkPiece p .ioError => (s.piece p).OnlyHeld → s.hashing p ≠ 1
  | s, .pause => ∀ p, ¬(s.piece p).OnlyHeld
  | _, _ => True

instance : (s : Torrent l) → (op : TorrentOp l) → Decidable (PutsBack s op)
  | s, .checkPiece p .ioError =>
    inferInstanceAs (Decidable ((s.piece p).OnlyHeld → s.hashing p ≠ 1))
  | s, .pause => inferInstanceAs (Decidable (∀ p, ¬(s.piece p).OnlyHeld))
  | _, .checkPiece _ .ok | _, .checkPiece _ .failed | _, .acquire _ | _, .markChunk _ _
  | _, .onPieceCompleted _ | _, .release _ | _, .updateOnlyFiles _ | _, .resume => isTrue trivial

theorem PutsBack.piece {s : Torrent l} {op : TorrentOp l} (h : PutsBack s op)
    {p : ValidPieceIndex l} {pop : PieceOp} (hi : Induces fs s op p pop) :
    (s.piece p).PutsBack pop := by
  cases hi with
  | check _ r =>
    cases r with
    | ioError => exact h
    | ok => trivial
    | failed => trivial
  | pause => exact h p
  | _ => trivial

theorem start_kept {h sel : Bits} {c : ChunkTracker l} (hc : ChunkTracker.new h sel fs = .ok c)
    (p : ValidPieceIndex l) : ((start c).piece p).Kept := by
  obtain ⟨hq, -⟩ := start_piece hc p
  rintro ⟨hs, hh, hnq, -⟩
  simp [hs, hh, hnq] at hq

/-- Along every run whose hash checks all put their piece back, a selected missing piece is
queued, in flight or held by a run; in a paused torrent it is queued. -/
theorem putsBack_no_lost_piece (l : Lengths) (fs : List FileInfo) (h sel : Bits)
    (c : ChunkTracker l) (hc : ChunkTracker.new h sel fs = .ok c) (ops : List (TorrentOp l))
    (t : Torrent l) (hr : Run (step fs) PutsBack (start c) ops t) (p : ValidPieceIndex l)
    (hs : t.chunks.selected.get p = true) (hh : t.chunks.havePieces.get p = false) :
    (t.chunks.queuePieces.get p = true ∨ t.owner p ≠ none ∨ 0 < t.hashing p) ∧
      ∀ c', t = .paused c' → c'.queuePieces.get p = true := by
  have hkept : (t.piece p).Kept := by
    refine hr.inv (fun t => (t.piece p).Kept) (start_kept hc p) ?_
    intro s op s' hk hok hstep
    obtain ⟨pop, hi, -, ha⟩ := step_piece hstep p
    rw [ha]
    exact hk.apply (hok.piece hi)
  have hcases : t.chunks.queuePieces.get p = true ∨ t.owner p ≠ none ∨ 0 < t.hashing p := by
    by_cases hq : t.chunks.queuePieces.get p = true
    · exact Or.inl hq
    have hnq : t.chunks.queuePieces.get p = false := by simpa using hq
    by_cases ho : t.owner p = none
    · exact Or.inr (Or.inr (hkept ⟨hs, hh, hnq, ho⟩))
    · exact Or.inr (Or.inl ho)
  refine ⟨hcases, ?_⟩
  rintro c' rfl
  rcases hcases with hq | ho | hw
  · exact hq
  · exact absurd rfl ho
  · exact absurd hw (lt_irrefl 0)

/-- A download that fails its hash check, and a pause with the piece in flight again. -/
def failThenPause : List (TorrentOp twoPieces) :=
  [.acquire (plainRequest peerA), .markChunk ⟨0, 0, 16384⟩ 1, .checkPiece firstPiece .failed,
    .acquire (plainRequest peerB), .pause]

theorem failThenPause_no_lost_piece : ∃ c t,
    ChunkTracker.new (l := twoPieces) (somePieces 0 0) (somePieces 0 1) twoFiles = .ok c ∧
      Run (step twoFiles) PutsBack (start c) failThenPause t ∧
      t.chunks.selected.get firstPiece = true ∧ t.chunks.havePieces.get firstPiece = false ∧
      (t.chunks.queuePieces.get firstPiece = true ∨ t.owner firstPiece ≠ none ∨
        0 < t.hashing firstPiece) := by
  have hrun : ∃ c t,
      ChunkTracker.new (l := twoPieces) (somePieces 0 0) (somePieces 0 1) twoFiles = .ok c ∧
        Run (step twoFiles) PutsBack (start c) failThenPause t ∧
        (t.chunks.selected.get firstPiece && !t.chunks.havePieces.get firstPiece) = true :=
    exists_run (by decide +kernel)
  obtain ⟨c, t, hc, hr, hq⟩ := hrun
  obtain ⟨hs, hh⟩ : t.chunks.selected.get firstPiece = true ∧
      t.chunks.havePieces.get firstPiece = false := by simpa using hq
  exact ⟨c, t, hc, hr, hs, hh, (putsBack_no_lost_piece _ _ _ _ _ hc _ _ hr _ hs hh).1⟩

/-- `check_piece` fails with an I/O error. -/
def ioErrorInWindow : List (TorrentOp twoPieces) :=
  [.acquire (plainRequest peerA), .markChunk ⟨0, 0, 16384⟩ 1, .checkPiece firstPiece .ioError]

/-- `pause` comes while `check_piece` runs. -/
def pauseInWindow : List (TorrentOp twoPieces) :=
  [.acquire (plainRequest peerA), .markChunk ⟨0, 0, 16384⟩ 1, .pause]

/-- Selected, missing, and in none of the places it could be taken from again. -/
def lost (t : Torrent twoPieces) : Bool :=
  decide (t.piece firstPiece).OnlyHeld && decide (t.hashing firstPiece = 0)

theorem ioError_and_pause_lose_piece :
    (∃ c t, ChunkTracker.new (l := twoPieces) (somePieces 0 0) (somePieces 0 1) twoFiles = .ok c ∧
      Run (step twoFiles) Any (start c) ioErrorInWindow t ∧ lost t = true) ∧
    ∃ c t, ChunkTracker.new (l := twoPieces) (somePieces 0 0) (somePieces 0 1) twoFiles = .ok c ∧
      Run (step twoFiles) Any (start c) pauseInWindow t ∧ lost t = true :=
  ⟨exists_run (by decide +kernel), exists_run (by decide +kernel)⟩

end Torrent

end Rtbit
