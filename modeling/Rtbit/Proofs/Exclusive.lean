import Rtbit.Sanity.Torrent

/-! A piece is in at most one of the sets have, in flight and queued. Two steps can
break this: a selection change that puts back into the queue a piece that is in
flight or at its hash check, and a stream that reserves a piece at its hash check. -/

namespace Rtbit

open Lib

namespace PieceView

structure Exclusive (v : PieceView) : Prop where
  have_queued : v.have_ = true → v.queued = false
  have_owner : v.have_ = true → v.owner = none
  queued_owner : v.queued = true → v.owner = none

/-- `Exclusive`, and a piece at its hash check is held by one run and is in none of the sets. -/
structure Held (v : PieceView) : Prop extends Exclusive v where
  window : 0 < v.hashing → v.hashing = 1 ∧ v.have_ = false ∧ v.queued = false ∧ v.owner = none

/-- The operation does not reserve for a stream, and does not put back into the queue,
a piece that somebody holds. -/
def Unheld (v : PieceView) : PieceOp → Prop
  | .reserve _ true => v.hashing = 0
  | .select true => v.selected = false → v.have_ = false → v.owner = none ∧ v.hashing = 0
  | _ => True

variable {v : PieceView}

theorem Held.not_window (h : v.Held) (ho : v.owner ≠ none) : v.hashing = 0 := by
  by_contra hw
  exact ho (h.window (Nat.pos_of_ne_zero hw)).2.2.2

theorem Held.reserve (h : v.Held) {a : PeerHandle} {priority : Bool}
    (he : v.Enabled (.reserve a priority)) (hu : v.Unheld (.reserve a priority)) :
    (v.apply (.reserve a priority)).Held := by
  have hfree : v.have_ = false ∧ v.hashing = 0 := by
    cases priority with
    | true => exact ⟨he.1, hu⟩
    | false =>
      have hq : v.queued = true := he
      refine ⟨?_, ?_⟩
      · by_contra hh
        simpa [hq] using h.have_queued (by simpa using hh)
      · by_contra hw
        simpa [hq] using (h.window (Nat.pos_of_ne_zero hw)).2.2.1
  exact ⟨⟨by simp [apply], by simp [apply, hfree.1], by simp [apply]⟩, by simp [apply, hfree.2]⟩

theorem Held.check (h : v.Held) {r : CheckResult} (he : v.Enabled (.check r)) :
    (v.apply (.check r)).Held := by
  obtain ⟨h1, hh, hq, ho⟩ := h.window he
  cases r <;>
    exact ⟨⟨by simp [apply, hh, hq], by simp [apply, ho], by simp [apply, ho]⟩,
      by simp [apply, h1]⟩

theorem Held.select (h : v.Held) {sel : Bool} (hu : v.Unheld (.select sel)) :
    (v.apply (.select sel)).Held := by
  obtain ⟨⟨h1, h2, h3⟩, h4⟩ := h
  cases sel with
  | false =>
    refine ⟨⟨?_, h2, ?_⟩, ?_⟩
    · intro hh
      simp [apply, h1 hh]
    · simpa [apply] using fun hq _ => h3 hq
    · intro hw
      obtain ⟨w1, w2, w3, w4⟩ := h4 hw
      exact ⟨w1, w2, by simp [apply, w2], w4⟩
  | true =>
    by_cases hnew : v.selected = false ∧ v.have_ = false
    · obtain ⟨ho, hz⟩ := hu hnew.1 hnew.2
      exact ⟨⟨by simp [apply, hnew.2], fun _ => ho, fun _ => ho⟩, by simp [apply, hz]⟩
    · -- nothing is requeued: the queue keeps its value
      have hkeep : (v.apply (.select true)).queued = v.queued := by
        cases hs : v.selected <;> cases hh : v.have_ <;> simp_all [apply]
      exact ⟨⟨by rw [hkeep]; exact h1, h2, by rw [hkeep]; exact h3⟩, by rw [hkeep]; exact h4⟩

theorem Held.apply (h : v.Held) {op : PieceOp} (he : v.Enabled op) (hu : v.Unheld op) :
    (v.apply op).Held := by
  cases op with
  | stay => exact h
  | reserve a priority => exact h.reserve he hu
  | steal a =>
    obtain ⟨b, hb, -⟩ := he
    have ho : v.owner ≠ none := by simp [hb]
    exact ⟨⟨h.have_queued, fun hh => absurd (h.have_owner hh) ho,
      fun hq => absurd (h.queued_owner hq) ho⟩, by simp [PieceView.apply, h.not_window ho]⟩
  | take =>
    have hh : v.have_ = false := by
      by_contra hh
      exact he (h.have_owner (by simpa using hh))
    have hq : v.queued = false := by
      by_contra hq
      exact he (h.queued_owner (by simpa using hq))
    exact ⟨⟨by simp [PieceView.apply, hh], by simp [PieceView.apply], by simp [PieceView.apply]⟩,
      by simp [PieceView.apply, h.not_window he, hh, hq]⟩
  | check r => exact h.check he
  | completed => exact ⟨⟨h.have_queued, h.have_owner, h.queued_owner⟩, h.window⟩
  | release =>
    refine ⟨⟨fun hh => ?_, by simp [PieceView.apply], by simp [PieceView.apply]⟩,
      by simp [PieceView.apply, h.not_window he]⟩
    have hh : v.have_ = true := hh
    simp [PieceView.apply, hh, h.have_queued hh]
  | select sel => exact h.select hu
  | pause =>
    refine ⟨⟨fun hh => ?_, by simp [PieceView.apply], by simp [PieceView.apply]⟩,
      by simp [PieceView.apply]⟩
    have hh : v.have_ = true := hh
    simp [PieceView.apply, hh, h.have_queued hh]

end PieceView

namespace Torrent

variable {l : Lengths} {fs : List FileInfo}

/-- The step does not reserve for a stream a piece at its hash check, and does not select
again a missing piece that is in flight or at its hash check. -/
def Careful (fs : List FileInfo) : Torrent l → TorrentOp l → Prop
  | .live s, .acquire req =>
    s.pieces.trySteal req 10 = none → ∀ p, s.pieces.priorityPick req = some p → s.hashing p = 0
  | .live s, .updateOnlyFiles only => ∀ p : ValidPieceIndex l,
    (ChunkTracker.selection l fs only).get p = true → s.pieces.chunks.selected.get p = false →
      s.pieces.chunks.havePieces.get p = false → s.pieces.owner p = none ∧ s.hashing p = 0
  | _, _ => True

instance : (s : Torrent l) → (op : TorrentOp l) → Decidable (Careful fs s op)
  | .live s, .acquire req => inferInstanceAs (Decidable
      (s.pieces.trySteal req 10 = none → ∀ p, s.pieces.priorityPick req = some p → s.hashing p = 0))
  | .live s, .updateOnlyFiles only => inferInstanceAs (Decidable (∀ p : ValidPieceIndex l,
      (ChunkTracker.selection l fs only).get p = true → s.pieces.chunks.selected.get p = false →
        s.pieces.chunks.havePieces.get p = false → s.pieces.owner p = none ∧ s.hashing p = 0))
  | .live _, .markChunk _ _ | .live _, .checkPiece _ _ | .live _, .onPieceCompleted _
  | .live _, .release _ | .live _, .pause | .live _, .resume | .paused _, _ => isTrue trivial

theorem Careful.unheld {s : Torrent l} {op : TorrentOp l} (h : Careful fs s op)
    {p : ValidPieceIndex l} {pop : PieceOp} (hi : Induces fs s op p pop) :
    (s.piece p).Unheld pop := by
  cases hi with
  | priority hs h10 hp =>
    subst hs
    exact h h10 p hp
  | select only =>
    cases hsel : (ChunkTracker.selection l fs only).get p with
    | false => trivial
    | true =>
      cases s with
      | live s => exact h p hsel
      | paused c => exact fun _ _ => ⟨rfl, rfl⟩
  | _ => trivial

theorem start_held {h sel : Bits} {c : ChunkTracker l} (hc : ChunkTracker.new h sel fs = .ok c)
    (p : ValidPieceIndex l) : ((start c).piece p).Held := by
  obtain ⟨hq, ho, hh, -⟩ := start_piece hc p
  refine ⟨⟨?_, fun _ => ho, fun _ => ho⟩, by simp [hh]⟩
  intro hhave
  rw [hq, hhave]
  simp

theorem step_held {s s' : Torrent l} {op : TorrentOp l} (hs : ∀ p, (s.piece p).Held)
    (hok : Careful fs s op) (h : step fs s op = some s') (p : ValidPieceIndex l) :
    (s'.piece p).Held := by
  obtain ⟨pop, hi, he, ha⟩ := step_piece h p
  rw [ha]
  exact (hs p).apply he (hok.unheld hi)

theorem run_held {h sel : Bits} {c : ChunkTracker l} (hc : ChunkTracker.new h sel fs = .ok c)
    {ops : List (TorrentOp l)} {t : Torrent l} (hr : Run (step fs) (Careful fs) (start c) ops t) :
    ∀ p, (t.piece p).Held :=
  hr.inv (fun t => ∀ p, (t.piece p).Held) (start_held hc) fun _ _ _ hs hok h => step_held hs hok h

/-- Along every careful run no piece is in two of the sets have, in flight and queued. -/
theorem careful_exclusive (l : Lengths) (fs : List FileInfo) (h sel : Bits) (c : ChunkTracker l)
    (hc : ChunkTracker.new h sel fs = .ok c) (ops : List (TorrentOp l)) (t : Torrent l)
    (hr : Run (step fs) (Careful fs) (start c) ops t) (p : ValidPieceIndex l) :
    ¬(t.chunks.havePieces.get p = true ∧ t.owner p ≠ none) ∧
      ¬(t.chunks.havePieces.get p = true ∧ t.chunks.queuePieces.get p = true) ∧
      ¬(t.owner p ≠ none ∧ t.chunks.queuePieces.get p = true) := by
  obtain ⟨⟨h1, h2, h3⟩, -⟩ := run_held hc hr p
  refine ⟨fun ⟨hh, ho⟩ => ho (h2 hh), fun ⟨hh, hq⟩ => ?_, fun ⟨ho, hq⟩ => ho (h3 hq)⟩
  have h4 : t.chunks.queuePieces.get p = false := h1 hh
  simp [h4] at hq

/-- A piece from its reservation to its completion. -/
def downloadFirst : List (TorrentOp twoPieces) :=
  [.acquire (plainRequest peerA), .markChunk ⟨0, 0, 16384⟩ 1, .checkPiece firstPiece .ok,
    .onPieceCompleted firstPiece]

theorem downloadFirst_exclusive : ∃ c t,
    ChunkTracker.new (l := twoPieces) (somePieces 0 0) (somePieces 0 2) twoFiles = .ok c ∧
      Run (step twoFiles) (Careful twoFiles) (start c) downloadFirst t ∧
      t.chunks.havePieces.get firstPiece = true ∧ t.owner firstPiece = none := by
  have hrun : ∃ c t,
      ChunkTracker.new (l := twoPieces) (somePieces 0 0) (somePieces 0 2) twoFiles = .ok c ∧
        Run (step twoFiles) (Careful twoFiles) (start c) downloadFirst t ∧
        t.chunks.havePieces.get firstPiece = true := exists_run (by decide +kernel)
  obtain ⟨c, t, hc, hr, hq⟩ := hrun
  refine ⟨c, t, hc, hr, hq, ?_⟩
  by_contra ho
  exact (careful_exclusive _ _ _ _ _ hc _ _ hr firstPiece).1 ⟨hq, ho⟩

/-- `update_only_files` deselects a piece in flight and selects it again: the piece is
queued and in flight. -/
def reselectInflight : List (TorrentOp twoPieces) :=
  [.acquire (plainRequest peerA), .updateOnlyFiles ∅, .updateOnlyFiles {0}]

/-- A stream reserves a piece at its hash check, which succeeds: the piece is have and
in flight. -/
def streamInWindow : List (TorrentOp twoPieces) :=
  [.acquire (plainRequest peerA), .markChunk ⟨0, 0, 16384⟩ 1,
    .acquire { plainRequest peerB with priorityPieces := [firstPiece] }, .checkPiece firstPiece .ok]

theorem reselect_and_stream_not_exclusive :
    (∃ c t, ChunkTracker.new (l := twoPieces) (somePieces 0 0) (somePieces 0 1) twoFiles = .ok c ∧
      Run (step twoFiles) Any (start c) reselectInflight t ∧
      (t.chunks.queuePieces.get firstPiece && (t.owner firstPiece).isSome) = true) ∧
    ∃ c t, ChunkTracker.new (l := twoPieces) (somePieces 0 0) (somePieces 0 1) twoFiles = .ok c ∧
      Run (step twoFiles) Any (start c) streamInWindow t ∧
      (t.chunks.havePieces.get firstPiece && (t.owner firstPiece).isSome) = true :=
  ⟨exists_run (by decide +kernel), exists_run (by decide +kernel)⟩

end Torrent

end Rtbit
