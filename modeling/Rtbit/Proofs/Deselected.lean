import Rtbit.Sanity.Torrent

/-! A piece that is neither selected nor have stays out of the queue until it is
selected again. The operations that give up a piece in flight do not look at the
selection: when the owner of such a piece dies, when its hash check fails and when
the torrent is paused, it goes back into the queue. -/

namespace Rtbit

open Lib

namespace PieceView

def Deselected (v : PieceView) : Prop := v.selected = false ∧ v.queued = false

/-- The operation neither selects the piece nor gives it up while it is missing. -/
def NotGivenUp (v : PieceView) : PieceOp → Prop
  | .select sel => sel = false
  | .release => v.have_ = true
  | .check .failed => v.have_ = true
  | .pause => v.owner = none ∨ v.have_ = true
  | _ => True

theorem Deselected.apply {v : PieceView} (h : v.Deselected) {op : PieceOp} (hn : v.NotGivenUp op) :
    (v.apply op).Deselected := by
  obtain ⟨hs, hq⟩ := h
  cases op with
  | reserve a priority => exact ⟨hs, rfl⟩
  | check r =>
    cases r with
    | failed =>
      have hh : v.have_ = true := hn
      exact ⟨hs, by simp [PieceView.apply, hq, hh]⟩
    | ok => exact ⟨hs, hq⟩
    | ioError => exact ⟨hs, hq⟩
  | release =>
    have hh : v.have_ = true := hn
    exact ⟨hs, by simp [PieceView.apply, hq, hh]⟩
  | select sel =>
    have hsel : sel = false := hn
    exact ⟨hsel, by simp [PieceView.apply, hsel, hq]⟩
  | pause =>
    refine ⟨hs, ?_⟩
    rcases hn with ho | hh
    · simp [PieceView.apply, hq, ho]
    · simp [PieceView.apply, hq, hh]
  | stay => exact ⟨hs, hq⟩
  | steal a => exact ⟨hs, hq⟩
  | take => exact ⟨hs, hq⟩
  | completed => exact ⟨hs, hq⟩

end PieceView

namespace Torrent

variable {l : Lengths} {fs : List FileInfo}

/-- The step does not select `p`, and does not give up `p` while `p` is missing: its owner does
not die, its hash check does not fail and the torrent is not paused with `p` in flight. -/
def NotGivenUp (fs : List FileInfo) (p : ValidPieceIndex l) (s : Torrent l) : TorrentOp l → Prop
  | .updateOnlyFiles only => (ChunkTracker.selection l fs only).get p = false
  | .release a => s.owner p = some a → s.chunks.havePieces.get p = true
  | .checkPiece q .failed => q = p → s.chunks.havePieces.get p = true
  | .pause => s.owner p = none ∨ s.chunks.havePieces.get p = true
  | _ => True

instance (p : ValidPieceIndex l) (s : Torrent l) : (op : TorrentOp l) → Decidable (NotGivenUp fs p s op)
  | .updateOnlyFiles only =>
    inferInstanceAs (Decidable ((ChunkTracker.selection l fs only).get p = false))
  | .release a =>
    inferInstanceAs (Decidable (s.owner p = some a → s.chunks.havePieces.get p = true))
  | .checkPiece q .failed =>
    inferInstanceAs (Decidable (q = p → s.chunks.havePieces.get p = true))
  | .pause => inferInstanceAs (Decidable (s.owner p = none ∨ s.chunks.havePieces.get p = true))
  | .checkPiece _ .ok | .checkPiece _ .ioError | .acquire _ | .markChunk _ _
  | .onPieceCompleted _ | .resume => isTrue trivial

theorem NotGivenUp.piece {s : Torrent l} {op : TorrentOp l} {p : ValidPieceIndex l}
    (h : NotGivenUp fs p s op) {pop : PieceOp} (hi : Induces fs s op p pop) :
    (s.piece p).NotGivenUp pop := by
  cases hi with
  | check _ r =>
    cases r with
    | failed => exact h rfl
    | ok => trivial
    | ioError => trivial
  | release ho => exact h ho
  | select only => exact h
  | pause => exact h
  | _ => trivial

theorem update_step_piece {s s' : Torrent l} {only : Finset ℕ}
    (h : step fs s (.updateOnlyFiles only) = some s') (p : ValidPieceIndex l) :
    s'.piece p = (s.piece p).apply (.select ((ChunkTracker.selection l fs only).get p)) := by
  cases s with
  | live s => injection h with h; subst h; exact update_piece s only p
  | paused c => injection h with h; subst h; exact update_piece_paused c only p

/-- Right after `update_only_files` a missing piece that is not selected is not queued. -/
theorem update_deselected {s s' : Torrent l} {only : Finset ℕ} {p : ValidPieceIndex l}
    (h : step fs s (.updateOnlyFiles only) = some s') (hs : s'.chunks.selected.get p = false)
    (hh : s'.chunks.havePieces.get p = false) : (s'.piece p).Deselected := by
  have hs : (s'.piece p).selected = false := hs
  have hh : (s'.piece p).have_ = false := hh
  refine ⟨hs, ?_⟩
  rw [update_step_piece h p] at hs hh ⊢
  have hsel : (ChunkTracker.selection l fs only).get p = false := hs
  have hhave : (s.piece p).have_ = false := hh
  simp [PieceView.apply, hsel, hhave]

/-- A piece that is not queued is only ever reserved as a priority piece. -/
theorem reserved_priority {t : PieceTracker l} {req : AcquireRequest l} {p : ValidPieceIndex l}
    (hq : t.chunks.queuePieces.get p = false) (h : (t.acquirePiece req).1 = .reserved p) :
    p ∈ req.priorityPieces := by
  have hacq := t.acquire_cases req
  rw [h] at hacq
  generalize (t.acquirePiece req).2 = t' at hacq
  cases hacq with
  | priority h10 hp => exact (PieceTracker.priorityPick_some hp).1
  | queue hp =>
    have hq' := PieceTracker.queuePick_some hp
    simp [hq] at hq'

/-- A missing piece deselected by `update_only_files` is not queued, and is reserved only as a
priority piece, as long as no step selects it or gives it up while it is missing. -/
theorem deselected_not_queued (l : Lengths) (fs : List FileInfo) (s₀ s₁ : Torrent l)
    (only : Finset ℕ) (hu : step fs s₀ (.updateOnlyFiles only) = some s₁) (p : ValidPieceIndex l)
    (hs : s₁.chunks.selected.get p = false) (hh : s₁.chunks.havePieces.get p = false)
    (ops : List (TorrentOp l)) (t : Torrent l) (hr : Run (step fs) (NotGivenUp fs p) s₁ ops t) :
    t.chunks.queuePieces.get p = false ∧
      ∀ (live : LiveTracker l) (req : AcquireRequest l), t = .live live →
        (live.pieces.acquirePiece req).1 = .reserved p → p ∈ req.priorityPieces := by
  have hd : (t.piece p).Deselected := by
    refine hr.inv (fun t => (t.piece p).Deselected) (update_deselected hu hs hh) ?_
    intro s op s' hi hok hstep
    obtain ⟨pop, hind, -, ha⟩ := step_piece hstep p
    rw [ha]
    exact hi.apply (hok.piece hind)
  refine ⟨hd.2, ?_⟩
  rintro live req rfl hres
  exact reserved_priority hd.2 hres

/-- A piece in flight is deselected and then completed. -/
theorem deselected_inflight_completes : ∃ s₀ s₁ t : Torrent twoPieces,
    step twoFiles s₀ (.updateOnlyFiles {1}) = some s₁ ∧
      s₀.owner firstPiece = some peerA ∧ s₁.chunks.selected.get firstPiece = false ∧
      s₁.chunks.havePieces.get firstPiece = false ∧
      Run (step twoFiles) (NotGivenUp twoFiles firstPiece) s₁
        [.markChunk ⟨0, 0, 16384⟩ 1, .checkPiece firstPiece .ok, .pause] t ∧
      t.chunks.queuePieces.get firstPiece = false := by
  have hrun : ∃ c t,
      ChunkTracker.new (l := twoPieces) (somePieces 0 0) (somePieces 0 2) twoFiles = .ok c ∧
        Run (step twoFiles) Any (start c) [.acquire (plainRequest peerA)] t ∧
        (decide (t.owner firstPiece = some peerA) &&
          (step twoFiles t (.updateOnlyFiles {1})).any fun s₁ =>
            !s₁.chunks.selected.get firstPiece && !s₁.chunks.havePieces.get firstPiece &&
              (exec (step twoFiles) (NotGivenUp twoFiles firstPiece) s₁
                [.markChunk ⟨0, 0, 16384⟩ 1, .checkPiece firstPiece .ok, .pause]).isSome) = true :=
    exists_run (by decide +kernel)
  obtain ⟨-, s₀, -, -, hq⟩ := hrun
  simp only [Bool.and_eq_true, decide_eq_true_eq, Option.any_eq_true, Bool.not_eq_true',
    Option.isSome_iff_exists] at hq
  obtain ⟨ho, s₁, hu, ⟨hs, hh⟩, t, ht⟩ := hq
  have hr := Run.of_exec ht
  exact ⟨s₀, s₁, t, hu, ho, hs, hh, hr,
    (deselected_not_queued _ _ _ _ _ hu _ hs hh _ _ hr).1⟩

/-- A run that deselects a piece in flight and then takes `ops` ends with the piece in the
queue, neither selected nor have. -/
def RequeuedAfter (ops : List (TorrentOp twoPieces)) : Prop :=
  ∃ c t, ChunkTracker.new (l := twoPieces) (somePieces 0 0) (somePieces 0 2) twoFiles = .ok c ∧
    Run (step twoFiles) Any (start c)
      ([.acquire (plainRequest peerA), .updateOnlyFiles {1}] ++ ops) t ∧
    (!t.chunks.selected.get firstPiece && !t.chunks.havePieces.get firstPiece &&
      t.chunks.queuePieces.get firstPiece) = true

/-- The owner dies; the hash check fails; the torrent is paused and resumed. -/
theorem deselected_requeued :
    RequeuedAfter [.release peerA] ∧
      RequeuedAfter [.markChunk ⟨0, 0, 16384⟩ 1, .checkPiece firstPiece .failed] ∧
      RequeuedAfter [.pause, .resume] :=
  ⟨exists_run (by decide +kernel), exists_run (by decide +kernel), exists_run (by decide +kernel)⟩

end Torrent

end Rtbit
