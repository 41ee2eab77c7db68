import Rtbit.Proofs.Exclusive
import Rtbit.Sanity.WriteToDisk

/-! A piece is not stolen while it is being written. Without streams and selection
changes, and with one run at a time per peer, a run between its ownership check and
its `mark_chunk_downloaded` is the owner of its piece. -/

namespace Rtbit

open Lib

namespace Writes

variable {l : Lengths} {fs : List FileInfo} {s s' : Writes l}

/-- Every piece is held at most once (`PieceView.Held`). -/
def AllHeld (s : Writes l) : Prop := ∀ p, ((Torrent.live s.tracker).piece p).Held

theorem start_allHeld {h sel : Bits} {c : ChunkTracker l} (hc : ChunkTracker.new h sel fs = .ok c) :
    (start c).AllHeld :=
  Torrent.start_held hc

theorem step_allHeld {op : WriteOp l} (hs : s.AllHeld)
    (hok : ∀ top, As s op top → Torrent.Careful fs (.live s.tracker) top)
    (h : step fs s op = some s') : s'.AllHeld := by
  rcases step_sim h with he | ⟨top, has, hstep⟩
  · unfold AllHeld
    rw [he]
    exact hs
  · exact Torrent.step_held hs (hok top has) hstep

/-- No streams, no selection changes, one run at a time per peer, and no peer dies inside
`write_to_disk`. -/
def Solo (s : Writes l) : WriteOp l → Prop
  | .acquire req => req.priorityPieces = []
  | .recv a _ => ∀ r ∈ s.runs, r.peer = a → r.phase = .done
  | .run _ _ => True
  | .die a => ∀ r ∈ s.runs, r.peer = a → r.phase = .received ∨ r.phase = .done
  | .updateOnlyFiles _ => False

instance (s : Writes l) : (op : WriteOp l) → Decidable (Solo s op)
  | .acquire req => inferInstanceAs (Decidable (req.priorityPieces = []))
  | .recv a _ => inferInstanceAs (Decidable (∀ r ∈ s.runs, r.peer = a → r.phase = .done))
  | .run _ _ => isTrue trivial
  | .die a => inferInstanceAs (Decidable
      (∀ r ∈ s.runs, r.peer = a → r.phase = .received ∨ r.phase = .done))
  | .updateOnlyFiles _ => isFalse id

theorem Solo.careful {op : WriteOp l} (h : Solo s op) (top : TorrentOp l) (has : As s op top) :
    Torrent.Careful fs (.live s.tracker) top := by
  cases has with
  | acquire req =>
    intro _ p hp
    have hmem : p ∈ req.priorityPieces := (PieceTracker.priorityPick_some hp).1
    rw [show req.priorityPieces = [] from h] at hmem
    cases hmem
  | update only => exact absurd h id
  | _ => trivial

structure Owned (s : Writes l) : Prop where
  held : s.AllHeld
  /-- Of two runs of one peer at least one is over. -/
  solo : ∀ (i j : ℕ) (r r' : WriteRun l), i ≠ j → s.runs[i]? = some r → s.runs[j]? = some r' →
    r.peer = r'.peer → r.phase = .done ∨ r'.phase = .done
  owned : ∀ (i : ℕ) (r : WriteRun l), s.runs[i]? = some r → r.phase.inSection = true →
    s.pieces.owner r.piece = some r.peer

theorem Owned.acquire (h : s.Owned) {req : AcquireRequest l} (hreq : req.priorityPieces = [])
    {p : ValidPieceIndex l} {a : PeerHandle} (ho : s.pieces.owner p = some a)
    (hlock : s.tryWrite p = false) : (s.pieces.acquirePiece (s.request req)).2.owner p = some a := by
  have hacq := s.pieces.acquire_cases (s.request req)
  generalize (s.pieces.acquirePiece (s.request req)).2 = t at hacq
  generalize (s.pieces.acquirePiece (s.request req)).1 = res at hacq
  cases hacq with
  | @steal _ q b hc hs =>
    have hne : q ≠ p := by
      rintro rfl
      have hs : s.tryWrite q = true := hs
      simp [hlock] at hs
    rw [PieceTracker.stolenBy_owner, if_neg hne, ho]
  | @priority q h10 hp =>
    have hmem : q ∈ req.priorityPieces := (PieceTracker.priorityPick_some hp).1
    simp [hreq] at hmem
  | @queue q hp =>
    -- a queued piece has no owner
    have hne : q ≠ p := by
      rintro rfl
      have hnone : s.pieces.owner q = none := (h.held q).queued_owner (PieceTracker.queuePick_some hp)
      simp [ho] at hnone
    rw [PieceTracker.reservedBy_owner, if_neg hne, ho]
  | nothing => exact ho

/-- A run in its section holds the read side of the per-piece lock. -/
theorem tryWrite_of_inSection {i : ℕ} {r : WriteRun l} (hr : s.runs[i]? = some r)
    (hp : r.phase.inSection = true) : s.tryWrite r.piece = false := by
  have hlock : r.phase.holdsLock = true := by
    cases hph : r.phase <;> simp [hph, Phase.inSection] at hp <;> rfl
  simp only [tryWrite, Bool.not_eq_false', List.any_eq_true]
  exact ⟨r, List.mem_of_getElem? hr, by simp [hlock]⟩

/-- A section of one run leaves the owners of the other runs' pieces alone. -/
theorem Owned.moves (h : s.Owned) {i : ℕ} {r : WriteRun l} {e : RunStep} {t : PieceTracker l}
    {ph : Phase} (hr : s.runs[i]? = some r) (hm : r.Moves fs s.pieces e t ph) {j : ℕ} {x : WriteRun l}
    (hj : j ≠ i) (hx : s.runs[j]? = some x) (hsec : x.phase.inSection = true) :
    t.owner x.piece = some x.peer := by
  have hown := h.owned j x hx hsec
  cases hm with
  | mark hp hph hmark howner =>
    by_cases hpiece : r.piece = x.piece
    · have hr_owned := h.owned i r hr (by simp [hp, Phase.inSection])
      rw [hpiece, hown] at hr_owned
      rcases h.solo i j r x (fun he => hj he.symm) hr hx (Option.some.inj hr_owned).symm with hd | hd
      · simp [hp] at hd
      · simp [hd, Phase.inSection] at hsec
    · rw [howner, if_neg (fun he => hpiece he.2), hown]
  | _ => exact hown

/-- The phase of a run that moves: it enters the section through the check only. -/
theorem moves_section {r : WriteRun l} {e : RunStep} {t t' : PieceTracker l} {ph : Phase}
    (hm : r.Moves fs t e t' ph) (hsec : ph.inSection = true) :
    t' = t ∧ (e = .check ∧ t.owner r.piece = some r.peer ∨
      (∀ now, e ≠ .mark now) ∧ r.phase.inSection = true) := by
  cases hm with
  | pass hp ho => exact ⟨rfl, Or.inl ⟨rfl, ho⟩⟩
  | write ok hp => exact ⟨rfl, Or.inr ⟨fun _ => by simp, by simp [hp, Phase.inSection]⟩⟩
  | mark hp hph => rcases hph with rfl | ⟨b, rfl⟩ <;> cases hsec
  | unlock taken hp => cases taken <;> cases hsec
  | ignore => cases hsec
  | hashOk => cases hsec
  | hashFailed => cases hsec
  | hashIoError => cases hsec
  | completed => cases hsec

/-- What a run's own step leaves it with. -/
theorem Owned.moved (h : s.Owned) {i : ℕ} {r : WriteRun l} {e : RunStep} {t : PieceTracker l}
    {ph : Phase} (hr : s.runs[i]? = some r) (hm : r.Moves fs s.pieces e t ph)
    (hsec : ph.inSection = true) : t.owner r.piece = some r.peer := by
  obtain ⟨rfl, ⟨-, ho⟩ | ⟨-, hp⟩⟩ := moves_section hm hsec
  · exact ho
  · exact h.owned i r hr hp

/-- A run that is over does not move. -/
theorem moves_not_done {r : WriteRun l} {e : RunStep} {t t' : PieceTracker l} {ph : Phase}
    (hm : r.Moves fs t e t' ph) : r.phase ≠ .done := by
  intro hd
  cases hm <;> simp_all

theorem Owned.step {op : WriteOp l} (h : s.Owned) (hok : Solo s op)
    (hs : Writes.step fs s op = some s') : s'.Owned := by
  have hheld : s'.AllHeld := step_allHeld h.held hok.careful hs
  cases op with
  | acquire req =>
    injection hs with hs
    subst hs
    exact ⟨hheld, h.solo, fun i r hr hp =>
      h.acquire hok (h.owned i r hr hp) (tryWrite_of_inSection hr hp)⟩
  | recv a m =>
    obtain ⟨r₀, ha, hp₀, rfl⟩ := recv_step hs
    refine ⟨hheld, ?_, ?_⟩
    · intro i j r r' hij hr hr' heq
      rcases get_append hr with h1 | ⟨h1, rfl⟩ <;> rcases get_append hr' with h2 | ⟨h2, rfl⟩
      · exact h.solo i j r r' hij h1 h2 heq
      · exact Or.inl (hok r (List.mem_of_getElem? h1) (heq.trans ha))
      · exact Or.inr (hok r' (List.mem_of_getElem? h2) (heq.symm.trans ha))
      · omega
    · intro i r hr hp
      rcases get_append hr with h1 | ⟨-, rfl⟩
      · exact h.owned i r h1 hp
      · simp [hp₀, Phase.inSection] at hp
  | run i e =>
    obtain ⟨r, t, ph, hr, hm, rfl⟩ := run_step hs
    refine ⟨hheld, ?_, ?_⟩
    · intro j k x y hjk hx hy heq
      have hnd := moves_not_done hm
      rcases get_set hx with ⟨rfl, rfl⟩ | ⟨hj, hx'⟩ <;> rcases get_set hy with ⟨rfl, rfl⟩ | ⟨hk, hy'⟩
      · exact absurd rfl hjk
      · exact Or.inr ((h.solo j k r y hjk hr hy' heq).resolve_left hnd)
      · exact Or.inl ((h.solo j k x r hjk hx' hr heq).resolve_right hnd)
      · exact h.solo j k x y hjk hx' hy' heq
    · intro j x hx hp
      rcases get_set hx with ⟨rfl, rfl⟩ | ⟨hj, hx'⟩
      · have hown : t.owner r.piece = some r.peer := h.moved hr hm hp
        exact hown
      · exact h.moves hr hm hj hx' hp
  | die a =>
    injection hs with hs
    subst hs
    refine ⟨hheld, h.solo, ?_⟩
    intro i r hr hp
    have ho := h.owned i r hr hp
    have hne : r.peer ≠ a := by
      intro ha
      rcases hok r (List.mem_of_getElem? hr) ha with hd | hd <;> simp [hd, Phase.inSection] at hp
    change (s.pieces.releasePiecesOwnedBy a).1.owner r.piece = _
    rw [s.pieces.released_owner, ho, if_neg (fun he => hne (Option.some.inj he))]
  | updateOnlyFiles only => exact absurd hok id

theorem start_owned {h sel : Bits} {c : ChunkTracker l} (hc : ChunkTracker.new h sel fs = .ok c) :
    (start c).Owned := by
  refine ⟨start_allHeld hc, ?_, ?_⟩
  · intro i j r r' _ hr
    simp [start] at hr
  · intro i r hr
    simp [start] at hr

/-- A peer inside its disk-write section owns the piece, so two peers are never inside the
section of one piece. -/
theorem solo_section_owned (l : Lengths) (fs : List FileInfo) (h sel : Bits) (c : ChunkTracker l)
    (hc : ChunkTracker.new h sel fs = .ok c) (ops : List (WriteOp l)) (t : Writes l)
    (hr : Run (Writes.step fs) Solo (start c) ops t) :
    (∀ r ∈ t.runs, r.phase.inSection = true → t.pieces.owner r.piece = some r.peer) ∧
      ∀ r ∈ t.runs, ∀ r' ∈ t.runs, r.phase.inSection = true → r'.phase.inSection = true →
        r.piece = r'.piece → r.peer = r'.peer := by
  have hinv : t.Owned :=
    hr.inv Owned (start_owned hc) fun _ _ _ hs hok hstep => hs.step hok hstep
  have hown (r : WriteRun l) (hr : r ∈ t.runs) (hp : r.phase.inSection = true) :
      t.pieces.owner r.piece = some r.peer := by
    obtain ⟨i, hi⟩ := List.mem_iff_getElem?.1 hr
    exact hinv.owned i r hi hp
  refine ⟨hown, ?_⟩
  intro r hr r' hr' hp hp' heq
  have h1 := hown r hr hp
  rw [heq, hown r' hr' hp'] at h1
  exact (Option.some.inj h1).symm

/-- A peer tries to steal the piece another one is writing, and gets the other piece. -/
def stealDuringWrite : List (WriteOp twoPieces) :=
  [.acquire (plainRequest peerA), .recv peerA ⟨0, 0, 16384⟩, .run 0 .check,
    .acquire (eagerRequest twoPieces twoFiles peerB), .recv peerB ⟨1, 0, 16384⟩, .run 1 .check,
    .run 0 (.write true)]

theorem stealDuringWrite_owned : ∃ c t,
    ChunkTracker.new (l := twoPieces) (somePieces 0 0) (somePieces 0 2) twoFiles = .ok c ∧
      Run (Writes.step twoFiles) Solo (start c) stealDuringWrite t ∧
      ∃ r ∈ t.runs, r.phase = .written ∧ t.pieces.owner r.piece = some r.peer := by
  have hrun : ∃ c t,
      ChunkTracker.new (l := twoPieces) (somePieces 0 0) (somePieces 0 2) twoFiles = .ok c ∧
        Run (Writes.step twoFiles) Solo (start c) stealDuringWrite t ∧
        t.runs.any (fun r => decide (r.phase = .written)) = true := exists_run (by decide +kernel)
  obtain ⟨c, t, hc, hr, hq⟩ := hrun
  obtain ⟨r, hmem, hp⟩ := List.any_eq_true.1 hq
  have hp : r.phase = .written := of_decide_eq_true hp
  exact ⟨c, t, hc, hr, r, hmem, hp,
    (solo_section_owned _ _ _ _ _ hc _ _ hr).1 r hmem (by simp [hp, Phase.inSection])⟩

end Writes

end Rtbit
