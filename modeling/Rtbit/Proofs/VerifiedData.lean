import Rtbit.Proofs.StealWrite

/-! Verified data is not overwritten: a run between its ownership check and its write
has a piece that is neither have nor at its hash check. This needs that a piece is
not reserved by a second peer while a first one holds it (`Torrent.Careful`) and that
two runs are not inside the disk-write section of one piece. -/

namespace Rtbit

open Lib

namespace PieceView

theorem have_mono {v : PieceView} (h : v.have_ = true) (op : PieceOp) :
    (v.apply op).have_ = true := by
  cases op with
  | check r => cases r <;> first | rfl | exact h
  | _ => exact h

/-- Neither have nor at a hash check. -/
def Free (v : PieceView) : Prop := v.hashing = 0 ∧ v.have_ = false

theorem Free.apply {v : PieceView} (h : v.Free) {op : PieceOp} (he : v.Enabled op)
    (ht : op ≠ .take) : (v.apply op).Free := by
  cases op with
  | check r =>
    have hpos : 0 < v.hashing := he
    have hz : v.hashing = 0 := h.1
    omega
  | take => exact absurd rfl ht
  | pause => exact ⟨rfl, h.2⟩
  | _ => exact ⟨h.1, h.2⟩

end PieceView

namespace Writes

variable {l : Lengths} {fs : List FileInfo} {s s' : Writes l}

/-- The step is careful, and a run does not enter the section of a piece that another one
is in. -/
def NoOverlap (fs : List FileInfo) (s : Writes l) : WriteOp l → Prop
  | .acquire req => Torrent.Careful fs (.live s.tracker) (.acquire (s.request req))
  | .updateOnlyFiles only => Torrent.Careful fs (.live s.tracker) (.updateOnlyFiles only)
  | .run i .check => ∀ r ∈ s.runs[i]?.toList, s.pieces.owner r.piece = some r.peer →
      ∀ x ∈ s.runs, x.piece = r.piece → x.phase.inSection = false
  | _ => True

instance (s : Writes l) : (op : WriteOp l) → Decidable (NoOverlap fs s op)
  | .acquire req =>
    inferInstanceAs (Decidable (Torrent.Careful fs (.live s.tracker) (.acquire (s.request req))))
  | .updateOnlyFiles only =>
    inferInstanceAs (Decidable (Torrent.Careful fs (.live s.tracker) (.updateOnlyFiles only)))
  | .run i .check => inferInstanceAs (Decidable
      (∀ r ∈ s.runs[i]?.toList, s.pieces.owner r.piece = some r.peer →
        ∀ x ∈ s.runs, x.piece = r.piece → x.phase.inSection = false))
  | .run _ (.write _) | .run _ (.mark _) | .run _ .unlock | .run _ (.hashed _) | .run _ .completed
  | .recv _ _ | .die _ => isTrue trivial

theorem NoOverlap.careful {op : WriteOp l} (h : NoOverlap fs s op) (top : TorrentOp l)
    (has : As s op top) : Torrent.Careful fs (.live s.tracker) top := by
  cases has with
  | acquire req => exact h
  | update only => exact h
  | _ => trivial

/-- Neither have nor at a hash check. -/
def Free (s : Writes l) (p : ValidPieceIndex l) : Prop := ((Torrent.live s.tracker).piece p).Free

theorem step_have_mono {op : WriteOp l} {p : ValidPieceIndex l} (h : step fs s op = some s')
    (hp : s.pieces.chunks.havePieces.get p = true) : s'.pieces.chunks.havePieces.get p = true := by
  rcases step_sim h with he | ⟨top, -, hstep⟩
  · have hpieces : s'.pieces = s.pieces := congrArg LiveTracker.pieces he
    rw [hpieces]
    exact hp
  · obtain ⟨pop, -, -, ha⟩ := Torrent.step_piece hstep p
    have hmono : ((Torrent.live s'.tracker).piece p).have_ = true :=
      ha ▸ PieceView.have_mono (v := (Torrent.live s.tracker).piece p) hp pop
    exact hmono

/-- Only `mark_chunk_downloaded` starts a hash check. -/
theorem step_free {op : WriteOp l} {p : ValidPieceIndex l} (h : step fs s op = some s')
    (hop : ∀ i now, op ≠ .run i (.mark now)) (hf : s.Free p) : s'.Free p := by
  rcases step_sim h with he | ⟨top, has, hstep⟩
  · unfold Free
    rw [he]
    exact hf
  · obtain ⟨pop, hi, hen, ha⟩ := Torrent.step_piece hstep p
    unfold Free
    rw [ha]
    refine hf.apply hen ?_
    rintro rfl
    cases hi
    cases has with
    | mark _ hr => exact hop _ _ rfl

/-- ... and only for its own piece. -/
theorem mark_free {i : ℕ} {r : WriteRun l} {now : ℕ} {t : PieceTracker l} {ph : Phase}
    {p : ValidPieceIndex l} (hr : s.runs[i]? = some r) (hm : r.Moves fs s.pieces (.mark now) t ph)
    (hp : r.piece ≠ p) (hf : s.Free p) : Free ⟨t, s.runs.set i { r with phase := ph }⟩ p := by
  cases hm with
  | mark hw hph hmark howner hsame =>
    refine ⟨?_, ?_⟩
    · change (tracker ⟨t, s.runs.set i { r with phase := ph }⟩).hashing p = 0
      rw [tracker_set hr t ph]
      change Function.update s.tracker.hashing r.piece _ p = 0
      rw [Function.update_of_ne (fun he => hp he.symm)]
      exact hf.1
    · change t.chunks.havePieces.get p = false
      rw [hsame.have_]
      exact hf.2

structure Untouched (s : Writes l) : Prop where
  held : s.AllHeld
  free : ∀ (i : ℕ) (r : WriteRun l), s.runs[i]? = some r → r.phase.inSection = true →
    s.Free r.piece
  alone : ∀ (i j : ℕ) (r x : WriteRun l), i ≠ j → s.runs[i]? = some r → s.runs[j]? = some x →
    r.phase.inSection = true → x.phase.inSection = true → r.piece ≠ x.piece

/-- The owner of a piece in flight finds it neither have nor at a hash check. -/
theorem free_of_owner (h : s.AllHeld) {p : ValidPieceIndex l} {a : PeerHandle}
    (ho : s.pieces.owner p = some a) : s.Free p := by
  have hne : ((Torrent.live s.tracker).piece p).owner ≠ none := by
    change s.pieces.owner p ≠ none
    simp [ho]
  refine ⟨(h p).not_window hne, ?_⟩
  by_contra hh
  exact hne ((h p).have_owner (by simpa using hh))

theorem Untouched.run (h : s.Untouched) {i : ℕ} {e : RunStep} (hok : NoOverlap fs s (.run i e))
    (hs : step fs s (.run i e) = some s') : s'.Untouched := by
  have hheld : s'.AllHeld := step_allHeld h.held hok.careful hs
  obtain ⟨r, t, ph, hr, hm, rfl⟩ := run_step hs
  -- another run that is in its section
  have hother (j : ℕ) (x : WriteRun l) (hj : j ≠ i) (hx : s.runs[j]? = some x)
      (hsec : x.phase.inSection = true) : Free ⟨t, s.runs.set i { r with phase := ph }⟩ x.piece := by
    have hfree := h.free j x hx hsec
    by_cases hmark : ∃ now, e = .mark now
    · obtain ⟨now, rfl⟩ := hmark
      have hp : r.phase.inSection = true := by
        cases hm with
        | mark hp => simp [hp, Phase.inSection]
      exact mark_free hr hm (h.alone i j r x (fun he => hj he.symm) hr hx hp hsec) hfree
    · refine step_free hs ?_ hfree
      rintro k now ⟨-, rfl⟩
      exact hmark ⟨now, rfl⟩
  have hcheck (hown : s.pieces.owner r.piece = some r.peer) (he : e = .check) (x : WriteRun l)
      (hx : x ∈ s.runs) (hsec : x.phase.inSection = true) : r.piece ≠ x.piece := by
    subst he
    intro heq
    have hno := hok r (by simp [hr]) hown x hx heq.symm
    simp [hno] at hsec
  have hmoved (j : ℕ) (x : WriteRun l) (hj : j ≠ i) (hx : s.runs[j]? = some x)
      (hsec : x.phase.inSection = true) (hph : ph.inSection = true) : r.piece ≠ x.piece := by
    rcases (moves_section hm hph).2 with ⟨he, hown⟩ | ⟨-, hp⟩
    · exact hcheck hown he x (List.mem_of_getElem? hx) hsec
    · exact h.alone i j r x (fun he => hj he.symm) hr hx hp hsec
  refine ⟨hheld, ?_, ?_⟩
  · intro j x hx hsec
    rcases get_set hx with ⟨rfl, rfl⟩ | ⟨hj, hx'⟩
    · rcases (moves_section hm hsec).2 with ⟨rfl, hown⟩ | ⟨hne, hp⟩
      · exact step_free hs (by simp) (free_of_owner h.held hown)
      · refine step_free hs ?_ (h.free j r hr hp)
        rintro k now ⟨-, rfl⟩
        exact hne now rfl
    · exact hother j x hj hx' hsec
  · intro j k x y hjk hx hy hsx hsy
    rcases get_set hx with ⟨rfl, rfl⟩ | ⟨hj, hx'⟩ <;> rcases get_set hy with ⟨rfl, rfl⟩ | ⟨hk, hy'⟩
    · exact absurd rfl hjk
    · exact hmoved k y hk hy' hsy hsx
    · exact fun heq => hmoved j x hj hx' hsx hsy heq.symm
    · exact h.alone j k x y hjk hx' hy' hsx hsy

/-- A step that starts no hash check and lets no run into its section. -/
theorem Untouched.of_runs (h : s.Untouched) (hheld : s'.AllHeld) (hfree : ∀ p, s.Free p → s'.Free p)
    (hruns : ∀ (i : ℕ) (r : WriteRun l), s'.runs[i]? = some r → r.phase.inSection = true →
      s.runs[i]? = some r) : s'.Untouched :=
  ⟨hheld, fun i r hr hp => hfree _ (h.free i r (hruns i r hr hp) hp),
    fun i j r x hij hr hx hp hpx =>
      h.alone i j r x hij (hruns i r hr hp) (hruns j x hx hpx) hp hpx⟩

theorem Untouched.step {op : WriteOp l} (h : s.Untouched) (hok : NoOverlap fs s op)
    (hs : Writes.step fs s op = some s') : s'.Untouched := by
  have hheld : s'.AllHeld := step_allHeld h.held hok.careful hs
  cases op with
  | run i e => exact h.run hok hs
  | recv a m =>
    refine h.of_runs hheld (fun p => step_free hs (by simp)) ?_
    intro i r hr hp
    obtain ⟨r₀, -, hp₀, rfl⟩ := recv_step hs
    rcases get_append hr with hr' | ⟨-, rfl⟩
    · exact hr'
    · simp [hp₀, Phase.inSection] at hp
  | acquire req =>
    refine h.of_runs hheld (fun p => step_free hs (by simp)) ?_
    intro i r hr _
    injection hs with hs
    subst hs
    exact hr
  | die a =>
    refine h.of_runs hheld (fun p => step_free hs (by simp)) ?_
    intro i r hr _
    injection hs with hs
    subst hs
    exact hr
  | updateOnlyFiles only =>
    refine h.of_runs hheld (fun p => step_free hs (by simp)) ?_
    intro i r hr _
    injection hs with hs
    subst hs
    exact hr

theorem start_untouched {h sel : Bits} {c : ChunkTracker l} (hc : ChunkTracker.new h sel fs = .ok c) :
    (start c).Untouched := by
  refine ⟨start_allHeld hc, ?_, ?_⟩
  · intro i r hr
    simp [start] at hr
  · intro i j r x _ hr
    simp [start] at hr

/-- In a run without overlaps, once a piece is have no later step writes to it. -/
theorem verified_not_overwritten (l : Lengths) (fs : List FileInfo) (h sel : Bits)
    (c : ChunkTracker l) (hc : ChunkTracker.new h sel fs = .ok c)
    (ops₁ ops₂ : List (WriteOp l)) (s₁ s₂ s₃ : Writes l)
    (hr₁ : Run (Writes.step fs) (NoOverlap fs) (start c) ops₁ s₁) (p : ValidPieceIndex l)
    (hp : s₁.pieces.chunks.havePieces.get p = true)
    (hr₂ : Run (Writes.step fs) (NoOverlap fs) s₁ ops₂ s₂) (i : ℕ) (ok : Bool)
    (hw : Writes.step fs s₂ (.run i (.write ok)) = some s₃) (r : WriteRun l)
    (hr : s₂.runs[i]? = some r) : r.piece ≠ p := by
  have hinv : s₂.Untouched :=
    (hr₁.trans hr₂).inv Untouched (start_untouched hc) fun _ _ _ hs hok hstep => hs.step hok hstep
  have hhave : s₂.pieces.chunks.havePieces.get p = true :=
    hr₂.inv (fun s => s.pieces.chunks.havePieces.get p = true) hp
      fun _ _ _ hh _ hstep => step_have_mono hstep hh
  obtain ⟨r', t, ph, hr', hm, -⟩ := run_step hw
  obtain rfl : r' = r := by simpa [hr] using hr'.symm
  have hfree : s₂.Free r'.piece := by
    cases hm with
    | write _ hp => exact hinv.free i r' hr (by simp [hp, Phase.inSection])
  rintro rfl
  have hnot : s₂.pieces.chunks.havePieces.get r'.piece = false := hfree.2
  simp [hhave] at hnot

/-- The whole run of `peerA` for the first piece. -/
def verifyFirst : List (WriteOp twoPieces) :=
  [.acquire (plainRequest peerA), .recv peerA ⟨0, 0, 16384⟩, .run 0 .check, .run 0 (.write true),
    .run 0 (.mark 1), .run 0 .unlock, .run 0 (.hashed .ok)]

/-- Another peer up to its write. -/
def writeSecond : List (WriteOp twoPieces) :=
  [.acquire (plainRequest peerB), .recv peerB ⟨1, 0, 16384⟩, .run 1 .check]

theorem writeSecond_not_overwritten : ∃ c s₁ s₂ s₃,
    ChunkTracker.new (l := twoPieces) (somePieces 0 0) (somePieces 0 2) twoFiles = .ok c ∧
      Run (Writes.step twoFiles) (NoOverlap twoFiles) (start c) verifyFirst s₁ ∧
      s₁.pieces.chunks.havePieces.get firstPiece = true ∧
      Run (Writes.step twoFiles) (NoOverlap twoFiles) s₁ writeSecond s₂ ∧
      Writes.step twoFiles s₂ (.run 1 (.write true)) = some s₃ ∧
      ∀ r, s₂.runs[1]? = some r → r.piece ≠ firstPiece := by
  have hrun : ∃ c s₁,
      ChunkTracker.new (l := twoPieces) (somePieces 0 0) (somePieces 0 2) twoFiles = .ok c ∧
        Run (Writes.step twoFiles) (NoOverlap twoFiles) (start c) verifyFirst s₁ ∧
        (s₁.pieces.chunks.havePieces.get firstPiece &&
          (exec (Writes.step twoFiles) (NoOverlap twoFiles) s₁ writeSecond).any fun s₂ =>
            (Writes.step twoFiles s₂ (.run 1 (.write true))).isSome) = true :=
    exists_run (by decide +kernel)
  obtain ⟨c, s₁, hc, hr₁, hq⟩ := hrun
  simp only [Bool.and_eq_true, Option.any_eq_true, Option.isSome_iff_exists] at hq
  obtain ⟨hp, s₂, hs₂, s₃, hw⟩ := hq
  have hr₂ := Run.of_exec hs₂
  exact ⟨c, s₁, s₂, s₃, hc, hr₁, hp, hr₂, hw, fun r hr =>
    verified_not_overwritten _ _ _ _ _ hc _ _ _ _ _ hr₁ _ hp hr₂ _ _ hw r hr⟩

/-- The run ends with the first piece have and the next step of run 1 writes to it. -/
def OverwritesAfter (ops : List (WriteOp twoPieces)) : Prop :=
  ∃ c s, ChunkTracker.new (l := twoPieces) (somePieces 0 0) (somePieces 0 2) twoFiles = .ok c ∧
    Run (Writes.step twoFiles) Any (start c) ops s ∧
    (s.pieces.chunks.havePieces.get firstPiece &&
      s.runs[1]?.any (fun r => decide (r.piece = firstPiece)) &&
      (Writes.step twoFiles s (.run 1 (.write true))).isSome) = true

/-- `peerA` is at the hash check of the first piece. A stream has `peerB` reserve it, or it is
deselected and selected again and `peerB` reserves it from the queue; the check succeeds,
and the ownership check of `peerB` passes. -/
theorem verified_overwritten :
    OverwritesAfter
      [.acquire (plainRequest peerA), .recv peerA ⟨0, 0, 16384⟩, .run 0 .check,
        .run 0 (.write true), .run 0 (.mark 1), .run 0 .unlock,
        .acquire { plainRequest peerB with priorityPieces := [firstPiece] },
        .run 0 (.hashed .ok), .recv peerB ⟨0, 0, 16384⟩, .run 1 .check] ∧
    OverwritesAfter
      [.acquire (plainRequest peerA), .recv peerA ⟨0, 0, 16384⟩, .run 0 .check,
        .run 0 (.write true), .run 0 (.mark 1), .run 0 .unlock, .updateOnlyFiles {1},
        .updateOnlyFiles {0, 1}, .acquire (plainRequest peerB), .run 0 (.hashed .ok),
        .recv peerB ⟨0, 0, 16384⟩, .run 1 .check] :=
  ⟨exists_run (by decide +kernel), exists_run (by decide +kernel)⟩

end Writes

end Rtbit
