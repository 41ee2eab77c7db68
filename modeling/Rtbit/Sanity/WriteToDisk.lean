import Rtbit.Sanity.Torrent
import Rtbit.Spec.WriteToDisk

/-! What one step of a `write_to_disk` run can do, and the simulation: the tracker and
the two windows counted over the runs move as the torrent of `Spec.Torrent` does. -/

namespace Rtbit

open Lib

namespace WriteRun

variable {l : Lengths} {fs : List FileInfo}

/-- The critical sections of a run that succeed, with what they need and do. -/
inductive Moves (fs : List FileInfo) (r : WriteRun l) (t : PieceTracker l) :
    RunStep → PieceTracker l → Phase → Prop
  | pass : r.phase = .received → t.owner r.piece = some r.peer → Moves fs r t .check t .checked
  | ignore : r.phase = .received → Moves fs r t .check t .done
  | write (ok : Bool) : r.phase = .checked →
      Moves fs r t (.write ok) t (if ok then .written else .done)
  | mark {now : ℕ} {t' : PieceTracker l} {ph : Phase} : r.phase = .written →
      (ph = .done ∨ ∃ taken, ph = .marked taken) →
      (∀ h c, LiveTracker.markChunk ⟨t, h, c⟩ r.msg now =
        ⟨t', if ph.inWindow then Function.update h r.piece (h r.piece + 1) else h, c⟩) →
      (∀ p, t'.owner p = if ph.inWindow = true ∧ r.piece = p then none else t.owner p) →
      ChunkTracker.SamePieces t.chunks t'.chunks →
      (ph.inWindow = true → (t.markChunkDownloaded r.msg).map Prod.fst = some .completed) →
      Moves fs r t (.mark now) t' ph
  | unlock (taken : Bool) : r.phase = .marked taken →
      Moves fs r t .unlock t (if taken then .hashing else .done)
  | hashOk : r.phase = .hashing → Moves fs r t (.hashed .ok) (t.markPieceHashOk r.piece) .completing
  | hashFailed : r.phase = .hashing →
      Moves fs r t (.hashed .failed) (t.markPieceHashFailed r.piece) .done
  | hashIoError : r.phase = .hashing → Moves fs r t (.hashed .ioError) t .done
  | completed : r.phase = .completing →
      Moves fs r t .completed (t.onPieceCompleted fs r.piece) .done

theorem mark_moves {r : WriteRun l} {t t' : PieceTracker l} {now : ℕ} {ph : Phase}
    (hp : r.phase = .written) (h : r.next fs t (.mark now) = some (t', ph)) :
    Moves fs r t (.mark now) t' ph := by
  simp only [next, hp] at h
  cases hm : t.markChunkDownloaded r.msg with
  | none =>
    simp only [hm, Option.some.injEq, Prod.mk.injEq] at h
    obtain ⟨rfl, rfl⟩ := h
    exact .mark hp (Or.inl rfl) (fun h c => by simp [LiveTracker.markChunk, hm, Phase.inWindow])
      (fun p => by simp [Phase.inWindow]) (.refl _) (by simp [Phase.inWindow])
  | some x =>
    obtain ⟨res, u⟩ := x
    have ho (p : ValidPieceIndex l) : u.owner p = t.owner p := by
      unfold PieceTracker.owner
      rw [(PieceTracker.marked_same hm).1]
    have hs := (PieceTracker.marked_same hm).2.1
    cases res with
    | previouslyCompleted =>
      simp only [hm, Option.some.injEq, Prod.mk.injEq] at h
      obtain ⟨rfl, rfl⟩ := h
      exact .mark hp (Or.inl rfl) (fun h c => by simp [LiveTracker.markChunk, hm, Phase.inWindow])
        (fun p => by simp [Phase.inWindow, ho]) hs (by simp [Phase.inWindow])
    | notCompleted =>
      simp only [hm, Option.some.injEq, Prod.mk.injEq] at h
      obtain ⟨rfl, rfl⟩ := h
      exact .mark hp (Or.inr ⟨_, rfl⟩)
        (fun h c => by simp [LiveTracker.markChunk, hm, Phase.inWindow])
        (fun p => by simp [Phase.inWindow, ho]) hs (by simp [Phase.inWindow])
    | completed =>
      simp only [hm, Option.some.injEq, Prod.mk.injEq] at h
      obtain ⟨rfl, rfl⟩ := h
      refine .mark hp (Or.inr ⟨_, rfl⟩) ?_ ?_ ?_ ?_
      · intro h c
        simp only [LiveTracker.markChunk, hm, r.piece_eq, LiveTracker.takeCompleted, Phase.inWindow]
        rfl
      · intro p
        rw [u.take_owner, Phase.inWindow, u.take_some, ho]
        by_cases hq : r.piece = p
        · subst hq
          cases hown : t.owner r.piece <;> simp [ho, hown]
        · simp [hq]
      · rwa [u.take_chunks]
      · simp [hm]

theorem next_moves {r : WriteRun l} {t t' : PieceTracker l} {e : RunStep} {ph : Phase}
    (h : r.next fs t e = some (t', ph)) : Moves fs r t e t' ph := by
  cases e with
  | check =>
    cases hp : r.phase <;> simp only [next, hp, reduceCtorEq, Option.some.injEq, Prod.mk.injEq] at h
    obtain ⟨rfl, rfl⟩ := h
    split_ifs with ho
    · exact .pass hp ho
    · exact .ignore hp
  | write ok =>
    cases hp : r.phase <;> simp only [next, hp, reduceCtorEq, Option.some.injEq, Prod.mk.injEq] at h
    obtain ⟨rfl, rfl⟩ := h
    exact .write ok hp
  | mark now =>
    have hp : r.phase = .written := by
      cases hp : r.phase <;> simp only [next, hp, reduceCtorEq] at h
      rfl
    exact mark_moves hp h
  | unlock =>
    cases hp : r.phase <;> simp only [next, hp, reduceCtorEq, Option.some.injEq, Prod.mk.injEq] at h
    obtain ⟨rfl, rfl⟩ := h
    exact .unlock _ hp
  | hashed res =>
    cases hp : r.phase <;> simp only [next, hp, reduceCtorEq] at h
    cases res <;> (simp only [Option.some.injEq, Prod.mk.injEq] at h; obtain ⟨rfl, rfl⟩ := h)
    · exact .hashOk hp
    · exact .hashFailed hp
    · exact .hashIoError hp
  | completed =>
    cases hp : r.phase <;> simp only [next, hp, reduceCtorEq, Option.some.injEq, Prod.mk.injEq] at h
    obtain ⟨rfl, rfl⟩ := h
    exact .completed hp

end WriteRun

namespace Writes

variable {l : Lengths} {fs : List FileInfo} {s s' : Writes l}

/-- The step of the torrent that a step of the runs is. -/
inductive As (s : Writes l) : WriteOp l → TorrentOp l → Prop
  | acquire (req) : As s (.acquire req) (.acquire (s.request req))
  | die (a) : As s (.die a) (.release a)
  | update (only) : As s (.updateOnlyFiles only) (.updateOnlyFiles only)
  | mark {i r} (now) : s.runs[i]? = some r → As s (.run i (.mark now)) (.markChunk r.msg now)
  | hashed {i r} (res) : s.runs[i]? = some r → As s (.run i (.hashed res)) (.checkPiece r.piece res)
  | completed {i r} : s.runs[i]? = some r → As s (.run i .completed) (.onPieceCompleted r.piece)

theorem recv_step {peer : PeerHandle} {m : PieceMsg} (h : step fs s (.recv peer m) = some s') :
    ∃ r : WriteRun l, r.peer = peer ∧ r.phase = .received ∧ s' = ⟨s.pieces, s.runs ++ [r]⟩ := by
  simp only [step] at h
  split at h
  · cases h
  next p hp =>
    split_ifs at h
    injection h with h
    exact ⟨⟨peer, m, p, hp, .received⟩, rfl, rfl, h.symm⟩

/-- A step of a run, taken apart. -/
theorem run_step {i : ℕ} {e : RunStep} (h : step fs s (.run i e) = some s') :
    ∃ r t ph, s.runs[i]? = some r ∧ r.Moves fs s.pieces e t ph ∧
      s' = ⟨t, s.runs.set i { r with phase := ph }⟩ := by
  obtain ⟨r, hr, h⟩ := Option.bind_eq_some_iff.1 h
  obtain ⟨x, hx, rfl⟩ := Option.map_eq_some_iff.1 h
  exact ⟨r, x.1, x.2, hr, WriteRun.next_moves hx, rfl⟩

theorem countP_set_phase {i : ℕ} {r : WriteRun l} (hr : s.runs[i]? = some r) (r' : WriteRun l)
    (f : WriteRun l → Bool) :
    (s.runs.set i r').countP f + (f r).toNat = s.runs.countP f + (f r').toNat := by
  obtain ⟨hi, rfl⟩ := List.getElem?_eq_some_iff.1 hr
  have hpos : f s.runs[i] = true → 0 < s.runs.countP f :=
    fun hf => List.countP_pos_iff.2 ⟨_, List.getElem_mem hi, hf⟩
  rw [List.countP_set hi]
  cases h1 : f s.runs[i] <;> cases h2 : f r' <;> simp
  · have := hpos h1
    omega
  · have := hpos h1
    omega

/-- A run that moves changes the counts of its own piece only. -/
theorem countP_piece {i : ℕ} {r : WriteRun l} (hr : s.runs[i]? = some r) (ph : Phase)
    (g : Phase → Bool) :
    (fun p => (s.runs.set i { r with phase := ph }).countP fun r => decide (r.piece = p) && g r.phase) =
      Function.update (fun p => s.runs.countP fun r => decide (r.piece = p) && g r.phase) r.piece
        ((s.runs.countP fun x => decide (x.piece = r.piece) && g x.phase) + (g ph).toNat -
          (g r.phase).toNat) := by
  funext p
  have h := countP_set_phase hr { r with phase := ph } fun r => decide (r.piece = p) && g r.phase
  by_cases hp : p = r.piece
  · subst hp
    simp only [decide_true, Bool.true_and] at h
    rw [Function.update_self]
    omega
  · have hne : r.piece ≠ p := fun he => hp he.symm
    simp only [decide_eq_false hne, Bool.false_and, Bool.toNat_false, Nat.add_zero] at h
    rw [Function.update_of_ne hp, h]

theorem tracker_set {i : ℕ} {r : WriteRun l} (hr : s.runs[i]? = some r) (t : PieceTracker l)
    (ph : Phase) :
    (tracker ⟨t, s.runs.set i { r with phase := ph }⟩) =
      { pieces := t
        hashing := Function.update s.tracker.hashing r.piece
          (s.tracker.hashing r.piece + ph.inWindow.toNat - r.phase.inWindow.toNat)
        completing := Function.update s.tracker.completing r.piece
          (s.tracker.completing r.piece + (decide (ph = .completing)).toNat -
            (decide (r.phase = .completing)).toNat) } :=
  LiveTracker.ext rfl (countP_piece hr ph Phase.inWindow)
    (countP_piece hr ph fun ph => decide (ph = .completing))

theorem tracker_set_same {i : ℕ} {r : WriteRun l} (hr : s.runs[i]? = some r) {ph : Phase}
    (hw : ph.inWindow = r.phase.inWindow)
    (hc : decide (ph = .completing) = decide (r.phase = .completing)) :
    tracker ⟨s.pieces, s.runs.set i { r with phase := ph }⟩ = s.tracker := by
  rw [tracker_set hr, hw, hc]
  simp only [Nat.add_sub_cancel, Function.update_eq_self]
  rfl

theorem hashing_pos {i : ℕ} {r : WriteRun l} (hr : s.runs[i]? = some r)
    (hw : r.phase.inWindow = true) : 0 < s.tracker.hashing r.piece :=
  List.countP_pos_iff.2 ⟨r, List.mem_of_getElem? hr, by simp [hw]⟩

theorem completing_pos {i : ℕ} {r : WriteRun l} (hr : s.runs[i]? = some r)
    (hc : r.phase = .completing) : 0 < s.tracker.completing r.piece :=
  List.countP_pos_iff.2 ⟨r, List.mem_of_getElem? hr, by simp [hc]⟩

/-- The steps of a run: each leaves the torrent as it is, or is a step of it. -/
theorem moves_sim {i : ℕ} {r : WriteRun l} {e : RunStep} {t : PieceTracker l} {ph : Phase}
    (hr : s.runs[i]? = some r) (hm : r.Moves fs s.pieces e t ph)
    (hs' : s' = ⟨t, s.runs.set i { r with phase := ph }⟩) :
    s'.tracker = s.tracker ∨ ∃ op, As s (.run i e) op ∧
      Torrent.step fs (.live s.tracker) op = some (.live s'.tracker) := by
  subst hs'
  cases hm with
  | pass hp => exact Or.inl (tracker_set_same hr (by simp [hp, Phase.inWindow]) (by simp [hp]))
  | ignore hp => exact Or.inl (tracker_set_same hr (by simp [hp, Phase.inWindow]) (by simp [hp]))
  | write ok hp =>
    refine Or.inl (tracker_set_same hr ?_ ?_) <;> cases ok <;> simp [hp, Phase.inWindow]
  | @mark now _ _ hp hph hmark _ _ _ =>
    refine Or.inr ⟨_, .mark now hr, ?_⟩
    have hne : ph ≠ .completing := by rcases hph with rfl | ⟨b, rfl⟩ <;> simp
    have heq : s.tracker.markChunk r.msg now = _ := hmark s.tracker.hashing s.tracker.completing
    change some (Torrent.live (s.tracker.markChunk r.msg now)) = _
    rw [heq, tracker_set hr]
    cases hw : ph.inWindow <;> simp [hp, hne, Phase.inWindow]
  | unlock taken hp =>
    refine Or.inl (tracker_set_same hr ?_ ?_) <;> cases taken <;> simp [hp, Phase.inWindow]
  | hashOk hp =>
    refine Or.inr ⟨_, .hashed .ok hr, ?_⟩
    have hpos := hashing_pos hr (by simp [hp, Phase.inWindow])
    rw [Torrent.step, if_pos hpos, tracker_set hr]
    simp [hp, Phase.inWindow, LiveTracker.checkPiece, tracker]
  | hashFailed hp =>
    refine Or.inr ⟨_, .hashed .failed hr, ?_⟩
    have hpos := hashing_pos hr (by simp [hp, Phase.inWindow])
    rw [Torrent.step, if_pos hpos, tracker_set hr]
    simp [hp, Phase.inWindow, LiveTracker.checkPiece, tracker]
  | hashIoError hp =>
    refine Or.inr ⟨_, .hashed .ioError hr, ?_⟩
    have hpos := hashing_pos hr (by simp [hp, Phase.inWindow])
    rw [Torrent.step, if_pos hpos, tracker_set hr]
    simp [hp, Phase.inWindow, LiveTracker.checkPiece, tracker]
  | completed hp =>
    refine Or.inr ⟨_, .completed hr, ?_⟩
    rw [Torrent.step, if_pos (completing_pos hr hp), tracker_set hr]
    simp [hp, Phase.inWindow, LiveTracker.onPieceCompleted, tracker]

/-- Every step of the runs leaves the torrent as it is, or is a step of it. -/
theorem step_sim {op : WriteOp l} (h : step fs s op = some s') :
    s'.tracker = s.tracker ∨ ∃ top, As s op top ∧
      Torrent.step fs (.live s.tracker) top = some (.live s'.tracker) := by
  cases op with
  | acquire req => injection h with h; subst h; exact Or.inr ⟨_, .acquire req, rfl⟩
  | recv peer m =>
    obtain ⟨r, -, hp, rfl⟩ := recv_step h
    left
    refine LiveTracker.ext rfl (funext fun p => ?_) (funext fun p => ?_) <;>
      simp [tracker, List.countP_append, hp, Phase.inWindow]
  | run i e =>
    obtain ⟨r, t, ph, hr, hm, hs'⟩ := run_step h
    exact moves_sim hr hm hs'
  | die a => injection h with h; subst h; exact Or.inr ⟨_, .die a, rfl⟩
  | updateOnlyFiles only => injection h with h; subst h; exact Or.inr ⟨_, .update only, rfl⟩

end Writes

end Rtbit
