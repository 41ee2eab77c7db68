import Rtbit.Lib.Runs
import Rtbit.Spec.TorrentState

/-! What each event does to a `ManagedTorrent`. -/

namespace Rtbit

open Lib

namespace ManagedTorrent

variable {t t' : ManagedTorrent}

/-- `_start` leaves the torrent alone, or spawns a task after at most one assignment. -/
inductive StartStep (t : ManagedTorrent) (start : ℕ) (startPaused : Bool) (w : StateWriter) :
    ManagedTorrent → Prop
  | nothing : StartStep t start startPaused w t
  | init {i} : t.state = .initializing i →
      StartStep t start startPaused w (t.spawn ⟨start, .init startPaused, .suspended⟩)
  | live : t.state = .paused →
      StartStep t start startPaused w
        ((setState { t with lives := t.lives ++ [⟨start, true, false⟩] }
          (.live t.lives.length) w).spawn ⟨start, .fatal t.lives.length false, .suspended⟩)
  | reinit : t.state = .error →
      StartStep t start startPaused w
        ((setState { t with inits := t.inits + 1 } (.initializing t.inits) w).spawn
          ⟨start, .init startPaused, .suspended⟩)

theorem startInner_cases (t : ManagedTorrent) (start : ℕ) (startPaused storageFails : Bool)
    (w : StateWriter) :
    StartStep t start startPaused w (t.startInner start startPaused storageFails w).2 := by
  unfold startInner
  cases hs : t.state with
  | live l => exact .nothing
  | initializing i => exact .init hs
  | paused =>
    cases startPaused with
    | true => exact .nothing
    | false => exact .live hs
  | error =>
    cases storageFails with
    | true => exact .nothing
    | false => exact .reinit hs
  | none => exact .nothing

/-- The steps, with the state that each needs. -/
inductive TorrentStep (t : ManagedTorrent) : TorrentEvent → ManagedTorrent → Prop
  | start {startPaused storageFails t'} :
      StartStep { t with paused := startPaused, tokens := t.tokens ++ [⟨t.generation, false⟩] }
        t.tokens.length startPaused .caller t' →
      TorrentStep t (.start startPaused storageFails) t'
  | pauseLive {live} : t.state = .live live →
      TorrentStep t (.pause false) { (t.livePause live).setState .paused .caller with
        paused := true, pausedStarts := (t.livePause live).tokens.length }
  | pauseLiveFails {live} : t.state = .live live → TorrentStep t (.pause true) (t.livePause live)
  | pauseInit {i liveFails} : t.state = .initializing i →
      TorrentStep t (.pause liveFails) { t.setState .error .caller with
        generation := t.generation + 1, paused := true, pausedStarts := t.tokens.length }
  | pauseNothing {liveFails} : t.state = .paused ∨ t.state = .error ∨ t.state = .none →
      TorrentStep t (.pause liveFails) t
  | updateOnlyFiles : TorrentStep t .updateOnlyFiles t
  | fatalSent {live l k} : t.lives[live]? = some l →
      TorrentStep t (.fatalError live) { t with
        lives := t.lives.set live { l with fatalErrorsTx := false },
        tasks := t.tasks.modify k fun task => { task with kind := .fatal live true } }
  | fatalDead {live l} : t.lives[live]? = some l →
      TorrentStep t (.fatalError live)
        (cancelStart { t with lives := t.lives.set live { l with fatalErrorsTx := false } } l.start)
  | resume {k task} : t.tasks[k]? = some task → task.phase = .suspended →
      TorrentStep t (.resume k) (t.setPhase k .running)
  | resumeEnds {k task} : t.tasks[k]? = some task → task.phase = .suspended →
      TorrentStep t (.resume k) (t.setPhase k .ended)
  | suspend {k task} : t.tasks[k]? = some task → task.phase = .running →
      TorrentStep t (.suspend k) (t.setPhase k .suspended)
  | drop {k task} : t.tasks[k]? = some task → TorrentStep t (.drop k) (t.setPhase k .ended)
  | checkOk {k start startPaused i t'} :
      t.tasks[k]? = some ⟨start, .init startPaused, .running⟩ → t.state = .initializing i →
      StartStep ((t.setPhase k .ended).setState .paused (.task start)) start startPaused
        (.task start) t' →
      TorrentStep t (.checkDone k true) t'
  | checkLate {k start startPaused} :
      t.tasks[k]? = some ⟨start, .init startPaused, .running⟩ →
      TorrentStep t (.checkDone k true) (t.setPhase k .ended)
  | checkErr {k start startPaused} :
      t.tasks[k]? = some ⟨start, .init startPaused, .running⟩ →
      TorrentStep t (.checkDone k false) ((t.setPhase k .ended).setState .error (.task start))
  | stop {k start live sent} : t.tasks[k]? = some ⟨start, .fatal live sent, .running⟩ →
      TorrentStep t (.stop k) ((t.setPhase k .ended).stopWithError (.task start))

theorem step_cases {e : TorrentEvent} (h : t.step e = some t') : TorrentStep t e t' := by
  cases e with
  | start startPaused storageFails =>
    obtain rfl := Option.some.inj h
    exact .start (startInner_cases _ _ _ _ _)
  | pause liveFails =>
    obtain rfl := Option.some.inj h
    unfold pause
    cases hs : t.state with
    | live l =>
      cases liveFails with
      | true => exact .pauseLiveFails hs
      | false => exact .pauseLive hs
    | initializing i => exact .pauseInit hs
    | paused => exact .pauseNothing (Or.inl hs)
    | error => exact .pauseNothing (Or.inr (Or.inl hs))
    | none => exact .pauseNothing (Or.inr (Or.inr hs))
  | updateOnlyFiles =>
    obtain rfl := Option.some.inj h
    exact .updateOnlyFiles
  | fatalError live =>
    rw [step, onFatalError] at h
    cases hl : t.lives[live]? with
    | none => simp [hl] at h
    | some l =>
      simp only [hl] at h
      rw [Option.ite_none_right_eq_some] at h
      obtain ⟨-, h⟩ := h
      split at h
      · obtain rfl := Option.some.inj h
        exact .fatalSent hl
      · obtain rfl := Option.some.inj h
        exact .fatalDead hl
  | resume k =>
    rw [step, resume] at h
    split at h
    · next hk =>
      obtain rfl := Option.some.inj h
      exact .resume hk rfl
    · next hk =>
      split_ifs at h with hsent
      · obtain rfl := Option.some.inj h
        exact .resume hk rfl
      · split at h
        · obtain rfl := Option.some.inj h
          exact .resumeEnds hk rfl
        · cases h
    · cases h
  | suspend k =>
    rw [step] at h
    split at h
    · next hk =>
      obtain rfl := Option.some.inj h
      exact .suspend hk rfl
    · cases h
  | drop k =>
    rw [step] at h
    split at h
    · next hk =>
      split_ifs at h
      obtain rfl := Option.some.inj h
      exact .drop hk
    · cases h
  | checkDone k ok =>
    rw [step] at h
    split at h
    · next start startPaused hk =>
      obtain rfl := Option.some.inj h
      cases ok with
      | false => exact .checkErr hk
      | true =>
        simp only [checkDone, if_true]
        split
        · next i hs => exact .checkOk hk hs (startInner_cases _ _ _ _ _)
        · exact .checkLate hk
    · cases h
  | stop k =>
    rw [step] at h
    split at h
    · next hk =>
      obtain rfl := Option.some.inj h
      exact .stop hk
    · cases h

/-! `TorrentStateLive::pause`. -/

theorem livePause_cases (t : ManagedTorrent) (live : ℕ) :
    t.lives[live]? = none ∧ t.livePause live = t ∨
    ∃ l, t.lives[live]? = some l ∧ t.livePause live = { t.cancelStart l.start with
      lives := t.lives.set live { l with fatalErrorsTx := false, pauseCalled := true } } := by
  unfold livePause
  cases hl : t.lives[live]? with
  | none => exact Or.inl ⟨rfl, rfl⟩
  | some l => exact Or.inr ⟨l, rfl, rfl⟩

@[simp] theorem livePause_state (t : ManagedTorrent) (live : ℕ) :
    (t.livePause live).state = t.state := by
  obtain ⟨-, h⟩ | ⟨l, -, h⟩ := livePause_cases t live <;> rw [h]
  rfl

@[simp] theorem livePause_paused (t : ManagedTorrent) (live : ℕ) :
    (t.livePause live).paused = t.paused := by
  obtain ⟨-, h⟩ | ⟨l, -, h⟩ := livePause_cases t live <;> rw [h]
  rfl

@[simp] theorem livePause_history (t : ManagedTorrent) (live : ℕ) :
    (t.livePause live).history = t.history := by
  obtain ⟨-, h⟩ | ⟨l, -, h⟩ := livePause_cases t live <;> rw [h]
  rfl

@[simp] theorem livePause_tasks (t : ManagedTorrent) (live : ℕ) :
    (t.livePause live).tasks = t.tasks := by
  obtain ⟨-, h⟩ | ⟨l, -, h⟩ := livePause_cases t live <;> rw [h]
  rfl

@[simp] theorem livePause_tokens_length (t : ManagedTorrent) (live : ℕ) :
    (t.livePause live).tokens.length = t.tokens.length := by
  obtain ⟨-, h⟩ | ⟨l, -, h⟩ := livePause_cases t live <;> rw [h]
  simp [cancelStart]

@[simp] theorem livePause_lives_length (t : ManagedTorrent) (live : ℕ) :
    (t.livePause live).lives.length = t.lives.length := by
  obtain ⟨-, h⟩ | ⟨l, -, h⟩ := livePause_cases t live <;> rw [h]
  exact List.length_set

end ManagedTorrent

end Rtbit
