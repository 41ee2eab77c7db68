import Rtbit.Sanity.TorrentState

/-! The transitions that are documented at `ManagedTorrentState`. The callers keep to them; a task
of `start` does when the state it finds is the one it was spawned for. -/

namespace Rtbit

open Lib

/-- "State machine transitions." -/
def ManagedTorrentState.Documented : ManagedTorrentState → ManagedTorrentState → Prop
  | .error, .initializing _ => True
  | .initializing _, .paused => True
  | .paused, .live _ => True
  | .live _, .paused => True
  | .initializing _, .error => True
  | .live _, .error => True
  | _, _ => False

def ManagedTorrentState.isInitializing : ManagedTorrentState → Bool
  | .initializing _ => true
  | _ => false

def ManagedTorrentState.isLive : ManagedTorrentState → Bool
  | .live _ => true
  | _ => false

theorem ManagedTorrentState.isInitializing_iff {st : ManagedTorrentState} :
    st.isInitializing = true ↔ ∃ i, st = .initializing i := by
  cases st <;> simp [isInitializing]

theorem ManagedTorrentState.isLive_iff {st : ManagedTorrentState} :
    st.isLive = true ↔ ∃ live, st = .live live := by
  cases st <;> simp [isLive]

namespace ManagedTorrent

variable {t t' : ManagedTorrent}

/-- `TorrentStateLive::pause` was called on the live state. -/
def PauseCalled (t : ManagedTorrent) (live : ℕ) : Prop :=
  ∃ l, t.lives[live]? = some l ∧ l.pauseCalled = true

/-- The state is never `None`, its values follow the documented transitions, and a live state is
left after its `pause` was called. -/
structure KeepsMachine (t : ManagedTorrent) : Prop where
  not_none : t.state ≠ .none
  documented : (t.history.map Prod.fst).IsChain ManagedTorrentState.Documented
  pauseCalled : ∀ i live w, t.history[i]? = some (.live live, w) → i + 1 < t.history.length →
    t.PauseCalled live

structure MachineInv (t : ManagedTorrent) : Prop extends KeepsMachine t where
  last : ∃ w, t.history.getLast? = some (t.state, w)
  live_lt : ∀ live, t.state = .live live → live < t.lives.length

theorem machineInv_new (paused : Bool) : MachineInv (new paused) where
  not_none := by simp [new]
  documented := by simp [new]
  pauseCalled i live w hi hlt := by
    simp only [new, List.length_singleton] at hlt
    omega
  last := ⟨.caller, rfl⟩
  live_lt live h := by simp [new] at h

/-- What stays when no state is assigned. -/
theorem MachineInv.congr (h : MachineInv t) (hstate : t'.state = t.state)
    (hhistory : t'.history = t.history) (hlen : t.lives.length ≤ t'.lives.length)
    (hcalled : ∀ live, t.PauseCalled live → t'.PauseCalled live) : MachineInv t' where
  not_none := by rw [hstate]; exact h.not_none
  documented := by rw [hhistory]; exact h.documented
  pauseCalled i live w hi hlt := by
    rw [hhistory] at hi hlt
    exact hcalled live (h.pauseCalled i live w hi hlt)
  last := by rw [hhistory, hstate]; exact h.last
  live_lt live hl := (h.live_lt live (hstate ▸ hl)).trans_le hlen

/-- A documented assignment, after `pause` if a live state is left. -/
theorem MachineInv.setState (h : MachineInv t) (st : ManagedTorrentState) (w : StateWriter)
    (hd : t.state.Documented st) (hp : ∀ live, t.state = .live live → t.PauseCalled live)
    (hl : ∀ live, st = .live live → live < t.lives.length) : MachineInv (t.setState st w) where
  not_none := by
    rintro (rfl : st = .none)
    revert hd
    cases t.state <;> exact id
  documented := by
    rw [ManagedTorrent.setState, List.map_append, List.isChain_append]
    refine ⟨h.documented, List.isChain_singleton _, ?_⟩
    intro x hx y hy
    obtain ⟨w', hlast⟩ := h.last
    rw [List.getLast?_map, hlast] at hx
    obtain rfl : t.state = x := by simpa using hx
    obtain rfl : st = y := by simpa using hy
    exact hd
  pauseCalled i live w' hi hlt := by
    rw [ManagedTorrent.setState, List.length_append, List.length_singleton] at hlt
    have hi' : t.history[i]? = some (.live live, w') := by
      rw [← hi]
      exact (List.getElem?_append_left (by omega)).symm
    by_cases hlast : i + 1 < t.history.length
    · exact h.pauseCalled i live w' hi' hlast
    · obtain ⟨v, hv⟩ := h.last
      have hidx : i = t.history.length - 1 := by omega
      rw [List.getLast?_eq_getElem?, ← hidx, hi', Option.some.injEq, Prod.mk.injEq] at hv
      exact hp live hv.1.symm
  last := ⟨w, by simp [ManagedTorrent.setState]⟩
  live_lt live h := hl live h

theorem PauseCalled.livePause {live : ℕ} (h : t.PauseCalled live) (live' : ℕ) :
    (t.livePause live').PauseCalled live := by
  obtain ⟨l, hl, hc⟩ := h
  obtain ⟨-, he⟩ | ⟨l', hl', he⟩ := livePause_cases t live'
  · rw [he]
    exact ⟨l, hl, hc⟩
  · rw [PauseCalled, he]
    by_cases hll : live' = live
    · subst hll
      exact ⟨_, List.getElem?_set_self (List.getElem?_eq_some_iff.1 hl).1, rfl⟩
    · exact ⟨l, by rw [List.getElem?_set_ne hll]; exact hl, hc⟩

theorem pauseCalled_livePause {live : ℕ} (h : live < t.lives.length) :
    (t.livePause live).PauseCalled live := by
  obtain ⟨hn, -⟩ | ⟨l, hl, he⟩ := livePause_cases t live
  · rw [List.getElem?_eq_getElem h] at hn
    cases hn
  · rw [PauseCalled, he]
    exact ⟨_, List.getElem?_set_self h, rfl⟩

theorem MachineInv.livePause (h : MachineInv t) (live : ℕ) : MachineInv (t.livePause live) :=
  h.congr (livePause_state t live) (livePause_history t live) (livePause_lives_length t live).ge
    fun _ hc => hc.livePause live

/-- The state is left for `st`, and `pause` is called first if it is live. -/
theorem MachineInv.leaveLive (h : MachineInv t) {live : ℕ} (hs : t.state = .live live)
    {st : ManagedTorrentState} (w : StateWriter) (hst : st = .paused ∨ st = .error) :
    MachineInv ((t.livePause live).setState st w) := by
  refine (h.livePause live).setState st w ?_ ?_ ?_
  · rw [livePause_state, hs]
    rcases hst with rfl | rfl <;> trivial
  · intro live' hl
    rw [livePause_state, hs, ManagedTorrentState.live.injEq] at hl
    rw [← hl]
    exact pauseCalled_livePause (h.live_lt live hs)
  · rintro live' rfl
    rcases hst with hst | hst <;> cases hst

/-- The state is not live, and is left for `st`. -/
theorem MachineInv.leave (h : MachineInv t) (st : ManagedTorrentState) (w : StateWriter)
    (hs : ∀ live, t.state ≠ .live live) (hd : t.state.Documented st)
    (hst : ∀ live, st ≠ .live live) : MachineInv (t.setState st w) :=
  h.setState st w hd (fun live hl => absurd hl (hs live)) fun live hl => absurd hl (hst live)

theorem MachineInv.startStep {start : ℕ} {startPaused : Bool} {w : StateWriter}
    (hs : StartStep t start startPaused w t') (h : MachineInv t) : MachineInv t' := by
  induction hs with
  | nothing => exact h
  | init => exact h.congr rfl rfl le_rfl fun _ hc => hc
  | live hst =>
    have hlives : MachineInv { t with lives := t.lives ++ [⟨start, true, false⟩] } := by
      refine h.congr rfl rfl (by simp) ?_
      rintro live ⟨l, hl, hc⟩
      exact ⟨l, by rw [List.getElem?_append_left (List.getElem?_eq_some_iff.1 hl).1]; exact hl, hc⟩
    refine (hlives.setState (.live t.lives.length) w ?_ ?_ ?_).congr rfl rfl le_rfl fun _ hc => hc
    · rw [hst]
      trivial
    · intro live hl
      rw [hst] at hl
      cases hl
    · intro live hl
      rw [ManagedTorrentState.live.injEq] at hl
      simp [← hl]
  | reinit hst =>
    have hinits : MachineInv { t with inits := t.inits + 1 } :=
      h.congr rfl rfl le_rfl fun _ hc => hc
    refine (hinits.leave (.initializing t.inits) w ?_ ?_ ?_).congr rfl rfl le_rfl fun _ hc => hc
    · simp [hst]
    · rw [hst]
      trivial
    · simp

theorem MachineInv.stopWithError (h : MachineInv t) (w : StateWriter)
    (hst : t.state.isLive = true ∨ t.state.isInitializing = true) :
    MachineInv (t.stopWithError w) := by
  unfold ManagedTorrent.stopWithError
  rcases hst with hst | hst
  · obtain ⟨live, hst⟩ := ManagedTorrentState.isLive_iff.1 hst
    simp only [hst]
    exact h.leaveLive hst w (Or.inr rfl)
  · obtain ⟨i, hst⟩ := ManagedTorrentState.isInitializing_iff.1 hst
    simp only [hst]
    refine h.leave .error w ?_ ?_ ?_
    · simp [hst]
    · rw [hst]
      trivial
    · simp

/-- A failed `check()` finds the torrent initializing, and a fatal error finds it live or
initializing. -/
def ErrorsInTime (t : ManagedTorrent) : TorrentEvent → Prop
  | .checkDone _ ok => ok = false → t.state.isInitializing = true
  | .stop _ => t.state.isLive = true ∨ t.state.isInitializing = true
  | _ => True

instance (t : ManagedTorrent) (e : TorrentEvent) : Decidable (ErrorsInTime t e) :=
  match e with
  | .checkDone _ ok => inferInstanceAs (Decidable (ok = false → t.state.isInitializing = true))
  | .stop _ =>
    inferInstanceAs (Decidable (t.state.isLive = true ∨ t.state.isInitializing = true))
  | .start _ _ | .pause _ | .updateOnlyFiles | .fatalError _ | .resume _ | .suspend _ | .drop _ =>
    isTrue trivial

theorem MachineInv.step {e : TorrentEvent} (h : MachineInv t) (hok : ErrorsInTime t e)
    (hs : TorrentStep t e t') : MachineInv t' := by
  have hphase (k : ℕ) (phase : TaskPhase) : MachineInv (t.setPhase k phase) :=
    h.congr rfl rfl le_rfl fun _ hc => hc
  have hfatal {live : ℕ} {l : LiveInfo} (hl : t.lives[live]? = some l) (n : ℕ)
      (hn : t.PauseCalled n) : ∃ l', (t.lives.set live { l with fatalErrorsTx := false })[n]? =
        some l' ∧ l'.pauseCalled = true := by
    obtain ⟨l', hl', hc⟩ := hn
    by_cases hne : live = n
    · subst hne
      obtain rfl : l = l' := Option.some.inj (hl.symm.trans hl')
      exact ⟨_, List.getElem?_set_self (List.getElem?_eq_some_iff.1 hl).1, hc⟩
    · exact ⟨l', by rw [List.getElem?_set_ne hne]; exact hl', hc⟩
  induction hs with
  | start hs => exact MachineInv.startStep hs (h.congr rfl rfl le_rfl fun _ hc => hc)
  | pauseLive hst =>
    exact (h.leaveLive hst .caller (Or.inl rfl)).congr rfl rfl le_rfl fun _ hc => hc
  | pauseLiveFails => exact h.livePause _
  | pauseInit hst =>
    refine (h.leave .error .caller ?_ ?_ ?_).congr rfl rfl le_rfl fun _ hc => hc
    · simp [hst]
    · rw [hst]
      trivial
    · simp
  | pauseNothing => exact h
  | updateOnlyFiles => exact h
  | fatalSent hl => exact h.congr rfl rfl (by simp) (hfatal hl)
  | fatalDead hl => exact h.congr rfl rfl (by simp [cancelStart]) (hfatal hl)
  | resume | resumeEnds | suspend | drop | checkLate => exact hphase _ _
  | checkOk hk hst hs =>
    refine MachineInv.startStep hs ((hphase _ _).leave _ _ ?_ ?_ ?_)
    · simp [ManagedTorrent.setPhase, hst]
    · simp only [ManagedTorrent.setPhase, hst]
      trivial
    · simp
  | checkErr hk =>
    obtain ⟨i, hst⟩ := ManagedTorrentState.isInitializing_iff.1 (hok rfl)
    refine (hphase _ _).leave _ _ ?_ ?_ ?_
    · simp [ManagedTorrent.setPhase, hst]
    · simp only [ManagedTorrent.setPhase, hst]
      trivial
    · simp
  | stop hk => exact (hphase _ _).stopWithError _ hok

/-- In a run in which the errors of the tasks come in time, the state is never `None`, its values
follow the documented transitions, and no live state is left without its `pause`. -/
theorem documented_transitions {paused : Bool} {evs : List TorrentEvent}
    (h : Run ManagedTorrent.step ErrorsInTime (new paused) evs t) : KeepsMachine t :=
  (h.inv MachineInv (machineInv_new paused)
    fun _ _ _ hi hok hs => hi.step hok (step_cases hs)).toKeepsMachine

/-- A fatal error of a live torrent. -/
theorem fatalError_documented :
    ∃ t, Run ManagedTorrent.step ErrorsInTime (new false)
        [.start false false, .resume 0, .checkDone 0 true, .fatalError 0, .resume 1, .stop 1] t ∧
      t.history.map Prod.fst = [.initializing 0, .paused, .live 0, .error] ∧ KeepsMachine t := by
  have hex : (exec ManagedTorrent.step ErrorsInTime (new false)
      [.start false false, .resume 0, .checkDone 0 true, .fatalError 0, .resume 1, .stop 1]).any
      (fun t => decide (t.history.map Prod.fst = [.initializing 0, .paused, .live 0, .error])) =
      true := by
    decide
  obtain ⟨t, hr, hq⟩ := Run.exists_of_exec hex
  exact ⟨t, hr, of_decide_eq_true hq, documented_transitions hr⟩

/-- A check that fails after a `pause`; one that fails after another one has made the torrent
live, which is then left without its `pause`; and a fatal error that comes after a `pause`. -/
theorem undocumented_transitions :
    (∃ t, Run ManagedTorrent.step Any (new false)
        [.start false false, .resume 0, .pause false, .checkDone 0 false] t ∧
      t.history.map Prod.fst = [.initializing 0, .error, .error] ∧ ¬ KeepsMachine t) ∧
    (∃ t, Run ManagedTorrent.step Any (new false)
        [.start false false, .start false false, .resume 0, .resume 1, .checkDone 0 true,
          .checkDone 1 false] t ∧
      t.history.map Prod.fst = [.initializing 0, .paused, .live 0, .error] ∧
      ¬ KeepsMachine t) ∧
    ∃ t, Run ManagedTorrent.step Any (new false)
        [.start false false, .resume 0, .checkDone 0 true, .fatalError 0, .resume 1, .pause false,
          .stop 1] t ∧
      t.history.map Prod.fst = [.initializing 0, .paused, .live 0, .paused, .error] ∧
      ¬ KeepsMachine t := by
  refine ⟨?_, ?_, ?_⟩
  · have hex : (exec ManagedTorrent.step Any (new false)
        [.start false false, .resume 0, .pause false, .checkDone 0 false]).any
        (fun t => decide (t.history.map Prod.fst = [.initializing 0, .error, .error])) = true := by
      decide
    obtain ⟨t, hr, hq⟩ := Run.exists_of_exec hex
    have hh := of_decide_eq_true hq
    refine ⟨t, hr, hh, fun hk => ?_⟩
    have hd := hk.documented
    rw [hh] at hd
    simp [ManagedTorrentState.Documented] at hd
  · have hex : (exec ManagedTorrent.step Any (new false)
        [.start false false, .start false false, .resume 0, .resume 1, .checkDone 0 true,
          .checkDone 1 false]).any
        (fun t => decide (t.history = [(.initializing 0, .caller), (.paused, .task 0),
          (.live 0, .task 0), (.error, .task 1)] ∧ t.lives = [⟨0, true, false⟩])) = true := by
      decide
    obtain ⟨t, hr, hq⟩ := Run.exists_of_exec hex
    obtain ⟨hh, hl⟩ := of_decide_eq_true hq
    refine ⟨t, hr, by rw [hh]; rfl, fun hk => ?_⟩
    obtain ⟨l, hlive, hc⟩ := hk.pauseCalled 2 0 (.task 0) (by rw [hh]; rfl) (by rw [hh]; decide)
    rw [hl] at hlive
    obtain rfl := Option.some.inj hlive
    cases hc
  · have hex : (exec ManagedTorrent.step Any (new false)
        [.start false false, .resume 0, .checkDone 0 true, .fatalError 0, .resume 1, .pause false,
          .stop 1]).any
        (fun t => decide (t.history.map Prod.fst =
          [.initializing 0, .paused, .live 0, .paused, .error])) = true := by
      decide
    obtain ⟨t, hr, hq⟩ := Run.exists_of_exec hex
    have hh := of_decide_eq_true hq
    refine ⟨t, hr, hh, fun hk => ?_⟩
    have hd := hk.documented
    rw [hh] at hd
    simp [ManagedTorrentState.Documented] at hd

end ManagedTorrent

end Rtbit
