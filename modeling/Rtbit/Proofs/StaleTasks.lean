import Rtbit.Sanity.TorrentState

/-! The tasks of an earlier start. A task assigns the state of the torrent without asking whose
state it replaces, so a `pause` that returned Ok is safe from them only if it finds them all at
an await point with a token that is cancelled, and if a cancelled task is never polled again. -/

namespace Rtbit

open Lib

namespace ManagedTorrent

variable {t t' t'' : ManagedTorrent}

/-! Tokens. -/

theorem cancelled_eq {n : ℕ} : t.cancelled n = true ↔
    ∃ token, t.tokens[n]? = some token ∧
      (token.cancelled = true ∨ token.generation < t.generation) := by
  unfold cancelled
  cases t.tokens[n]? <;> simp

theorem cancelled_cancelStart {m n : ℕ} (h : t.cancelled n = true) :
    (t.cancelStart m).cancelled n = true := by
  obtain ⟨token, hn, hc⟩ := cancelled_eq.1 h
  rw [cancelled_eq]
  by_cases hm : m = n
  · exact ⟨{ token with cancelled := true }, by simp [cancelStart, hm, hn], Or.inl rfl⟩
  · exact ⟨token, by simp [cancelStart, hm, hn], hc⟩

theorem cancelled_cancelStart_self {m : ℕ} (h : m < t.tokens.length) :
    (t.cancelStart m).cancelled m = true :=
  cancelled_eq.2 ⟨{ t.tokens[m] with cancelled := true }, by simp [cancelStart, h], Or.inl rfl⟩

/-! What the code that runs as one writer may change. -/

/-- The assignments made on the way from `t` to `t'` are all by `w`. -/
def Writes (t t' : ManagedTorrent) (w : StateWriter) : Prop :=
  ∃ new, t'.history = t.history ++ new ∧ ∀ x ∈ new, x.2 = w

theorem Writes.of_eq {w : StateWriter} (h : t'.history = t.history) : Writes t t' w :=
  ⟨[], by rw [h, List.append_nil], by simp⟩

theorem Writes.one {w : StateWriter} (st : ManagedTorrentState)
    (h : t'.history = t.history ++ [(st, w)]) : Writes t t' w :=
  ⟨[(st, w)], h, by simp⟩

theorem Writes.trans {w : StateWriter} (h₁ : Writes t t' w) (h₂ : Writes t' t'' w) :
    Writes t t'' w := by
  obtain ⟨new₁, e₁, hw₁⟩ := h₁
  obtain ⟨new₂, e₂, hw₂⟩ := h₂
  refine ⟨new₁ ++ new₂, by rw [e₂, e₁, List.append_assoc], ?_⟩
  intro x hx
  rcases List.mem_append.1 hx with hx | hx
  · exact hw₁ x hx
  · exact hw₂ x hx

theorem stopWithError_writes (t : ManagedTorrent) (w : StateWriter) :
    Writes t (t.stopWithError w) w := by
  unfold stopWithError
  split
  · refine Writes.one .error ?_
    rw [setState, livePause_history]
  · exact Writes.one _ rfl

theorem StartStep.writes {start : ℕ} {startPaused : Bool} {w : StateWriter}
    (h : StartStep t start startPaused w t') : Writes t t' w := by
  induction h with
  | nothing => exact Writes.of_eq rfl
  | init => exact Writes.of_eq rfl
  | live => exact Writes.one _ rfl
  | reinit => exact Writes.one _ rfl

/-- Only a caller or a running task assigns. -/
theorem TorrentStep.writes {e : TorrentEvent} (h : TorrentStep t e t') :
    Writes t t' .caller ∨ ∃ (k : ℕ) (task : TorrentTask), t.tasks[k]? = some task ∧
      task.phase = .running ∧ Writes t t' (.task task.start) := by
  induction h with
  | start hs => exact Or.inl (hs.writes)
  | @pauseLive live =>
    refine Or.inl (Writes.one .paused ?_)
    simp only [setState, livePause_history]
  | pauseLiveFails => exact Or.inl (Writes.of_eq (livePause_history t _))
  | pauseInit => exact Or.inl (Writes.one _ rfl)
  | pauseNothing | updateOnlyFiles | fatalSent | fatalDead | resume | resumeEnds | suspend
  | drop | checkLate => exact Or.inl (Writes.of_eq rfl)
  | checkOk hk _ hs => exact Or.inr ⟨_, _, hk, rfl, Writes.trans (Writes.one _ rfl) hs.writes⟩
  | checkErr hk => exact Or.inr ⟨_, _, hk, rfl, Writes.one _ rfl⟩
  | stop hk => exact Or.inr ⟨_, _, hk, rfl, stopWithError_writes (t.setPhase _ _) _⟩

/-! Which tasks are still able to act. -/

/-- A task with a cancelled token is not polled; and a `pause` that returns Ok finds every task at
an await point, with a token that is cancelled or that it cancels itself. -/
def TasksStopped (t : ManagedTorrent) : TorrentEvent → Prop
  | .resume k => ∀ task, t.tasks[k]? = some task → t.cancelled task.start = false
  | .pause liveFails =>
    match t.state with
    | .live live => liveFails = false → ∀ task ∈ t.tasks, task.phase ≠ .ended →
        task.phase = .suspended ∧ (t.cancelled task.start = true ∨
          (t.lives[live]?).map LiveInfo.start = some task.start)
    | .initializing _ => ∀ task ∈ t.tasks, task.phase ≠ .ended → task.phase = .suspended
    | _ => True
  | _ => True

instance (t : ManagedTorrent) (e : TorrentEvent) : Decidable (TasksStopped t e) :=
  match e with
  | .resume k =>
    decidable_of_iff (∀ task ∈ t.tasks[k]?, t.cancelled task.start = false)
      (by simp [TasksStopped, Option.mem_def])
  | .pause liveFails =>
    match hs : t.state with
    | .live live => decidable_of_iff (liveFails = false → ∀ task ∈ t.tasks, task.phase ≠ .ended →
        task.phase = .suspended ∧ (t.cancelled task.start = true ∨
          (t.lives[live]?).map LiveInfo.start = some task.start)) (by simp only [TasksStopped, hs])
    | .initializing _ => decidable_of_iff
        (∀ task ∈ t.tasks, task.phase ≠ .ended → task.phase = .suspended)
        (by simp only [TasksStopped, hs])
    | .paused | .error | .none => isTrue (by simp only [TasksStopped, hs])
  | .start _ _ | .updateOnlyFiles | .fatalError _ | .suspend _ | .drop _ | .checkDone _ _
  | .stop _ => isTrue trivial

structure StaleInv (t : ManagedTorrent) : Prop where
  start_lt : ∀ task ∈ t.tasks, task.start < t.tokens.length
  pausedStarts_le : t.pausedStarts ≤ t.tokens.length
  generation_le : ∀ token ∈ t.tokens, token.generation ≤ t.generation
  /-- A task from before the last `pause` has ended, or waits to be dropped. -/
  stale : ∀ task ∈ t.tasks, task.start < t.pausedStarts →
    task.phase = .ended ∨ task.phase = .suspended ∧ t.cancelled task.start = true

theorem staleInv_new (paused : Bool) : StaleInv (new paused) where
  start_lt task h := by cases h
  pausedStarts_le := le_rfl
  generation_le token h := by cases h
  stale task h := by cases h

/-- A step other than a `pause` that returns Ok: an old task ends or stays as it is, and new ones
are not from before the last `pause`. -/
theorem StaleInv.mono (h : StaleInv t) (htokens : t.tokens.length ≤ t'.tokens.length)
    (hpaused : t'.pausedStarts = t.pausedStarts)
    (hgeneration : ∀ token ∈ t'.tokens, token.generation ≤ t'.generation)
    (hcancelled : ∀ n, t.cancelled n = true → t'.cancelled n = true)
    (htasks : ∀ task ∈ t'.tasks, task.start < t'.tokens.length ∧
      (task.start < t.pausedStarts → task.phase = .ended ∨
        ∃ old ∈ t.tasks, old.start = task.start ∧ old.phase = task.phase)) : StaleInv t' where
  start_lt task ht := (htasks task ht).1
  pausedStarts_le := by rw [hpaused]; exact h.pausedStarts_le.trans htokens
  generation_le := hgeneration
  stale task ht hlt := by
    rw [hpaused] at hlt
    obtain hend | ⟨old, hold, hstart, hphase⟩ := (htasks task ht).2 hlt
    · exact Or.inl hend
    · rw [← hphase, ← hstart]
      rw [← hstart] at hlt
      rcases h.stale old hold hlt with ho | ⟨hs, hc⟩
      · exact Or.inl ho
      · exact Or.inr ⟨hs, hcancelled _ hc⟩

/-- The tasks are as they were. -/
theorem StaleInv.same_tasks (h : StaleInv t) (htokens : t.tokens.length ≤ t'.tokens.length)
    (hpaused : t'.pausedStarts = t.pausedStarts)
    (hgeneration : ∀ token ∈ t'.tokens, token.generation ≤ t'.generation)
    (hcancelled : ∀ n, t.cancelled n = true → t'.cancelled n = true)
    (htasks : t'.tasks = t.tasks) : StaleInv t' := by
  refine h.mono htokens hpaused hgeneration hcancelled ?_
  intro task ht
  rw [htasks] at ht
  exact ⟨(h.start_lt task ht).trans_le htokens, fun _ => Or.inr ⟨task, ht, rfl, rfl⟩⟩

theorem generation_cancelStart (h : ∀ token ∈ t.tokens, token.generation ≤ t.generation) {m : ℕ}
    {token : StartToken} (ht : token ∈ (t.cancelStart m).tokens) :
    token.generation ≤ t.generation := by
  obtain ⟨j, hj⟩ := List.mem_iff_getElem?.1 ht
  rw [cancelStart, List.getElem?_modify] at hj
  obtain ⟨old, hold, hmap⟩ := Option.map_eq_some_iff.1 hj
  have hle := h old (List.mem_of_getElem? hold)
  split_ifs at hmap
  · rw [← hmap]
    exact hle
  · rw [← hmap]
    exact hle

theorem StaleInv.livePause (h : StaleInv t) (live : ℕ) : StaleInv (t.livePause live) := by
  obtain ⟨-, he⟩ | ⟨l, -, he⟩ := livePause_cases t live
  · rw [he]
    exact h
  · rw [he]
    refine h.same_tasks (by simp [cancelStart]) rfl ?_ (fun n => cancelled_cancelStart) rfl
    exact fun token ht => generation_cancelStart h.generation_le ht

/-- One task changes: it ends, or keeps its phase, or is not from before the last `pause`. -/
theorem StaleInv.modifyTask (h : StaleInv t) (k : ℕ) {f : TorrentTask → TorrentTask}
    {lives : List LiveInfo} (hstart : ∀ task, (f task).start = task.start)
    (hphase : ∀ task, t.tasks[k]? = some task → (f task).phase = .ended ∨
      task.phase = (f task).phase ∨ t.pausedStarts ≤ task.start) :
    StaleInv { t with lives, tasks := t.tasks.modify k f } := by
  refine h.mono le_rfl rfl h.generation_le (fun _ hc => hc) ?_
  intro task' ht'
  obtain ⟨j, hj⟩ := List.mem_iff_getElem?.1 ht'
  rw [List.getElem?_modify] at hj
  obtain ⟨old, hold, hmap⟩ := Option.map_eq_some_iff.1 hj
  have hmem := List.mem_of_getElem? hold
  split_ifs at hmap with hkj
  · subst hkj hmap
    rw [hstart]
    refine ⟨h.start_lt old hmem, ?_⟩
    intro hlt
    rcases hphase old hold with he | he | hge
    · exact Or.inl he
    · exact Or.inr ⟨old, hmem, rfl, he⟩
    · exact absurd hlt (Nat.not_lt.2 hge)
  · subst hmap
    exact ⟨h.start_lt _ hmem, fun _ => Or.inr ⟨_, hmem, rfl, rfl⟩⟩

theorem StaleInv.setPhase (h : StaleInv t) {k : ℕ} {task : TorrentTask}
    (hk : t.tasks[k]? = some task) {phase : TaskPhase}
    (hphase : phase = .ended ∨ t.pausedStarts ≤ task.start) : StaleInv (t.setPhase k phase) := by
  refine h.modifyTask k (fun _ => rfl) ?_
  intro task' hk'
  obtain rfl : task = task' := Option.some.inj (hk.symm.trans hk')
  exact hphase.imp_right Or.inr

theorem StaleInv.spawn (h : StaleInv t) {task : TorrentTask} (hge : t.pausedStarts ≤ task.start)
    (hlt : task.start < t.tokens.length) : StaleInv (t.spawn task) := by
  refine h.mono le_rfl rfl h.generation_le (fun _ hc => hc) ?_
  intro task' ht'
  rcases List.mem_append.1 ht' with ht' | ht'
  · exact ⟨h.start_lt _ ht', fun _ => Or.inr ⟨_, ht', rfl, rfl⟩⟩
  · rw [List.mem_singleton.1 ht']
    exact ⟨hlt, fun h => absurd h (Nat.not_lt.2 hge)⟩

theorem StaleInv.startStep {start : ℕ} {startPaused : Bool} {w : StateWriter}
    (hs : StartStep t start startPaused w t') (h : StaleInv t) (hge : t.pausedStarts ≤ start)
    (hlt : start < t.tokens.length) : StaleInv t' := by
  induction hs with
  | nothing => exact h
  | init => exact h.spawn hge hlt
  | live | reinit =>
    refine StaleInv.spawn (t := setState _ _ _) ?_ hge hlt
    exact h.same_tasks le_rfl rfl h.generation_le (fun _ hc => hc) rfl

/-- A running task is from after the last `pause`. -/
theorem StaleInv.running (h : StaleInv t) {k : ℕ} {task : TorrentTask}
    (hk : t.tasks[k]? = some task) (hr : task.phase = .running) :
    t.pausedStarts ≤ task.start := by
  by_contra hlt
  rcases h.stale task (List.mem_of_getElem? hk) (Nat.not_le.1 hlt) with he | ⟨hs, -⟩
  · rw [hr] at he
    cases he
  · rw [hr] at hs
    cases hs

theorem StaleInv.stopWithError (h : StaleInv t) (w : StateWriter) :
    StaleInv (t.stopWithError w) := by
  unfold ManagedTorrent.stopWithError
  split
  · next live _ =>
    have hl := h.livePause live
    exact hl.same_tasks le_rfl rfl hl.generation_le (fun _ hc => hc) rfl
  · exact h.same_tasks le_rfl rfl h.generation_le (fun _ hc => hc) rfl

/-- A `pause` that returns Ok, after which every task has ended or waits to be dropped. -/
theorem StaleInv.pauseOk (h : StaleInv t) (htokens : t.tokens.length = t'.tokens.length)
    (hpaused : t'.pausedStarts = t'.tokens.length)
    (hgeneration : ∀ token ∈ t'.tokens, token.generation ≤ t'.generation)
    (htasks : t'.tasks = t.tasks)
    (hstopped : ∀ task ∈ t.tasks, task.phase ≠ .ended →
      task.phase = .suspended ∧ t'.cancelled task.start = true) : StaleInv t' where
  start_lt task ht := by
    rw [htasks] at ht
    rw [← htokens]
    exact h.start_lt task ht
  pausedStarts_le := hpaused.le
  generation_le := hgeneration
  stale task ht _ := by
    rw [htasks] at ht
    by_cases he : task.phase = .ended
    · exact Or.inl he
    · exact Or.inr (hstopped task ht he)

theorem StaleInv.pauseInit (h : StaleInv t) {i : ℕ} (hs : t.state = .initializing i)
    {liveFails : Bool} (hok : TasksStopped t (.pause liveFails)) :
    StaleInv { t.setState .error .caller with
      generation := t.generation + 1, paused := true, pausedStarts := t.tokens.length } := by
  refine h.pauseOk rfl rfl ?_ rfl ?_
  · intro token ht
    exact (h.generation_le token ht).trans (Nat.le_succ _)
  · intro task ht he
    simp only [TasksStopped, hs] at hok
    refine ⟨hok task ht he, cancelled_eq.2 ?_⟩
    have hlt := h.start_lt task ht
    refine ⟨t.tokens[task.start], List.getElem?_eq_getElem hlt, Or.inr ?_⟩
    exact Nat.lt_succ_of_le (h.generation_le _ (List.getElem_mem hlt))

theorem StaleInv.pauseLive (h : StaleInv t) {live : ℕ} (hs : t.state = .live live)
    (hok : TasksStopped t (.pause false)) :
    StaleInv { (t.livePause live).setState .paused .caller with
      paused := true, pausedStarts := (t.livePause live).tokens.length } := by
  simp only [TasksStopped, hs, forall_const] at hok
  have hl := h.livePause live
  refine h.pauseOk (livePause_tokens_length t live).symm rfl hl.generation_le
    (livePause_tasks t live) ?_
  intro task ht he
  obtain ⟨hsusp, hc⟩ := hok task ht he
  refine ⟨hsusp, ?_⟩
  have hlt := h.start_lt task ht
  obtain ⟨hnone, hsame⟩ | ⟨l, hlive, hpause⟩ := livePause_cases t live
  · rw [hnone] at hc
    rw [hsame]
    exact hc.resolve_right (by simp)
  · rw [hpause]
    rcases hc with hc | hc
    · exact cancelled_cancelStart hc
    · rw [hlive, Option.map_some, Option.some.injEq] at hc
      rw [← hc] at hlt ⊢
      exact cancelled_cancelStart_self hlt

theorem StaleInv.step {e : TorrentEvent} (h : StaleInv t) (hok : TasksStopped t e)
    (hs : TorrentStep t e t') : StaleInv t' := by
  induction hs with
  | start hs =>
    refine StaleInv.startStep hs ?_ h.pausedStarts_le (by simp)
    refine h.same_tasks (by simp) rfl ?_ ?_ rfl
    · intro token ht
      rcases List.mem_append.1 ht with ht | ht
      · exact h.generation_le token ht
      · rw [List.mem_singleton.1 ht]
    · intro n hc
      obtain ⟨token, hn, hc⟩ := cancelled_eq.1 hc
      refine cancelled_eq.2 ⟨token, ?_, hc⟩
      exact List.getElem?_append_left (List.getElem?_eq_some_iff.1 hn).1 ▸ hn
  | pauseLive hs => exact h.pauseLive hs hok
  | pauseLiveFails => exact h.livePause _
  | pauseInit hs => exact h.pauseInit hs hok
  | pauseNothing => exact h
  | updateOnlyFiles => exact h
  | fatalSent => exact h.modifyTask _ (fun _ => rfl) fun _ _ => Or.inr (Or.inl rfl)
  | fatalDead =>
    refine h.same_tasks (by simp [cancelStart]) rfl ?_ (fun n hc => cancelled_cancelStart hc) rfl
    exact fun token ht => generation_cancelStart h.generation_le ht
  | resume hk hp =>
    refine h.setPhase hk (Or.inr ?_)
    by_contra hlt
    rcases h.stale _ (List.mem_of_getElem? hk) (Nat.not_le.1 hlt) with he | ⟨-, hc⟩
    · rw [hp] at he
      cases he
    · rw [hok _ hk] at hc
      cases hc
  | resumeEnds hk => exact h.setPhase hk (Or.inl rfl)
  | suspend hk hp => exact h.setPhase hk (Or.inr (h.running hk hp))
  | drop hk => exact h.setPhase hk (Or.inl rfl)
  | checkOk hk hst hs =>
    have hge := h.running hk rfl
    have hlt := h.start_lt _ (List.mem_of_getElem? hk)
    refine StaleInv.startStep hs ?_ hge hlt
    exact (h.setPhase hk (Or.inl rfl)).same_tasks le_rfl rfl h.generation_le (fun _ hc => hc) rfl
  | checkLate hk => exact h.setPhase hk (Or.inl rfl)
  | checkErr hk =>
    exact (h.setPhase hk (Or.inl rfl)).same_tasks le_rfl rfl h.generation_le (fun _ hc => hc) rfl
  | stop hk => exact (h.setPhase hk (Or.inl rfl)).stopWithError _

/-- In a run in which no cancelled task is polled and every `pause` that returns Ok finds the
tasks stopped, no task of a start from before such a `pause` assigns the state any more. -/
theorem stale_tasks_do_not_assign {paused : Bool} {evs : List TorrentEvent}
    (h : Run step TasksStopped (new paused) evs t) {e : TorrentEvent} (hs : t.step e = some t') :
    ∃ new, t'.history = t.history ++ new ∧
      ∀ st n, (st, .task n) ∈ new → t.pausedStarts ≤ n := by
  have hinv : StaleInv t :=
    h.inv StaleInv (staleInv_new paused) fun _ _ _ hi hok hs => hi.step hok (step_cases hs)
  obtain ⟨new, hnew, hw⟩ | ⟨k, task, hk, hr, new, hnew, hw⟩ := (step_cases hs).writes
  · refine ⟨new, hnew, ?_⟩
    intro st n hmem
    cases hw _ hmem
  · refine ⟨new, hnew, ?_⟩
    intro st n hmem
    obtain rfl : n = task.start := StateWriter.task.inj (hw _ hmem)
    exact hinv.running hk hr

/-- Paused while it waits to initialize, and started again. -/
theorem restarted_not_overwritten :
    ∃ t t', Run step TasksStopped (new false)
        [.start false false, .pause false, .drop 0, .start false false, .resume 1] t ∧
      t.pausedStarts = 1 ∧ t.step (.checkDone 1 true) = some t' ∧
      ∃ new, t'.history = t.history ++ new ∧ ∀ st n, (st, .task n) ∈ new → t.pausedStarts ≤ n := by
  have hex : (exec step TasksStopped (new false)
      [.start false false, .pause false, .drop 0, .start false false, .resume 1]).any
      (fun t => decide (t.pausedStarts = 1) && (t.step (.checkDone 1 true)).isSome) = true := by
    decide
  obtain ⟨t, hr, hq⟩ := Run.exists_of_exec hex
  rw [Bool.and_eq_true, decide_eq_true_eq] at hq
  obtain ⟨t', ht'⟩ := Option.isSome_iff_exists.1 hq.2
  exact ⟨t, t', hr, hq.1, ht', stale_tasks_do_not_assign hr ht'⟩

/-- After the events `evs`, which end with the torrent paused or started again, a task of the
first start assigns `new`. -/
def ActsStale (evs : List TorrentEvent) (e : TorrentEvent)
    (new : List (ManagedTorrentState × StateWriter)) : Bool :=
  (exec step Any (ManagedTorrent.new false) evs).any fun t =>
    decide (t.pausedStarts = 1) &&
      (t.step e).any fun t' => decide (t'.history = t.history ++ new)

theorem ActsStale.run {evs : List TorrentEvent} {e : TorrentEvent}
    {new : List (ManagedTorrentState × StateWriter)} (h : ActsStale evs e new = true) :
    ∃ t t', Run step Any (ManagedTorrent.new false) evs t ∧ t.pausedStarts = 1 ∧
      t.step e = some t' ∧ t'.history = t.history ++ new := by
  obtain ⟨t, hr, hq⟩ := Run.exists_of_exec h
  rw [Bool.and_eq_true, decide_eq_true_eq] at hq
  obtain ⟨t', ht', hh⟩ := (Option.any_eq_true _ _).1 hq.2
  exact ⟨t, t', hr, hq.1, ht', of_decide_eq_true hh⟩

/-- The first start is in a blocking section of `check()` when the torrent is paused and started
again: its error replaces the new `Initializing`, or its result is installed into it. A fatal
error that was received when the torrent is paused replaces the new `Paused`. -/
theorem stale_tasks_assign :
    (∃ t t', Run step Any (new false)
        [.start false false, .resume 0, .pause false, .start false false] t ∧
      t.pausedStarts = 1 ∧ t.step (.checkDone 0 false) = some t' ∧
      t'.history = t.history ++ [(.error, .task 0)]) ∧
    (∃ t t', Run step Any (new false)
        [.start false false, .resume 0, .pause false, .start false false] t ∧
      t.pausedStarts = 1 ∧ t.step (.checkDone 0 true) = some t' ∧
      t'.history = t.history ++ [(.paused, .task 0), (.live 0, .task 0)]) ∧
    ∃ t t', Run step Any (new false)
        [.start false false, .resume 0, .checkDone 0 true, .fatalError 0, .resume 1,
          .pause false] t ∧
      t.pausedStarts = 1 ∧ t.step (.stop 1) = some t' ∧
      t'.history = t.history ++ [(.error, .task 0)] :=
  ⟨ActsStale.run (by decide), ActsStale.run (by decide), ActsStale.run (by decide)⟩

end ManagedTorrent

end Rtbit
