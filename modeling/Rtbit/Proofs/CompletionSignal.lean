import Rtbit.Lib.Runs
import Rtbit.Proofs.Progress
import Rtbit.Spec.Completed

/-! A call of `wait_until_completed` parks on the `finished_notify` of one live state, which is
notified by the completions of that live state and by nothing else. The call misses a completion
between its test and its future, a torrent that is finished by `update_only_files`, and whatever a
later live state completes. -/

namespace Rtbit

open Lib

namespace Completed

namespace Torrent

open Streams (Completion)

variable {l : Lengths} {fs : List FileInfo} {t t' : Torrent l} {n k : ℕ}

/-- The live state that is the current one. -/
def current (t : Torrent l) : Option ℕ :=
  match t.state with
  | .live n => some n
  | .initializing | .paused _ | .error => none

/-- The torrent is live, and its chunk tracker is finished. -/
def Finished (t : Torrent l) : Prop := ∃ n ∈ t.current, t.liveFinished n = true

instance (t : Torrent l) : Decidable t.Finished :=
  inferInstanceAs (Decidable (∃ n ∈ t.current, t.liveFinished n = true))

/-- The live state that the call is parked on, if it was not notified since. -/
def waitsOn (t : Torrent l) : Waiter → Option ℕ
  | .parked n future => if t.Waits n future then some n else none
  | _ => none

def waitedOn (t : Torrent l) : List ℕ := t.waiters.filterMap t.waitsOn

/-- An `on_piece_completed` is still to come that notifies those who wait on the live state. -/
def Outstanding (t : Torrent l) (n : ℕ) : Prop :=
  (∃ c ∈ t.completed, c.live = n) ∧ t.liveFinished n = true

instance (t : Torrent l) (n : ℕ) : Decidable (t.Outstanding n) :=
  inferInstanceAs (Decidable (_ ∧ _))

/-- No call waits in a finished torrent, unless it is still to be notified. -/
def Signalled (t : Torrent l) : Prop := ∀ n ∈ t.waitedOn, t.Finished → t.Outstanding n

/-- A call that parks finds the torrent unfinished, or is still to be notified; a mark that finishes
the torrent leaves no call on an earlier live state; a selection that finishes it leaves only calls
that are still to be notified; and a torrent is not started as finished while a call waits. -/
def KeepsSignal (fs : List FileInfo) (t : Torrent l) : Event l → Prop
  | .wait i =>
    match t.waiters[i]? with
    | some (.notFinished n) => t.Finished → t.Outstanding n
    | _ => True
  | .markPieceHashOk n id => n ∈ t.current →
      (t.chunksOf n).any (fun c => (c.markPieceDownloaded id).isFinished) = true →
        ∀ k ∈ t.waitedOn, k = n
  | .updateOnlyFiles onlyFiles => (∀ f ∈ onlyFiles, f < fs.length) → ∀ n ∈ t.current,
      (t.chunksOf n).any (fun c => (c.updateOnlyFiles fs onlyFiles).isFinished) = true →
        ∀ k ∈ t.waitedOn, k = n ∧ ∃ c ∈ t.completed, c.live = n
  | .start =>
    match t.state with
    | .paused chunks => chunks.isFinished = true → t.waitedOn = []
    | _ => True
  | _ => True

instance (t : Torrent l) (i : ℕ) : Decidable (t.KeepsSignal fs (.wait i)) :=
  match h : t.waiters[i]? with
  | some (.notFinished n) =>
    decidable_of_iff (t.Finished → t.Outstanding n) (by simp [KeepsSignal, h])
  | some .looking | some .sleeping | some (.testing _) | some (.parked _ _) | some .done
  | some .failed | none => isTrue (by simp [KeepsSignal, h])

instance (t : Torrent l) : Decidable (t.KeepsSignal fs .start) :=
  match h : t.state with
  | .paused chunks =>
    decidable_of_iff (chunks.isFinished = true → t.waitedOn = []) (by simp [KeepsSignal, h])
  | .initializing | .live _ | .error => isTrue (by simp [KeepsSignal, h])

instance (t : Torrent l) : (e : Event l) → Decidable (t.KeepsSignal fs e)
  | .wait i => inferInstanceAs (Decidable (t.KeepsSignal fs (.wait i)))
  | .start => inferInstanceAs (Decidable (t.KeepsSignal fs .start))
  | .markPieceHashOk n id =>
    inferInstanceAs (Decidable (n ∈ t.current →
      (t.chunksOf n).any (fun c => (c.markPieceDownloaded id).isFinished) = true →
        ∀ k ∈ t.waitedOn, k = n))
  | .updateOnlyFiles onlyFiles =>
    inferInstanceAs (Decidable ((∀ f ∈ onlyFiles, f < fs.length) → ∀ n ∈ t.current,
      (t.chunksOf n).any (fun c => (c.updateOnlyFiles fs onlyFiles).isFinished) = true →
        ∀ k ∈ t.waitedOn, k = n ∧ ∃ c ∈ t.completed, c.live = n))
  | .waitUntilCompleted | .reserve _ _ | .broken _ _ | .chunk _ _ | .onPieceCompleted _
  | .pause _ _ | .stopWithError | .checkAgain | .checkDone _ => isTrue trivial

theorem mem_waitedOn :
    n ∈ t.waitedOn ↔ ∃ future, .parked n future ∈ t.waiters ∧ t.Waits n future := by
  simp only [waitedOn, List.mem_filterMap]
  refine ⟨?_, ?_⟩
  · rintro ⟨w, hw, hn⟩
    cases w with
    | parked m future =>
      obtain ⟨hwait, hm⟩ := Option.ite_none_right_eq_some.1 hn
      obtain rfl := Option.some.inj hm
      exact ⟨future, hw, hwait⟩
    | looking | sleeping | testing _ | notFinished _ | done | failed => cases hn
  · rintro ⟨future, hw, hwait⟩
    exact ⟨_, hw, if_pos hwait⟩

/-- The counters of the chunk trackers are right, and no call has a future that was not made. -/
structure Base (t : Torrent l) : Prop where
  counted : ∀ n chunks, t.chunksOf n = some chunks → chunks.Counted
  paused : ∀ chunks, t.state = .paused chunks → chunks.Counted
  past : ∀ n future, .parked n future ∈ t.waiters →
    ∃ live, t.lives[n]? = some live ∧ future ≤ live.finishedNotify.notified

/-- The live states are there with no less notifications, and the calls are where they were. -/
structure Grows (t t' : Torrent l) : Prop where
  lives : ∀ (n : ℕ) (live : Live l), t.lives[n]? = some live →
    ∃ live' : Live l, t'.lives[n]? = some live' ∧
      live.finishedNotify.notified ≤ live'.finishedNotify.notified
  waiters : t'.waiters = t.waiters

theorem Grows.of_eq (hl : t'.lives = t.lives) (hw : t'.waiters = t.waiters) : t.Grows t' :=
  ⟨fun n live h => ⟨live, by rw [hl]; exact h, le_rfl⟩, hw⟩

theorem Grows.past (h : t.Grows t') (hb : t.Base) (n future : ℕ)
    (hp : .parked n future ∈ t'.waiters) :
    ∃ live, t'.lives[n]? = some live ∧ future ≤ live.finishedNotify.notified := by
  rw [h.waiters] at hp
  obtain ⟨live, hlive, hle⟩ := hb.past n future hp
  obtain ⟨live', hlive', hle'⟩ := h.lives n live hlive
  exact ⟨live', hlive', hle.trans hle'⟩

/-- A call that waits has waited before. -/
theorem Grows.waitedOn (h : t.Grows t') (hb : t.Base) (hn : n ∈ t'.waitedOn) : n ∈ t.waitedOn := by
  obtain ⟨future, hp, live', hlive', hwait⟩ := mem_waitedOn.1 hn
  rw [h.waiters] at hp
  obtain ⟨live, hlive, -⟩ := hb.past n future hp
  obtain ⟨_, hlive'', hle⟩ := h.lives n live hlive
  obtain rfl := Option.some.inj (hlive''.symm.trans hlive')
  refine mem_waitedOn.2 ⟨future, hp, live, hlive, ?_⟩
  intro hready
  exact hwait (lt_of_lt_of_le hready hle)

/-- A step that makes the torrent finished in no new way, and takes no notification. -/
theorem Signalled.mono (h : t.Signalled) (hb : t.Base) (hg : t.Grows t')
    (hf : t'.Finished → t.Finished) (ho : ∀ n, t.Outstanding n → t'.Outstanding n) :
    t'.Signalled := by
  intro n hn hfin
  exact ho n (h n (hg.waitedOn hb hn) (hf hfin))

theorem signalled_of_not_live (h : t.current = none) : t.Signalled := by
  rintro n - ⟨m, hm, -⟩
  rw [h] at hm
  cases hm

/-! Operations on the chunk tracker of a live state. -/

section OnChunks

variable {op : ChunkOp l}

theorem onChunks_eq_some (hs : t.onChunks fs n op = some t') :
    ∃ chunks finishedNotify, t.lives[n]? = some ⟨some chunks, finishedNotify⟩ ∧
      t' = { t with lives := t.lives.set n ⟨some (chunks.apply fs op), finishedNotify⟩ } := by
  unfold onChunks at hs
  split at hs
  · rename_i chunks finishedNotify hn
    exact ⟨chunks, finishedNotify, hn, (Option.some.inj hs).symm⟩
  · cases hs

theorem onChunks_chunksOf (hs : t.onChunks fs n op = some t') (k : ℕ) : t'.chunksOf k =
    if k = n then (t.chunksOf n).map fun c => c.apply fs op else t.chunksOf k := by
  obtain ⟨chunks, finishedNotify, hn, rfl⟩ := onChunks_eq_some hs
  have hlt : n < t.lives.length := (List.getElem?_eq_some_iff.1 hn).1
  unfold chunksOf
  split_ifs with hk
  · rw [hk, List.getElem?_set_self hlt, hn]
    rfl
  · rw [List.getElem?_set_ne (Ne.symm hk)]

theorem onChunks_grows (hs : t.onChunks fs n op = some t') : t.Grows t' := by
  obtain ⟨chunks, finishedNotify, hn, rfl⟩ := onChunks_eq_some hs
  have hlt : n < t.lives.length := (List.getElem?_eq_some_iff.1 hn).1
  refine ⟨?_, rfl⟩
  intro m live hlive
  by_cases hmn : n = m
  · subst hmn
    obtain rfl := Option.some.inj (hn.symm.trans hlive)
    exact ⟨_, List.getElem?_set_self hlt, le_rfl⟩
  · exact ⟨live, (List.getElem?_set_ne hmn).trans hlive, le_rfl⟩

theorem onChunks_same (hs : t.onChunks fs n op = some t') :
    t'.state = t.state ∧ t'.completed = t.completed ∧ t'.waiters = t.waiters := by
  obtain ⟨_, _, -, rfl⟩ := onChunks_eq_some hs
  exact ⟨rfl, rfl, rfl⟩

theorem Base.onChunks (h : t.Base) (hs : t.onChunks fs n op = some t') : t'.Base := by
  refine ⟨?_, ?_, (onChunks_grows hs).past h⟩
  · intro k chunks hk
    rw [onChunks_chunksOf hs] at hk
    split_ifs at hk
    · obtain ⟨c, hc, rfl⟩ := Option.map_eq_some_iff.1 hk
      exact (h.counted n c hc).apply op
    · exact h.counted k chunks hk
  · rw [(onChunks_same hs).1]
    exact h.paused

theorem current_of_state (h : t'.state = t.state) : t'.current = t.current := by
  unfold current
  rw [h]

/-- `reserve_needed_piece`, `mark_piece_broken_if_not_have` and `mark_chunk_downloaded`. -/
def Quiet : ChunkOp l → Prop
  | .reserve _ | .broken _ | .chunk _ => True
  | .downloaded _ | .updateOnlyFiles _ => False

theorem isFinished_of_hns {c c' : ChunkTracker l} (h : c'.hns = c.hns) :
    c'.isFinished = c.isFinished := by
  unfold ChunkTracker.isFinished
  rw [h]

theorem Quiet.isFinished (h : Quiet op) (c : ChunkTracker l) :
    (c.apply fs op).isFinished = c.isFinished := by
  cases op with
  | reserve index => rfl
  | broken index => exact isFinished_of_hns (c.broken_hns index)
  | chunk piece =>
    change (((c.markChunkDownloaded piece).map Prod.snd).getD c).isFinished = c.isFinished
    cases hm : c.markChunkDownloaded piece with
    | none => rfl
    | some x =>
      obtain ⟨r, c'⟩ := x
      exact isFinished_of_hns (ChunkTracker.chunk_same hm).hns
  | downloaded idx | updateOnlyFiles only => exact h.elim

theorem Quiet.liveFinished (h : Quiet op) (hs : t.onChunks fs n op = some t') (k : ℕ) :
    t'.liveFinished k = t.liveFinished k := by
  unfold Torrent.liveFinished
  rw [onChunks_chunksOf hs]
  split_ifs with hk
  · rw [hk]
    cases t.chunksOf n with
    | none => rfl
    | some c => exact h.isFinished c
  · rfl

theorem Signalled.quiet (h : t.Signalled) (hb : t.Base) (hq : Quiet op)
    (hs : t.onChunks fs n op = some t') : t'.Signalled := by
  obtain ⟨hstate, hcompleted, -⟩ := onChunks_same hs
  refine h.mono hb (onChunks_grows hs) ?_ ?_
  · rintro ⟨m, hm, hf⟩
    rw [current_of_state hstate] at hm
    exact ⟨m, hm, (hq.liveFinished hs m).symm.trans hf⟩
  · rintro k ⟨hc, hf⟩
    exact ⟨by rw [hcompleted]; exact hc, (hq.liveFinished hs k).trans hf⟩

/-- A torrent that an operation has finished is finished by its current live state. -/
theorem finished_onChunks (hs : t.onChunks fs n op = some t') (hf : t'.Finished) :
    (∃ m ∈ t.current, m ≠ n ∧ t.liveFinished m = true) ∨ n ∈ t.current ∧
      (t.chunksOf n).any (fun c => (c.apply fs op).isFinished) = true ∧
        t'.liveFinished n = true := by
  obtain ⟨m, hm, hfm⟩ := hf
  rw [current_of_state (onChunks_same hs).1] at hm
  by_cases hmn : m = n
  · subst hmn
    refine Or.inr ⟨hm, ?_, hfm⟩
    unfold Torrent.liveFinished at hfm
    rw [onChunks_chunksOf hs, if_pos rfl, Option.any_map] at hfm
    exact hfm
  · refine Or.inl ⟨m, hm, hmn, ?_⟩
    unfold Torrent.liveFinished at hfm ⊢
    rw [onChunks_chunksOf hs, if_neg hmn] at hfm
    exact hfm

end OnChunks

/-- A finished chunk tracker stays finished when a piece is downloaded. -/
theorem isFinished_downloaded {c : ChunkTracker l} (hc : c.Counted) (h : c.isFinished = true)
    (id : ValidPieceIndex l) : (c.markPieceDownloaded id).isFinished = true := by
  refine (hc.downloaded id).finished_iff.2 ?_
  intro p hp
  rw [ChunkTracker.downloaded_selected] at hp
  rw [ChunkTracker.downloaded_have]
  split_ifs
  · rfl
  · exact hc.finished_iff.1 h p hp

theorem liveFinished_downloaded {id : ValidPieceIndex l} (hb : t.Base)
    (hs : t.onChunks fs n (.downloaded id) = some t') (h : t.liveFinished k = true) :
    t'.liveFinished k = true := by
  unfold liveFinished at h ⊢
  rw [onChunks_chunksOf hs]
  split_ifs with hk
  · subst hk
    obtain ⟨c, hc, hf⟩ := (Option.any_eq_true _ _).1 h
    rw [hc]
    exact isFinished_downloaded (hb.counted k c hc) hf id
  · exact h

theorem Signalled.markPieceHashOk {id : ValidPieceIndex l} (h : t.Signalled) (hb : t.Base)
    (hok : t.KeepsSignal fs (.markPieceHashOk n id)) (hs : t.markPieceHashOk fs n id = some t') :
    t'.Signalled := by
  obtain ⟨t₁, hs₁, rfl⟩ := Option.map_eq_some_iff.1 hs
  intro k hk hf
  have hk : k ∈ t.waitedOn := (onChunks_grows hs₁).waitedOn hb hk
  rcases finished_onChunks hs₁ hf with ⟨m, hm, -, hfm⟩ | ⟨hn, hf, hfn⟩
  · obtain ⟨⟨c, hc, hck⟩, hfk⟩ := h k hk ⟨m, hm, hfm⟩
    have hfk : t₁.liveFinished k = true := liveFinished_downloaded hb hs₁ hfk
    refine ⟨⟨c, ?_, hck⟩, hfk⟩
    change c ∈ t₁.completed ++ _
    rw [(onChunks_same hs₁).2.1]
    exact List.mem_append_left _ hc
  · obtain rfl := hok hn hf k hk
    exact ⟨⟨⟨k, id⟩, List.mem_append_right _ (List.mem_singleton_self _), rfl⟩, hfn⟩

theorem updateOnlyFiles_cases (t : Torrent l) (onlyFiles : Finset ℕ) :
    t.updateOnlyFiles fs onlyFiles = t ∨
      (∃ chunks, t.state = .paused chunks ∧ t.updateOnlyFiles fs onlyFiles =
        { t with state := .paused (chunks.updateOnlyFiles fs onlyFiles) }) ∨
      (∀ f ∈ onlyFiles, f < fs.length) ∧ ∃ n, t.state = .live n ∧
        t.onChunks fs n (.updateOnlyFiles onlyFiles) = some (t.updateOnlyFiles fs onlyFiles) := by
  unfold Torrent.updateOnlyFiles
  split_ifs with hbad
  · exact Or.inl rfl
  · split
    · rename_i chunks hst
      exact Or.inr (Or.inl ⟨chunks, hst, rfl⟩)
    · rename_i n hst
      cases hc : t.onChunks fs n (.updateOnlyFiles onlyFiles) with
      | none => exact Or.inl rfl
      | some t' =>
        refine Or.inr (Or.inr ⟨?_, n, hst, hc⟩)
        intro f hf
        exact Nat.lt_of_not_le fun hle => hbad ⟨f, hf, hle⟩
    · exact Or.inl rfl
    · exact Or.inl rfl

theorem Signalled.updateOnlyFiles {onlyFiles : Finset ℕ} (h : t.Signalled) (hb : t.Base)
    (hok : t.KeepsSignal fs (.updateOnlyFiles onlyFiles)) :
    (t.updateOnlyFiles fs onlyFiles).Signalled := by
  rcases t.updateOnlyFiles_cases onlyFiles with heq | ⟨chunks, -, heq⟩ | ⟨hlt, n, hst, hs⟩
  · rw [heq]
    exact h
  · rw [heq]
    exact signalled_of_not_live rfl
  · have hcur : t.current = some n := by
      simp only [current, hst]
    intro k hk hf
    have hk : k ∈ t.waitedOn := (onChunks_grows hs).waitedOn hb hk
    rcases finished_onChunks hs hf with ⟨m, hm, hmn, -⟩ | ⟨hn, hf, hfn⟩
    · exact absurd (Option.some.inj (hcur.symm.trans hm)).symm hmn
    · obtain ⟨rfl, hc⟩ := hok hlt n hn hf k hk
      exact ⟨by rw [(onChunks_same hs).2.1]; exact hc, hfn⟩

/-! `on_piece_completed` -/

theorem filesCompleted_same (id : ValidPieceIndex l) (c : ChunkTracker l) :
    (filesCompleted fs c id).hns = c.hns ∧ (filesCompleted fs c id).havePieces = c.havePieces ∧
      (filesCompleted fs c id).selected = c.selected := by
  unfold filesCompleted
  generalize PieceTracker.filesOnPieceCompleted fs id = xs
  induction xs generalizing c with
  | nil => exact ⟨rfl, rfl, rfl⟩
  | cons x xs ih => exact ih _

/-- The chunk tracker of the live state is there, and it notifies if that is finished; or the pieces
were taken, and nothing happens. -/
theorem onPieceCompleted_cases (t : Torrent l) (c : Completion l) :
    (t.onPieceCompleted fs c = t ∧ t.chunksOf c.live = none) ∨
      ∃ chunks notify notify', t.lives[c.live]? = some ⟨some chunks, notify⟩ ∧
        t.onPieceCompleted fs c = { t with
          lives := t.lives.set c.live ⟨some (filesCompleted fs chunks c.id), notify'⟩ } ∧
        notify' = if chunks.isFinished then notify.notifyWaiters else notify := by
  unfold onPieceCompleted
  split
  · rename_i chunks notify hn
    refine Or.inr ⟨chunks, notify, _, hn, rfl, ?_⟩
    rw [isFinished_of_hns (filesCompleted_same c.id chunks).1]
  · rename_i hn
    refine Or.inl ⟨rfl, ?_⟩
    unfold chunksOf
    cases hl : t.lives[c.live]? with
    | none => rfl
    | some live =>
      obtain ⟨chunks, notify⟩ := live
      cases chunks with
      | none => rfl
      | some chunks => exact absurd hl (hn chunks notify)

theorem onPieceCompleted_grows (t : Torrent l) (c : Completion l) :
    t.Grows (t.onPieceCompleted fs c) := by
  rcases t.onPieceCompleted_cases c with ⟨heq, -⟩ | ⟨chunks, notify, notify', hn, heq, hnotify⟩
  · rw [heq]
    exact .of_eq rfl rfl
  · rw [heq]
    refine ⟨?_, rfl⟩
    intro m live hlive
    by_cases hcm : c.live = m
    · subst hcm
      obtain rfl := Option.some.inj (hn.symm.trans hlive)
      refine ⟨_, List.getElem?_set_self (List.getElem?_eq_some_iff.1 hn).1, ?_⟩
      rw [hnotify]
      split_ifs
      · exact Nat.le_succ _
      · exact le_rfl
    · exact ⟨live, (List.getElem?_set_ne hcm).trans hlive, le_rfl⟩

theorem onPieceCompleted_chunksOf (t : Torrent l) (c : Completion l) (k : ℕ) :
    (t.onPieceCompleted fs c).chunksOf k =
      if k = c.live then (t.chunksOf k).map (filesCompleted fs · c.id) else t.chunksOf k := by
  rcases t.onPieceCompleted_cases c with ⟨heq, hnone⟩ | ⟨chunks, notify, notify', hn, heq, -⟩
  · rw [heq]
    split_ifs with hk
    · rw [hk, hnone]
      rfl
    · rfl
  · rw [heq]
    unfold chunksOf
    split_ifs with hk
    · rw [hk, List.getElem?_set_self (List.getElem?_eq_some_iff.1 hn).1, hn]
      rfl
    · rw [List.getElem?_set_ne (Ne.symm hk)]

theorem onPieceCompleted_liveFinished (t : Torrent l) (c : Completion l) (k : ℕ) :
    (t.onPieceCompleted fs c).liveFinished k = t.liveFinished k := by
  unfold liveFinished
  rw [onPieceCompleted_chunksOf]
  split_ifs
  · cases t.chunksOf k with
    | none => rfl
    | some chunks => exact isFinished_of_hns (filesCompleted_same c.id chunks).1
  · rfl

theorem onPieceCompleted_same (t : Torrent l) (c : Completion l) :
    (t.onPieceCompleted fs c).state = t.state ∧
      (t.onPieceCompleted fs c).completed = t.completed := by
  rcases t.onPieceCompleted_cases c with ⟨heq, -⟩ | ⟨_, _, _, -, heq, -⟩
  · rw [heq]
    exact ⟨rfl, rfl⟩
  · rw [heq]
    exact ⟨rfl, rfl⟩

/-- Nobody waits any more on a live state whose completion has found it finished. -/
theorem not_waitedOn_onPieceCompleted (hb : t.Base) (c : Completion l)
    (hf : t.liveFinished c.live = true) : c.live ∉ (t.onPieceCompleted fs c).waitedOn := by
  intro hk
  obtain ⟨future, hp, live, hlive, hwait⟩ := mem_waitedOn.1 hk
  rcases t.onPieceCompleted_cases c with ⟨-, hnone⟩ | ⟨chunks, notify, notify', hn, heq, hnotify⟩
  · rw [liveFinished, hnone] at hf
    cases hf
  · rw [(onPieceCompleted_grows t c).waiters] at hp
    obtain ⟨live', hlive', hle⟩ := hb.past c.live future hp
    obtain rfl := Option.some.inj (hn.symm.trans hlive')
    have hfin : chunks.isFinished = true := by
      rw [liveFinished, chunksOf, hn] at hf
      exact hf
    rw [if_pos hfin] at hnotify
    rw [heq] at hlive
    rcases get_set hlive with ⟨-, rfl⟩ | ⟨hne, -⟩
    · rw [hnotify] at hwait
      exact hwait (Notify.ready_notifyWaiters hle)
    · exact hne rfl

theorem Signalled.onPieceCompleted (h : t.Signalled) (hb : t.Base) {i : ℕ} {c : Completion l}
    (hc : t.completed[i]? = some c) :
    ({ t with completed := t.completed.eraseIdx i }.onPieceCompleted fs c).Signalled := by
  set t₁ : Torrent l := { t with completed := t.completed.eraseIdx i }
  have hb₁ : t₁.Base := ⟨hb.counted, hb.paused, hb.past⟩
  intro k hk hf
  have hkt : k ∈ t.waitedOn := (onPieceCompleted_grows t₁ c).waitedOn hb₁ hk
  have hft : t.Finished := by
    obtain ⟨m, hm, hfm⟩ := hf
    rw [current_of_state (onPieceCompleted_same t₁ c).1] at hm
    exact ⟨m, hm, (onPieceCompleted_liveFinished t₁ c m).symm.trans hfm⟩
  obtain ⟨⟨c', hc', hck⟩, hfk⟩ := h k hkt hft
  refine ⟨⟨c', ?_, hck⟩, (onPieceCompleted_liveFinished t₁ c k).trans hfk⟩
  rw [(onPieceCompleted_same t₁ c).2]
  refine mem_eraseIdx_of_ne hc hc' ?_
  rintro rfl
  rw [← hck] at hfk hk
  exact not_waitedOn_onPieceCompleted hb₁ c' hfk hk

/-! The calls. -/

/-- A call parks with a future that was made now. -/
theorem waiterStep_parked {w : Waiter} {future : ℕ} (h : t.waiterStep w = some (.parked n future)) :
    w = .notFinished n ∧ ∃ live, t.lives[n]? = some live ∧
      future = live.finishedNotify.notified := by
  cases w with
  | looking =>
    simp only [waiterStep] at h
    split at h <;> cases h
  | testing m =>
    have h := Option.some.inj h
    split_ifs at h
  | notFinished m =>
    obtain ⟨live, hlive, hp⟩ := Option.map_eq_some_iff.1 h
    obtain ⟨rfl, rfl⟩ := Waiter.parked.inj hp
    exact ⟨rfl, live, hlive, rfl⟩
  | parked m future' =>
    simp only [waiterStep] at h
    split_ifs at h
    cases h
  | sleeping | done | failed => cases h

theorem Base.wait {i : ℕ} {w w' : Waiter} (h : t.Base) (hw : t.waiterStep w = some w') :
    Base { t with waiters := t.waiters.set i w' } := by
  refine ⟨h.counted, h.paused, ?_⟩
  intro n future hp
  rcases List.mem_or_eq_of_mem_set hp with hp | rfl
  · exact h.past n future hp
  · obtain ⟨-, live, hlive, rfl⟩ := waiterStep_parked hw
    exact ⟨live, hlive, le_rfl⟩

theorem Signalled.wait {i : ℕ} {w w' : Waiter} (h : t.Signalled)
    (hok : t.KeepsSignal fs (.wait i)) (hi : t.waiters[i]? = some w)
    (hw : t.waiterStep w = some w') : Signalled { t with waiters := t.waiters.set i w' } := by
  intro k hk hf
  obtain ⟨future, hp, hwait⟩ := mem_waitedOn.1 hk
  rcases List.mem_or_eq_of_mem_set hp with hp | rfl
  · exact h k (mem_waitedOn.2 ⟨future, hp, hwait⟩) hf
  · obtain ⟨rfl, -⟩ := waiterStep_parked hw
    simp only [KeepsSignal, hi] at hok
    exact hok hf

/-! The changes of the state. -/

theorem takeChunks_chunksOf (t : Torrent l) (n k : ℕ) : (t.takeChunks n).chunksOf k =
    if n = k then none else t.chunksOf k := by
  unfold chunksOf takeChunks
  dsimp only
  rw [List.getElem?_modify]
  split_ifs with hk
  · cases t.lives[k]? <;> rfl
  · cases t.lives[k]? <;> rfl

theorem takeChunks_grows (t : Torrent l) (n : ℕ) : t.Grows (t.takeChunks n) := by
  refine ⟨?_, rfl⟩
  intro m live hlive
  unfold takeChunks
  dsimp only
  rw [List.getElem?_modify, hlive]
  split_ifs
  · exact ⟨_, rfl, le_rfl⟩
  · exact ⟨_, rfl, le_rfl⟩

theorem Base.takeChunks (h : t.Base) (n : ℕ) : (t.takeChunks n).Base := by
  refine ⟨?_, h.paused, (takeChunks_grows t n).past h⟩
  intro k chunks hk
  rw [takeChunks_chunksOf] at hk
  split_ifs at hk
  exact h.counted k chunks hk

/-- Another state, whose chunk tracker has its counters right. -/
theorem Base.setState (h : t.Base) (state : State l)
    (hs : ∀ chunks, state = .paused chunks → chunks.Counted) : Base { t with state } :=
  ⟨h.counted, hs, h.past⟩

theorem counted_requeued {chunks : ChunkTracker l} (h : chunks.Counted)
    (inflight : List (ValidPieceIndex l)) :
    (inflight.foldl ChunkTracker.markPieceBrokenIfNotHave chunks).Counted := by
  induction inflight generalizing chunks with
  | nil => exact h
  | cons id inflight ih =>
    have hb : (chunks.apply [] (.broken id)).Counted := h.apply _
    exact ih hb

theorem Base.pause (h : t.Base) (inflight : List (ValidPieceIndex l)) (taken : Bool) :
    (t.pause inflight taken).Base := by
  unfold Torrent.pause
  split
  · rename_i n hst
    split
    · rename_i chunks hn
      split_ifs
      · refine (h.takeChunks n).setState _ ?_
        intro chunks' hc
        obtain rfl := State.paused.inj hc
        exact counted_requeued (h.counted n chunks hn) inflight
      · exact h.takeChunks n
    · exact h
  · exact h.setState _ (by intro _ hc; cases hc)
  · exact h
  · exact h

theorem Signalled.pause (h : t.Signalled) (inflight : List (ValidPieceIndex l)) (taken : Bool) :
    (t.pause inflight taken).Signalled := by
  unfold Torrent.pause
  split
  · rename_i n hst
    split
    · split_ifs
      · exact signalled_of_not_live rfl
      · -- the torrent is live without a chunk tracker
        rintro k - ⟨m, hm, hf⟩
        have hcur : t.current = some n := by
          simp only [current, hst]
        obtain rfl := Option.some.inj (hcur.symm.trans hm)
        rw [liveFinished, takeChunks_chunksOf, if_pos rfl] at hf
        cases hf
    · exact h
  · exact signalled_of_not_live rfl
  · exact h
  · exact h

theorem Base.stopWithError (h : t.Base) : t.stopWithError.Base := by
  unfold Torrent.stopWithError
  split
  · exact (h.takeChunks _).setState _ (by intro _ hc; cases hc)
  · exact h.setState _ (by intro _ hc; cases hc)

theorem stopWithError_current : t.stopWithError.current = none := by
  unfold Torrent.stopWithError
  split <;> rfl

theorem Base.checkDone (h : t.Base) (pieces : Option (Bits × Bits)) :
    (t.checkDone fs pieces).Base := by
  unfold Torrent.checkDone
  split
  · split
    · rename_i chunks _ hc _
      refine h.setState _ ?_
      intro chunks' hc'
      obtain rfl := State.paused.inj hc'
      exact (ChunkTracker.new_ok hc).2.2.2.2.2
    · exact h
    · exact h.setState _ (by intro _ hc; cases hc)
  · exact h.setState _ (by intro _ hc; cases hc)

theorem Signalled.checkDone (h : t.Signalled) (pieces : Option (Bits × Bits)) :
    (t.checkDone fs pieces).Signalled := by
  unfold Torrent.checkDone
  split
  · split
    · exact signalled_of_not_live rfl
    · exact h
    · exact signalled_of_not_live rfl
  · exact signalled_of_not_live rfl

/-- The torrent becomes live with a new live state. -/
theorem start_eq_some (hs : t.step fs .start = some t') : ∃ chunks, t.state = .paused chunks ∧
    t' = { t with
      state := .live t.lives.length
      lives := t.lives ++ [⟨some chunks, Notify.new⟩] } := by
  simp only [step] at hs
  split at hs
  · rename_i chunks hst
    exact ⟨chunks, hst, (Option.some.inj hs).symm⟩
  · cases hs

theorem start_grows (hs : t.step fs .start = some t') : t.Grows t' := by
  obtain ⟨chunks, -, rfl⟩ := start_eq_some hs
  refine ⟨?_, rfl⟩
  intro m live hlive
  have hlt : m < t.lives.length := (List.getElem?_eq_some_iff.1 hlive).1
  exact ⟨live, (List.getElem?_append_left hlt).trans hlive, le_rfl⟩

theorem Base.start (h : t.Base) (hs : t.step fs .start = some t') : t'.Base := by
  refine ⟨?_, ?_, (start_grows hs).past h⟩
  · obtain ⟨chunks, hst, rfl⟩ := start_eq_some hs
    intro k chunks' hk
    obtain ⟨live, hlive, hc⟩ := Option.bind_eq_some_iff.1 hk
    rcases get_append hlive with hlive | ⟨-, rfl⟩
    · exact h.counted k chunks' (Option.bind_eq_some_iff.2 ⟨live, hlive, hc⟩)
    · obtain rfl := Option.some.inj hc
      exact h.paused chunks hst
  · obtain ⟨chunks, -, rfl⟩ := start_eq_some hs
    intro chunks' hc
    cases hc

theorem Signalled.start (hb : t.Base) (hok : t.KeepsSignal fs .start)
    (hs : t.step fs .start = some t') : t'.Signalled := by
  intro k hk hf
  have hkt : k ∈ t.waitedOn := (start_grows hs).waitedOn hb hk
  obtain ⟨chunks, hst, rfl⟩ := start_eq_some hs
  obtain ⟨m, hm, hfm⟩ := hf
  obtain rfl : t.lives.length = m := Option.some.inj hm
  have hfin : chunks.isFinished = true := by
    simpa [liveFinished, chunksOf] using hfm
  simp only [KeepsSignal, hst] at hok
  rw [hok hfin] at hkt
  cases hkt

theorem Base.step {e : Event l} (h : t.Base) (hs : t.step fs e = some t') : t'.Base := by
  cases e with
  | waitUntilCompleted =>
    obtain rfl := Option.some.inj hs
    refine ⟨h.counted, h.paused, ?_⟩
    intro n future hp
    rcases List.mem_append.1 hp with hp | hp
    · exact h.past n future hp
    · cases List.mem_singleton.1 hp
  | wait i =>
    obtain ⟨w, -, hs⟩ := Option.bind_eq_some_iff.1 hs
    obtain ⟨w', hw, rfl⟩ := Option.map_eq_some_iff.1 hs
    exact h.wait hw
  | reserve n index | broken n index | chunk n piece => exact h.onChunks hs
  | markPieceHashOk n id =>
    obtain ⟨t₁, hs₁, rfl⟩ := Option.map_eq_some_iff.1 hs
    have h₁ := h.onChunks hs₁
    exact ⟨h₁.counted, h₁.paused, h₁.past⟩
  | onPieceCompleted i =>
    obtain ⟨c, -, rfl⟩ := Option.map_eq_some_iff.1 hs
    have h₁ : Base { t with completed := t.completed.eraseIdx i } := ⟨h.counted, h.paused, h.past⟩
    refine ⟨?_, ?_, (onPieceCompleted_grows _ c).past h₁⟩
    · intro k chunks hk
      rw [onPieceCompleted_chunksOf] at hk
      split_ifs at hk
      · obtain ⟨chunks', hc, rfl⟩ := Option.map_eq_some_iff.1 hk
        have hsame := @filesCompleted_same _ fs c.id chunks'
        exact (h.counted k chunks' hc).of_same hsame.1 hsame.2.1 hsame.2.2
      · exact h.counted k chunks hk
    · rw [(onPieceCompleted_same _ c).1]
      exact h.paused
  | updateOnlyFiles onlyFiles =>
    obtain rfl := Option.some.inj hs
    rcases t.updateOnlyFiles_cases onlyFiles with heq | ⟨chunks, hst, heq⟩ | ⟨-, n, -, hn⟩
    · rw [heq]
      exact h
    · rw [heq]
      refine h.setState _ ?_
      intro chunks' hc
      obtain rfl := State.paused.inj hc
      exact (h.paused chunks hst).apply (.updateOnlyFiles onlyFiles)
    · exact h.onChunks hn
  | pause inflight taken =>
    obtain rfl := Option.some.inj hs
    exact h.pause inflight taken
  | start => exact h.start hs
  | stopWithError =>
    obtain rfl := Option.some.inj hs
    exact h.stopWithError
  | checkAgain =>
    simp only [Torrent.step] at hs
    split at hs
    · obtain rfl := Option.some.inj hs
      exact h.setState _ (by intro _ hc; cases hc)
    · cases hs
  | checkDone pieces =>
    obtain rfl := Option.some.inj hs
    exact h.checkDone pieces

theorem Signalled.step {e : Event l} (h : t.Signalled) (hb : t.Base) (hok : t.KeepsSignal fs e)
    (hs : t.step fs e = some t') : t'.Signalled := by
  cases e with
  | waitUntilCompleted =>
    obtain rfl := Option.some.inj hs
    intro k hk hf
    obtain ⟨future, hp, hwait⟩ := mem_waitedOn.1 hk
    rcases List.mem_append.1 hp with hp | hp
    · exact h k (mem_waitedOn.2 ⟨future, hp, hwait⟩) hf
    · cases List.mem_singleton.1 hp
  | wait i =>
    obtain ⟨w, hi, hs⟩ := Option.bind_eq_some_iff.1 hs
    obtain ⟨w', hw, rfl⟩ := Option.map_eq_some_iff.1 hs
    exact h.wait hok hi hw
  | reserve n index => exact h.quiet hb (show Quiet (.reserve index) from trivial) hs
  | broken n index => exact h.quiet hb (show Quiet (.broken index) from trivial) hs
  | chunk n piece => exact h.quiet hb (show Quiet (.chunk piece) from trivial) hs
  | markPieceHashOk n id => exact h.markPieceHashOk hb hok hs
  | onPieceCompleted i =>
    obtain ⟨c, hc, rfl⟩ := Option.map_eq_some_iff.1 hs
    exact h.onPieceCompleted hb hc
  | updateOnlyFiles onlyFiles =>
    obtain rfl := Option.some.inj hs
    exact h.updateOnlyFiles hb hok
  | pause inflight taken =>
    obtain rfl := Option.some.inj hs
    exact h.pause inflight taken
  | start => exact .start hb hok hs
  | stopWithError =>
    obtain rfl := Option.some.inj hs
    exact signalled_of_not_live stopWithError_current
  | checkAgain =>
    simp only [Torrent.step] at hs
    split at hs
    · obtain rfl := Option.some.inj hs
      exact signalled_of_not_live rfl
    · cases hs
  | checkDone pieces =>
    obtain rfl := Option.some.inj hs
    exact h.checkDone pieces

theorem new_base : (new : Torrent l).Base := by
  refine ⟨?_, ?_, ?_⟩
  · intro n chunks hn
    cases hn
  · intro chunks hc
    cases hc
  · intro n future hp
    cases hp

/-- Along every run in which the torrent is finished only by completions of the live state that the
calls wait on, and none falls between the test of a call and its future: where the torrent is live
with every selected piece have, a parked call was notified or is still to be. -/
theorem keepsSignal_signalled (l : Lengths) (fs : List FileInfo) (evs : List (Event l))
    (t : Torrent l) (hr : Run (step fs) (KeepsSignal fs) new evs t) (n m : ℕ)
    (chunks : ChunkTracker l) (hn : n ∈ t.waitedOn) (hst : t.state = .live m)
    (hc : t.chunksOf m = some chunks)
    (hall : ∀ p : ValidPieceIndex l, chunks.selected.get p = true →
      chunks.havePieces.get p = true) : t.Outstanding n := by
  have hinv : t.Base ∧ t.Signalled := by
    refine hr.inv (fun t => t.Base ∧ t.Signalled) ⟨new_base, signalled_of_not_live rfl⟩ ?_
    intro t₁ e t₂ h hok hs
    exact ⟨h.1.step hs, h.2.step h.1 hok hs⟩
  refine hinv.2 n hn ⟨m, ?_, ?_⟩
  · simp only [current, hst]
    rfl
  · rw [liveFinished, hc]
    exact (hinv.1.counted m chunks hc).finished_iff.2 hall

/-- A torrent of two pieces with the first one, and a call that has found it unfinished. -/
def tested : List (Event twoPieces) :=
  [.checkDone (some (somePieces 0 1, somePieces 0 2)), .start, .waitUntilCompleted, .wait 0, .wait 0]

/-- The call parks, and the last piece is marked. -/
def parkedThenMarked : List (Event twoPieces) :=
  tested ++ [.wait 0, .markPieceHashOk 0 secondPiece]

/-- The last piece completes before the call parks. -/
def completedBetween : List (Event twoPieces) :=
  tested ++ [.markPieceHashOk 0 secondPiece, .onPieceCompleted 0, .wait 0]

/-- The file of the missing piece is deselected. -/
def deselected : List (Event twoPieces) := tested ++ [.wait 0, .updateOnlyFiles {0}]

/-- The torrent is paused and started again, and then completes. -/
def startedAgain : List (Event twoPieces) :=
  tested ++ [.wait 0, .pause [] true, .start, .markPieceHashOk 1 secondPiece, .onPieceCompleted 0]

/-- A call waits in a torrent that is complete. -/
def waitsComplete (t : Torrent twoPieces) : Bool :=
  match t.state with
  | .live m => 0 ∈ t.waitedOn && (t.chunksOf m).any fun c =>
    decide (∀ p : ValidPieceIndex twoPieces, c.selected.get p = true → c.havePieces.get p = true)
  | _ => false

theorem parkedThenMarked_outstanding :
    ∃ t, Run (step twoFiles) (KeepsSignal twoFiles) new parkedThenMarked t ∧ t.Outstanding 0 := by
  have hrun : ∃ t, Run (step twoFiles) (KeepsSignal twoFiles) new parkedThenMarked t ∧
      waitsComplete t = true := Run.exists_of_exec (by decide +kernel)
  obtain ⟨t, hr, hq⟩ := hrun
  unfold waitsComplete at hq
  split at hq
  · rename_i m hst
    obtain ⟨hw, hq⟩ := Bool.and_eq_true_iff.1 hq
    obtain ⟨chunks, hc, hall⟩ := (Option.any_eq_true _ _).1 hq
    exact ⟨t, hr, keepsSignal_signalled _ _ _ _ hr 0 m chunks (of_decide_eq_true hw) hst hc
      (of_decide_eq_true hall)⟩
  · cases hq

/-- The torrent is complete, no completion is left, and the call still waits. -/
theorem waiter_not_notified :
    (∃ t, Run (step twoFiles) Any new completedBetween t ∧
      (waitsComplete t && decide (t.completed = [])) = true) ∧
    (∃ t, Run (step twoFiles) Any new deselected t ∧
      (waitsComplete t && decide (t.completed = [])) = true) ∧
    ∃ t, Run (step twoFiles) Any new startedAgain t ∧
      (waitsComplete t && decide (t.completed = [])) = true :=
  ⟨Run.exists_of_exec (by decide +kernel), Run.exists_of_exec (by decide +kernel),
    Run.exists_of_exec (by decide +kernel)⟩

end Torrent

end Completed

end Rtbit
