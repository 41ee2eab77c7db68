import Rtbit.Spec.Limits
import Rtbit.Lib.Runs

/-! A limiter holds no more than one second of its rate, so a limit below the size that is asked for
fails at once. `task_upload_scheduler` and `task_peer_chunk_requester` pass the error on with `?`: they
live exactly as long as no limit they come to is below their request. -/

namespace Rtbit

/-- `until_n_ready(n)` on `Quota::per_second(b)` fails exactly when `n > b`. -/
def FailsOverBurst (untilNReady : UntilNReady) : Prop :=
  ∀ rl n, untilNReady rl n ≠ .ok () ↔ rl.quota < n

/-- No limit, or one of at least `size`. -/
def Limit.Fits (l : Limit) (size : NonZeroU32) : Prop := ∀ rl ∈ l.limiter, size ≤ rl.quota

theorem Limit.acquire_ok_iff {untilNReady : UntilNReady} (h : FailsOverBurst untilNReady) (l : Limit)
    (size : NonZeroU32) : l.acquire untilNReady size = .ok () ↔ l.Fits size := by
  unfold Limit.acquire Limit.Fits
  cases l.limiter with
  | none => simp
  | some rl =>
    have := h rl size
    simp only [Option.mem_def, Option.some.injEq, forall_eq']
    rw [← not_lt, ← this, not_not]

theorem Limit.get_set (l : Limit) (bps : Option NonZeroU32) : (l.set bps).get = bps := by
  cases bps with
  | none => rfl
  | some b =>
    simp only [Limit.get, Limit.set, nonZeroU32, Option.map_some, Option.getD_some]
    exact dif_pos b.2

/-- What is configured is what is reported. -/
theorem Limits.getConfig_new (config : LimitsConfig) :
    (Limits.new config).getConfig =
      { config with peerLimit := none, concurrentInitLimit := none } := by
  have hget (bps : Option NonZeroU32) : (Limit.new bps).get = bps := (Limit.new bps).get_set bps
  simp only [Limits.new, Limits.getConfig, hget]

theorem Limit.set_fits_iff (l : Limit) (bps : Option NonZeroU32) (size : NonZeroU32) :
    (l.set bps).Fits size ↔ ∀ b ∈ bps, size ≤ b := by
  cases bps <;> simp [Limit.Fits, Limit.set, Limit.newInner]

def UploadScheduler.isReturned : UploadScheduler → Bool
  | .returned _ => true
  | _ => false

def ChunkRequester.isReturned : ChunkRequester → Bool
  | .returned _ => true
  | _ => false

namespace RateLimited

variable {untilNReady : UntilNReady} {s t : RateLimited} {e : RateEvent} {evs : List RateEvent}

/-- No limit has ended the scheduler or the requester of a peer. -/
def Alive (s : RateLimited) : Prop :=
  s.scheduler.isReturned = false ∧ ∀ r ∈ s.requesters, r.isReturned = false

/-- A limit that the step acquires is absent or not below the size. -/
def Fits (s : RateLimited) : RateEvent → Prop
  | .schedule closed => ∀ level size limits, s.scheduler = .acquire level size →
      s.limits level = some limits → closed = false → limits.up.Fits size
  | .request i _ _ => ∀ level length limits, s.requesters[i]? = some (.acquire level length) →
      s.limits level = some limits → limits.down.Fits length
  | _ => True

theorem fits_schedule_iff {closed : Bool} {level : Level} {size : NonZeroU32}
    (hc : s.scheduler = .acquire level size) :
    s.Fits (.schedule closed) ↔
      ∀ limits ∈ s.limits level, closed = false → limits.up.Fits size := by
  refine ⟨fun hf limits => hf level size limits hc, fun hf level' size' limits hc' => ?_⟩
  rw [hc] at hc'
  cases hc'
  exact hf limits

theorem fits_request_iff {i length : ℕ} {dead : Bool} {level : Level} {len : NonZeroU32}
    (hi : s.requesters[i]? = some (.acquire level len)) :
    s.Fits (.request i length dead) ↔ ∀ limits ∈ s.limits level, limits.down.Fits len := by
  refine ⟨fun hf limits => hf level len limits hi, fun hf level' len' limits hi' => ?_⟩
  rw [hi] at hi'
  cases hi'
  exact hf limits

/-- The scheduler is not over before a step, and is over after it for a limit below the size. -/
theorem schedule_returned_iff (h : FailsOverBurst untilNReady) {closed : Bool}
    {uploads : List NonZeroU32} {scheduler : UploadScheduler}
    (hs : s.schedule untilNReady closed = some (uploads, scheduler)) :
    s.scheduler.isReturned = false ∧
      (scheduler.isReturned = false ↔ s.Fits (.schedule closed)) := by
  unfold schedule at hs
  cases hc : s.scheduler with
  | recv =>
    refine ⟨rfl, iff_of_true ?_ fun _ _ _ hc' => by simp [hc] at hc'⟩
    rw [hc] at hs
    cases hu : s.uploads with
    | nil => simp [hu] at hs
    | cons size rest =>
      rw [hu] at hs
      cases hs
      rfl
  | acquire level size =>
    refine ⟨rfl, ?_⟩
    rw [fits_schedule_iff hc]
    simp only [hc] at hs
    cases hl : s.limits level with
    | none =>
      rw [hl] at hs
      cases hs
      exact iff_of_true rfl nofun
    | some limits =>
      simp only [Option.mem_def, Option.some.injEq, forall_eq']
      rw [← limits.up.acquire_ok_iff h size]
      cases closed with
      | true =>
        simp only [hl, ↓reduceIte] at hs
        cases hs
        exact iff_of_true rfl nofun
      | false =>
        simp only [hl, Bool.false_eq_true, ↓reduceIte, Limits.prepareForUpload] at hs
        cases ha : limits.up.acquire untilNReady size <;> rw [ha] at hs <;> cases hs <;>
          simp [UploadScheduler.isReturned]
  | wait level size =>
    refine ⟨rfl, iff_of_true ?_ fun _ _ _ hc' => by simp [hc] at hc'⟩
    simp only [hc] at hs
    split at hs
    · cases hs; rfl
    · cases level <;> cases hs <;> rfl
  | send size =>
    refine ⟨rfl, iff_of_true ?_ fun _ _ _ hc' => by simp [hc] at hc'⟩
    rw [hc] at hs
    cases hs
    rfl
  | returned err => simp [hc] at hs

theorem request_returned_iff (h : FailsOverBurst untilNReady) {i length : ℕ} {dead : Bool}
    {r r' : ChunkRequester} (hi : s.requesters[i]? = some r)
    (hs : s.request untilNReady length dead r = some r') :
    r.isReturned = false ∧ (r'.isReturned = false ↔ s.Fits (.request i length dead)) := by
  cases r with
  | nextChunk =>
    refine ⟨rfl, iff_of_true ?_ fun _ _ _ hi' => by simp [hi] at hi'⟩
    dsimp only [request] at hs
    split at hs
    · cases hs; rfl
    · split at hs <;> cases hs <;> rfl
  | acquire level len =>
    refine ⟨rfl, ?_⟩
    rw [fits_request_iff hi]
    dsimp only [request] at hs
    cases hl : s.limits level with
    | none =>
      rw [hl] at hs
      cases hs
      exact iff_of_true rfl nofun
    | some limits =>
      simp only [Option.mem_def, Option.some.injEq, forall_eq']
      rw [← limits.down.acquire_ok_iff h len]
      simp only [hl, Limits.prepareForDownload] at hs
      cases ha : limits.down.acquire untilNReady len with
      | error err =>
        rw [ha] at hs
        cases hs
        simp [ChunkRequester.isReturned]
      | ok =>
        rw [ha] at hs
        cases level <;> cases hs <;> simp [ChunkRequester.isReturned]
  | send len =>
    refine ⟨rfl, iff_of_true ?_ fun _ _ _ hi' => by simp [hi] at hi'⟩
    dsimp only [request] at hs
    split_ifs at hs <;> cases hs <;> rfl
  | done => cases hs
  | returned err => cases hs

/-- A step ends a task exactly when it comes to a limit below the size. -/
theorem step_alive_iff (h : FailsOverBurst untilNReady) (hs : step untilNReady s e = some t) :
    t.Alive ↔ s.Alive ∧ s.Fits e := by
  cases e with
  | setUploadBps level bps => cases level <;> cases hs <;> simp [Alive, setAt, Fits]
  | setDownloadBps level bps => cases level <;> cases hs <;> simp [Alive, setAt, Fits]
  | sessionDropped => cases hs; simp [Alive, Fits]
  | requestReceived size => cases hs; simp [Alive, Fits]
  | schedule closed =>
    obtain ⟨⟨uploads, scheduler⟩, hsch, rfl⟩ := Option.map_eq_some_iff.1 hs
    obtain ⟨hs0, hiff⟩ := schedule_returned_iff h hsch
    simp only [Alive, hs0, hiff, true_and]
    exact and_comm
  | peerConnected =>
    cases hs
    simp only [Alive, Fits, List.mem_append, List.mem_singleton, and_true]
    refine and_congr_right fun _ => ⟨fun hr r hm => hr r (Or.inl hm), fun hr r hm => ?_⟩
    rcases hm with hm | rfl
    · exact hr r hm
    · rfl
  | request i length dead =>
    simp only [step] at hs
    cases hi : s.requesters[i]? with
    | none => simp [hi] at hs
    | some r =>
      rw [hi] at hs
      obtain ⟨r', hreq, rfl⟩ := Option.map_eq_some_iff.1 hs
      obtain ⟨hr0, hiff⟩ := request_returned_iff h hi hreq
      rw [← hiff]
      have hlt : i < s.requesters.length := (List.getElem?_eq_some_iff.1 hi).1
      simp only [Alive, and_assoc]
      refine and_congr_right fun _ => ⟨fun hr => ⟨fun q hq => ?_, hr r' (List.mem_set hlt r')⟩, ?_⟩
      · obtain ⟨j, hj, rfl⟩ := List.mem_iff_getElem.1 hq
        by_cases hij : i = j
        · subst hij
          rw [List.getElem?_eq_getElem hj] at hi
          cases hi
          exact hr0
        · exact hr _ (List.mem_iff_getElem.2 ⟨j, by simpa using hj, by simp [hij]⟩)
      · rintro ⟨hr, hr'⟩ q hq
        rcases List.mem_or_eq_of_mem_set hq with hq | rfl
        · exact hr q hq
        · exact hr'

/-- `prepare_for_upload` and `prepare_for_download` return `Ok` exactly for a size that fits, and the
tasks of a run live exactly when each limit that a step acquires fits its size. -/
theorem alive_iff_fits (h : FailsOverBurst untilNReady) :
    (∀ (l : Limits) size, (l.prepareForUpload untilNReady size = .ok () ↔ l.up.Fits size) ∧
      (l.prepareForDownload untilNReady size = .ok () ↔ l.down.Fits size)) ∧
    ∀ torrent session evs t, Lib.Run (step untilNReady) Lib.Any (new torrent session) evs t →
      (t.Alive ↔ Lib.Run (step untilNReady) Fits (new torrent session) evs t) := by
  refine ⟨fun l size => ⟨l.up.acquire_ok_iff h size, l.down.acquire_ok_iff h size⟩, ?_⟩
  intro torrent session evs t hr
  induction hr with
  | nil => exact iff_of_true ⟨rfl, nofun⟩ Lib.Run.nil
  | @snoc evs s e t hr _ hs ih =>
    rw [step_alive_iff h hs, ih]
    refine ⟨fun ⟨hf, he⟩ => hf.snoc he hs, fun hf => ?_⟩
    obtain ⟨s', hr', he, hs'⟩ := hf.snoc_inv
    obtain rfl := hr.unique (hr'.mono fun _ _ _ => trivial)
    exact ⟨hr', he⟩

/-- `until_n_ready` when the bytes are there as soon as they can be. -/
def burst : UntilNReady := fun rl n =>
  if rl.quota < n then .error .insufficientCapacity else .ok ()

theorem burst_failsOverBurst : FailsOverBurst burst := by
  intro rl n
  unfold burst
  split_ifs with h <;> simp [h]

def kib16 : NonZeroU32 := ⟨16384, by decide⟩

/-- A whole chunk each way through the limits of a torrent that just hold it, with a lower limit of
the session set and lifted again in time. -/
theorem wholeChunk_fits :
    ∃ t, Lib.Run (step burst) Fits
      (new ⟨some kib16, some kib16, none, none⟩ ⟨none, none, none, none⟩)
      [.requestReceived kib16, .schedule false, .setUploadBps .session (some ⟨1, by decide⟩),
        .schedule false, .schedule false, .setUploadBps .session none, .schedule false,
        .schedule false, .peerConnected, .request 0 16384 false, .request 0 16384 false,
        .request 0 16384 false] t ∧ t.Alive := by
  have hex := @Lib.Run.exists_of_exec _ _ (step burst) Lib.Any
    (new ⟨some kib16, some kib16, none, none⟩ ⟨none, none, none, none⟩)
    [.requestReceived kib16, .schedule false, .setUploadBps .session (some ⟨1, by decide⟩),
      .schedule false, .schedule false, .setUploadBps .session none, .schedule false,
      .schedule false, .peerConnected, .request 0 16384 false, .request 0 16384 false,
      .request 0 16384 false] _
    (fun t => !t.scheduler.isReturned && t.requesters.all fun r => !r.isReturned)
    (by decide +kernel)
  obtain ⟨t, hr, hq⟩ := hex
  have halive : t.Alive := by simpa [Alive] using hq
  exact ⟨t, ((alive_iff_fits burst_failsOverBurst).2 _ _ _ t hr).1 halive, halive⟩

/-- A limit of 1000 bytes a second ends the scheduler of all peers, and the requester of a peer, at
their first chunk of 16384 bytes. -/
theorem smallLimit_returns :
    FailsOverBurst burst ∧
    (Limits.new ⟨some ⟨1000, by decide⟩, none, none, none⟩).prepareForUpload burst kib16 =
      .error .insufficientCapacity ∧
    (Limits.new ⟨none, some ⟨1000, by decide⟩, none, none⟩).prepareForDownload burst kib16 =
      .error .insufficientCapacity ∧
    ∃ t, Lib.Run (step burst) Lib.Any
      (new ⟨some ⟨1000, by decide⟩, some ⟨1000, by decide⟩, none, none⟩ ⟨none, none, none, none⟩)
      [.requestReceived kib16, .schedule false, .schedule false, .peerConnected,
        .request 0 16384 false, .request 0 16384 false] t ∧
      t.scheduler = .returned .insufficientCapacity ∧
      t.requesters = [.returned .insufficientCapacity] := by
  refine ⟨burst_failsOverBurst, rfl, rfl, ?_⟩
  have hex := @Lib.Run.exists_of_exec _ _ (step burst) Lib.Any
    (new ⟨some ⟨1000, by decide⟩, some ⟨1000, by decide⟩, none, none⟩ ⟨none, none, none, none⟩)
    [.requestReceived kib16, .schedule false, .schedule false, .peerConnected,
      .request 0 16384 false, .request 0 16384 false] _
    (fun t => t.scheduler = .returned .insufficientCapacity &&
      t.requesters = [.returned .insufficientCapacity])
    (by decide +kernel)
  obtain ⟨t, hr, hq⟩ := hex
  rw [Bool.and_eq_true, decide_eq_true_eq, decide_eq_true_eq] at hq
  exact ⟨t, hr, hq.1, hq.2⟩

end RateLimited

end Rtbit
