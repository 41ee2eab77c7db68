import Rtbit.Sanity.Torrent
import Rtbit.Sanity.TorrentState
import Rtbit.Spec.LivePause

/-! `pause` is not undone when the storage cannot be taken. -/

namespace Rtbit

section Pause

variable {l : Lengths} {σ : Type} {take : σ → Except String σ × σ}

namespace TorrentStateLive

variable {live : TorrentStateLive l σ}

/-- A `pause` that fails leaves the live state as it was. -/
def AllOrNothing (take : σ → Except String σ × σ) (live : TorrentStateLive l σ) : Prop :=
  ∀ e, (live.pause take).1 = .error e → (live.pause take).2 = live

/-- The storage can be taken; if the tracker is gone already, so are the token and the sender. -/
def CanPause (take : σ → Except String σ × σ) (live : TorrentStateLive l σ) : Prop :=
  match live.pieces with
  | some _ => ∃ files, (take live.files).1 = .ok files
  | none => live.cancelled = true ∧ live.fatalErrorsTx = false

theorem pause_none (h : live.pieces = none) :
    live.pause take = (.error "bug: pausing already paused torrent",
      { live with cancelled := true, fatalErrorsTx := false }) := by
  simp only [pause, h]

theorem pause_some {t : PieceTracker l} (h : live.pieces = some t) :
    live.pause take = ((take live.files).1.map fun files => ⟨files, t.intoChunks⟩,
      ⟨true, false, none, (take live.files).2⟩) := by
  simp only [pause, h]

theorem pause_pieces : (live.pause take).2.pieces = none := by
  cases h : live.pieces with
  | none => rw [pause_none h]; exact h
  | some t => rw [pause_some h]

theorem allOrNothing_iff : live.AllOrNothing take ↔ live.CanPause take := by
  cases h : live.pieces with
  | none =>
    simp only [AllOrNothing, CanPause, pause_none h, h]
    constructor
    · intro hk
      have hlive := hk _ rfl
      exact ⟨congrArg cancelled hlive.symm, congrArg fatalErrorsTx hlive.symm⟩
    · rintro ⟨hc, hf⟩ - -
      rw [← hc, ← hf, ← h]
  | some t =>
    simp only [AllOrNothing, CanPause, pause_some h, h]
    constructor
    · intro hk
      cases htake : (take live.files).1 with
      | ok files => exact ⟨files, rfl⟩
      | error e =>
        -- the tracker was there and is not any more
        have hlive := congrArg pieces (hk e (by rw [htake]; rfl))
        rw [h] at hlive
        cases hlive
    · rintro ⟨files, htake⟩ e he
      rw [htake] at he
      cases he

end TorrentStateLive

namespace ManagedTorrentLocked

variable {g : ManagedTorrentLocked l σ} {live : TorrentStateLive l σ}

def AllOrNothing (take : σ → Except String σ × σ) (g : ManagedTorrentLocked l σ) : Prop :=
  ∀ e, (g.pause take).1 = .error e → (g.pause take).2 = g

theorem pause_live_ok {p : TorrentStatePaused l σ} (hs : g.state = .live live)
    (hp : (live.pause take).1 = .ok p) :
    g.pause take = (.ok (), { g with state := .paused p, paused := true }) := by
  have hpair : live.pause take = (.ok p, (live.pause take).2) := by rw [← hp]
  simp only [pause, hs]
  rw [hpair]

theorem pause_live_error {e : String} (hs : g.state = .live live)
    (hp : (live.pause take).1 = .error e) :
    g.pause take = (.error e, { g with state := .live (live.pause take).2 }) := by
  have hpair : live.pause take = (.error e, (live.pause take).2) := by rw [← hp]
  simp only [pause, hs]
  rw [hpair]

/-- In the other states a `pause` that fails has done nothing. -/
theorem allOrNothing_of_not_live (hs : ∀ live, g.state ≠ .live live) : g.AllOrNothing take := by
  intro e he
  cases h : g.state with
  | live live => exact absurd h (hs live)
  | initializing => simp [pause, h] at he
  | paused p => simp [pause, h]
  | error m => simp [pause, h]
  | none => simp [pause, h]

theorem allOrNothing_live_iff (hs : g.state = .live live) :
    g.AllOrNothing take ↔ live.AllOrNothing take := by
  constructor
  · intro hg e he
    have hpause := hg e (by rw [pause_live_error hs he])
    rw [pause_live_error hs he] at hpause
    have hstate := congrArg state hpause
    rw [hs] at hstate
    exact TorrentData.live.inj hstate
  · intro hlive e he
    cases hp : (live.pause take).1 with
    | ok p => simp [pause_live_ok hs hp] at he
    | error e' => rw [pause_live_error hs hp, hlive e' hp, ← hs]

/-- A torrent whose `pause` failed stays live without its tracker: every later `pause` fails. -/
theorem pause_fails_again (take : σ → Except String σ × σ) (hs : g.state = .live live)
    (hp : live.pieces = none) :
    (g.pause take).1 = .error "bug: pausing already paused torrent" ∧
      ∃ live', (g.pause take).2.state = .live live' ∧ live'.pieces = none := by
  have he : (live.pause take).1 = .error "bug: pausing already paused torrent" := by
    rw [TorrentStateLive.pause_none hp]
  rw [pause_live_error hs he]
  exact ⟨rfl, (live.pause take).2, rfl, TorrentStateLive.pause_pieces⟩

/-- Calls of `pause`, one after the other, each with what the storage does then. -/
def pauses (g : ManagedTorrentLocked l σ) (takes : List (σ → Except String σ × σ)) :
    ManagedTorrentLocked l σ :=
  takes.foldl (fun g take => (g.pause take).2) g

theorem pauses_without_tracker (takes : List (σ → Except String σ × σ))
    (hs : g.state = .live live) (hp : live.pieces = none) :
    ∃ live', (g.pauses takes).state = .live live' ∧ live'.pieces = none := by
  induction takes generalizing g live with
  | nil => exact ⟨live, hs, hp⟩
  | cons take takes ih =>
    obtain ⟨-, live', hs', hp'⟩ := pause_fails_again take hs hp
    exact ih hs' hp'

/-- After a `pause` failed no later one succeeds, also when the storage can be taken then. -/
theorem no_pause_after_failure {e : String} (hs : g.state = .live live)
    (he : (g.pause take).1 = .error e) (takes : List (σ → Except String σ × σ))
    (take' : σ → Except String σ × σ) :
    (((g.pause take).2.pauses takes).pause take').1 =
      .error "bug: pausing already paused torrent" := by
  cases hp : (live.pause take).1 with
  | ok p => simp [pause_live_ok hs hp] at he
  | error e' =>
    have hstate : (g.pause take).2.state = .live (live.pause take).2 := by
      rw [pause_live_error hs hp]
    obtain ⟨live', hs', hp'⟩ :=
      pauses_without_tracker takes hstate TorrentStateLive.pause_pieces
    exact (pause_fails_again take' hs' hp').1

end ManagedTorrentLocked

/-- For every storage: `pause` is all or nothing exactly if the storage can be taken. A live state
whose tracker is gone is left alone if its token and its sender are gone too. -/
theorem pause_all_or_nothing_iff {l : Lengths} {σ : Type} (take : σ → Except String σ × σ) :
    (∀ live : TorrentStateLive l σ, live.AllOrNothing take ↔ live.CanPause take) ∧
      ∀ g : ManagedTorrentLocked l σ,
        g.AllOrNothing take ↔ ∀ live, g.state = .live live → live.CanPause take := by
  refine ⟨fun live => TorrentStateLive.allOrNothing_iff, fun g => ⟨fun hg live hs => ?_, ?_⟩⟩
  · rw [← TorrentStateLive.allOrNothing_iff, ← ManagedTorrentLocked.allOrNothing_live_iff hs]
    exact hg
  · intro hcan
    by_cases hlive : ∃ live, g.state = .live live
    · obtain ⟨live, hs⟩ := hlive
      rw [ManagedTorrentLocked.allOrNothing_live_iff hs, TorrentStateLive.allOrNothing_iff]
      exact hcan live hs
    · exact ManagedTorrentLocked.allOrNothing_of_not_live fun live hs => hlive ⟨live, hs⟩

/-- The state of the torrent without what it holds. -/
def TorrentData.kind (init live : ℕ) : TorrentData l σ → ManagedTorrentState
  | .initializing => .initializing init
  | .paused _ => .paused
  | .live _ => .live live
  | .error _ => .error
  | .none => .none

/-- `ManagedTorrent.pause` is this `pause` without the data, told whether the live state fails. -/
theorem pause_kind {g : ManagedTorrentLocked l σ} {t : ManagedTorrent} {init live : ℕ}
    (hs : t.state = g.state.kind init live) (hp : t.paused = g.paused) (liveFails : Bool)
    (hf : ∀ l, g.state = .live l → (liveFails = true ↔ ∃ e, (l.pause take).1 = .error e)) :
    (t.pause liveFails).1.isOk = (g.pause take).1.isOk ∧
      (t.pause liveFails).2.state = (g.pause take).2.state.kind init live ∧
      (t.pause liveFails).2.paused = (g.pause take).2.paused := by
  cases h : g.state with
  | live l =>
    simp only [h, TorrentData.kind] at hs
    cases hl : (l.pause take).1 with
    | ok p =>
      have hok : liveFails = false := by
        rw [← Bool.not_eq_true, hf l h, hl]
        simp
      rw [ManagedTorrentLocked.pause_live_ok h hl, hok]
      simp [ManagedTorrent.pause, hs, ManagedTorrent.setState, TorrentData.kind, Except.isOk,
        Except.toBool]
    | error e =>
      have herr : liveFails = true := (hf l h).mpr ⟨e, hl⟩
      rw [ManagedTorrentLocked.pause_live_error h hl, herr]
      simp [ManagedTorrent.pause, hs, hp, TorrentData.kind, Except.isOk, Except.toBool]
  | initializing | paused | error | none =>
    simp only [h, TorrentData.kind] at hs
    simp [ManagedTorrent.pause, hs, hp, ManagedTorrentLocked.pause, h, ManagedTorrent.setState,
      TorrentData.kind, Except.isOk, Except.toBool]

end Pause

namespace FileStorage

variable {dummyMmap : ℕ → Except String Unit}

/-- Every `dummy_mmap` that `take` needs succeeds, and no layer is a `SlowStorage`. -/
def CanTake (dummyMmap : ℕ → Except String Unit) : FileStorage → Prop
  | .filesystem _ => True
  | .mmap openedMmaps _ => ∀ k < openedMmaps.length, dummyMmap k = .ok ()
  | .timing underlying => CanTake dummyMmap underlying
  | .slow _ => False
  | .writeThroughCache _ _ underlying => CanTake dummyMmap underlying

theorem takeMmaps_ok_iff (ms : List (Option ℕ)) (k : ℕ) :
    (∃ taken, (takeMmaps dummyMmap k ms).1 = .ok taken) ↔
      ∀ i < ms.length, dummyMmap (k + i) = .ok () := by
  induction ms generalizing k with
  | nil => simp [takeMmaps]
  | cons m ms ih =>
    rw [List.length_cons, Nat.forall_lt_succ_left]
    cases hd : dummyMmap k with
    | error e => simp [takeMmaps, hd]
    | ok u =>
      have hmap (r : Except String (List (Option ℕ))) :
          (∃ taken, r.map (m :: ·) = .ok taken) ↔ ∃ taken, r = .ok taken := by
        cases r <;> simp [Except.map]
      simp only [takeMmaps, hd, hmap, ih (k + 1), true_and, Nat.add_assoc,
        Nat.add_comm 1]

/-- When a `dummy_mmap` fails, the maps before it are dummies. -/
theorem takeMmaps_left (ms : List (Option ℕ)) (k n : ℕ) (hn : n < ms.length) {e : String}
    (hok : ∀ i < n, dummyMmap (k + i) = .ok ()) (he : dummyMmap (k + n) = .error e) :
    takeMmaps dummyMmap k ms = (.error e, List.replicate n none ++ ms.drop n) := by
  induction ms generalizing k n with
  | nil => simp at hn
  | cons m ms ih =>
    cases n with
    | zero =>
      rw [Nat.add_zero] at he
      simp only [takeMmaps, he]
      rfl
    | succ n =>
      have hk : dummyMmap k = .ok () := hok 0 n.succ_pos
      have hrest := ih (k + 1) n (by simpa using hn)
        (fun i hi => by simpa [Nat.add_assoc, Nat.add_comm 1] using hok (i + 1) (by omega))
        (by simpa [Nat.add_assoc, Nat.add_comm 1] using he)
      simp only [takeMmaps, hk, hrest]
      rfl

theorem take_ok_iff (s : FileStorage) :
    (∃ taken, (s.take dummyMmap).1 = .ok taken) ↔ s.CanTake dummyMmap := by
  -- over the layers of the storage
  induction s with
  | filesystem files => simp [take, CanTake]
  | mmap mmaps files =>
    have h : _ ↔ ∀ k < mmaps.length, dummyMmap (0 + k) = .ok () := takeMmaps_ok_iff mmaps 0
    simp only [Nat.zero_add] at h
    rw [CanTake, ← h]
    cases hr : takeMmaps dummyMmap 0 mmaps with
    | mk r left => cases r <;> simp [take, hr]
  | timing u ih =>
    rw [CanTake, ← ih]
    cases hu : (u.take dummyMmap).1 <;> simp [take, hu, Except.map]
  | slow u ih => simp [take, CanTake]
  | writeThroughCache c lru u ih =>
    rw [CanTake, ← ih]
    cases hu : (u.take dummyMmap).1 <;> simp [take, hu, Except.map]

/-- With the tracker in place, `pause` needs of a storage of the repository what `take` needs. -/
theorem canPause_iff {l : Lengths} {live : TorrentStateLive l FileStorage} {t : PieceTracker l}
    (h : live.pieces = some t) :
    live.CanPause (take dummyMmap) ↔ live.files.CanTake dummyMmap := by
  simp only [TorrentStateLive.CanPause, h]
  exact take_ok_iff live.files

end FileStorage

/-- The second anonymous map cannot be made. -/
def secondMapFails : ℕ → Except String Unit
  | 0 => .ok ()
  | _ => .error "Cannot allocate memory (os error 12)"

/-- A live torrent of two mapped files, with a piece in flight. -/
def mappedLive (c : ChunkTracker twoPieces) : TorrentStateLive twoPieces FileStorage :=
  ⟨false, true, some ((PieceTracker.new c).acquirePiece (plainRequest peerA)).2,
    .mmap [some 0, some 1] [some 0, some 1]⟩

/-- The tracker with its piece in flight, the sender and the first file are gone, the token is
cancelled, and a second `pause` fails although every map can be made. -/
theorem failed_pause_breaks_torrent : ∃ c,
    ChunkTracker.new (l := twoPieces) (somePieces 0 0) (somePieces 0 2) twoFiles = .ok c ∧
      ((mappedLive c).pieces.bind fun t => t.owner firstPiece) = some peerA ∧
      (mappedLive c).pause (FileStorage.take secondMapFails) =
        (.error "Cannot allocate memory (os error 12)",
          ⟨true, false, none, .mmap [none, some 1] [some 0, some 1]⟩) ∧
      ¬ (mappedLive c).AllOrNothing (FileStorage.take secondMapFails) ∧
      ¬ ManagedTorrentLocked.AllOrNothing (FileStorage.take secondMapFails)
        ⟨false, .live (mappedLive c), 0⟩ ∧
      ((ManagedTorrentLocked.pause (FileStorage.take secondMapFails)
        ⟨false, .live (mappedLive c), 0⟩).2.pause (FileStorage.take fun _ => .ok ())).1 =
          .error "bug: pausing already paused torrent" := by
  obtain ⟨c, hc, ho⟩ : ∃ c,
      ChunkTracker.new (l := twoPieces) (somePieces 0 0) (somePieces 0 2) twoFiles = .ok c ∧
        ((mappedLive c).pieces.bind fun t => t.owner firstPiece) = some peerA :=
    ⟨_, rfl, by decide +kernel⟩
  have hnot : ¬ (mappedLive c).CanPause (FileStorage.take secondMapFails) := by
    rw [FileStorage.canPause_iff rfl]
    exact fun h => nomatch h 1 (by decide)
  refine ⟨c, hc, ho, rfl, ?_, ?_, rfl⟩
  · rwa [TorrentStateLive.allOrNothing_iff]
  · rwa [ManagedTorrentLocked.allOrNothing_live_iff rfl, TorrentStateLive.allOrNothing_iff]

end Rtbit
