import Rtbit.Sanity.PieceTracker
import Rtbit.Spec.PieceLife

/-! A step of the torrent is, seen from each piece, one operation of `PieceOp`.
`step_piece` is the only place where the steps are taken apart. -/

namespace Rtbit

open Lib

namespace LiveTracker

variable {l : Lengths}

/-- What the critical section after a disk write can do. -/
inductive Marks (s s' : LiveTracker l) : Prop
  | same : ChunkTracker.SamePieces s.pieces.chunks s'.pieces.chunks →
      (∀ p, s'.pieces.owner p = s.pieces.owner p) → s'.hashing = s.hashing →
      s'.completing = s.completing → Marks s s'
  | taken (q : ValidPieceIndex l) : ChunkTracker.SamePieces s.pieces.chunks s'.pieces.chunks →
      s.pieces.owner q ≠ none →
      (∀ p, s'.pieces.owner p = if q = p then none else s.pieces.owner p) →
      s'.hashing = Function.update s.hashing q (s.hashing q + 1) →
      s'.completing = s.completing → Marks s s'

theorem takeCompleted_marks (s : LiveTracker l) (p : ValidPieceIndex l) (now : ℕ) :
    Marks s (s.takeCompleted p now) := by
  have hsame : ChunkTracker.SamePieces s.pieces.chunks (s.takeCompleted p now).pieces.chunks := by
    change ChunkTracker.SamePieces _ (s.pieces.takeInflight p now).2.chunks
    rw [PieceTracker.take_chunks]
    exact .refl _
  have howner (q : ValidPieceIndex l) : (s.takeCompleted p now).pieces.owner q =
      if p = q then none else s.pieces.owner q := s.pieces.take_owner q p now
  have htake := s.pieces.take_some p now
  by_cases ho : s.pieces.owner p = none
  · refine .same hsame ?_ ?_ rfl
    · intro q
      rw [howner]
      split_ifs with hq
      · rw [← hq, ho]
      · rfl
    · simp [takeCompleted, htake, ho]
  · refine .taken p hsame ho howner ?_ rfl
    simp [takeCompleted, htake, Option.isSome_iff_ne_none.2 ho]

theorem markChunk_marks (s : LiveTracker l) (m : PieceMsg) (now : ℕ) :
    Marks s (s.markChunk m now) := by
  unfold markChunk
  cases hm : s.pieces.markChunkDownloaded m with
  | none => exact .same (.refl _) (fun _ => rfl) rfl rfl
  | some x =>
    obtain ⟨r, t⟩ := x
    obtain ⟨hi, hs, -⟩ := PieceTracker.marked_same hm
    have ho (p : ValidPieceIndex l) : t.owner p = s.pieces.owner p := by
      unfold PieceTracker.owner
      rw [hi]
    have hsame : Marks s { s with pieces := t } := .same hs ho rfl rfl
    cases r with
    | previouslyCompleted => exact hsame
    | notCompleted => exact hsame
    | completed =>
      cases hv : l.validatePieceIndex m.index with
      | none => exact hsame
      | some p =>
        rcases takeCompleted_marks { s with pieces := t } p now with
          ⟨h1, h2, h3, h4⟩ | ⟨q, h1, h2, h3, h4, h5⟩
        · exact .same (hs.trans h1) (fun q => (h2 q).trans (ho q)) h3 h4
        · refine .taken q (hs.trans h1) ?_ ?_ h4 h5
          · rwa [← ho q]
          · intro p
            rw [h3, ho]

end LiveTracker

namespace Torrent

variable {l : Lengths} {fs : List FileInfo}

theorem acquire_piece (s : LiveTracker l) (req : AcquireRequest l) (p : ValidPieceIndex l) :
    ∃ pop, Induces fs (.live s) (.acquire req) p pop ∧ (piece (.live s) p).Enabled pop ∧
      piece (.live (s.acquire req)) p = (piece (.live s) p).apply pop := by
  -- the piece that changes hands is `q`; every other piece stays as it is
  have hstay (q : ValidPieceIndex l) (t : PieceTracker l) (hq : q ≠ p)
      (ht : (s.pieces.acquirePiece req).2 = t)
      (ho : t.owner p = if q = p then some req.peer else s.pieces.owner p)
      (hc : t.chunks.queuePieces.get p = s.pieces.chunks.queuePieces.get p)
      (hh : t.chunks.havePieces = s.pieces.chunks.havePieces)
      (hs : t.chunks.selected = s.pieces.chunks.selected) :
      piece (.live (s.acquire req)) p = piece (.live s) p := by
    simp only [piece, LiveTracker.acquire, chunks, owner, hashing, completing, ht, ho, hc, hh, hs,
      if_neg hq]
  have hacq := s.pieces.acquire_cases req
  generalize ht : (s.pieces.acquirePiece req).2 = t at hacq
  generalize (s.pieces.acquirePiece req).1 = r at hacq
  cases hacq with
  | @steal thr q a hc hs =>
    obtain ⟨ho, hne, -⟩ := PieceTracker.stealCandidate_some hc
    by_cases hq : q = p
    · subst hq
      refine ⟨.steal req.peer, .steal req q, ⟨a, ho, hne⟩, ?_⟩
      simp only [piece, LiveTracker.acquire, chunks, owner, hashing, completing, ht,
        PieceTracker.stolenBy_owner, if_true, PieceView.apply, PieceTracker.stolenBy_chunks]
    · exact ⟨.stay, .stay _ p, trivial,
        hstay q _ hq ht (s.pieces.stolenBy_owner p q req) rfl rfl rfl⟩
  | @priority q h10 hp =>
    by_cases hq : q = p
    · subst hq
      obtain ⟨-, hh, ho⟩ := PieceTracker.priorityPick_some hp
      refine ⟨.reserve req.peer true, .priority rfl h10 hp, ⟨hh, ho⟩, ?_⟩
      simp only [piece, LiveTracker.acquire, chunks, owner, hashing, completing, ht,
        PieceTracker.reservedBy_owner, if_true, PieceView.apply, PieceTracker.reservedBy_chunks,
        ChunkTracker.reserve_queue, ChunkTracker.reserve_have, ChunkTracker.reserve_selected]
    · refine ⟨.stay, .stay _ p, trivial,
        hstay q _ hq ht (s.pieces.reservedBy_owner p q req) ?_ rfl rfl⟩
      rw [PieceTracker.reservedBy_chunks, ChunkTracker.reserve_queue, if_neg hq]
  | @queue q hp =>
    by_cases hq : q = p
    · subst hq
      refine ⟨.reserve req.peer false, .reserve req q,
        PieceTracker.queuePick_some hp, ?_⟩
      simp only [piece, LiveTracker.acquire, chunks, owner, hashing, completing, ht,
        PieceTracker.reservedBy_owner, if_true, PieceView.apply, PieceTracker.reservedBy_chunks,
        ChunkTracker.reserve_queue, ChunkTracker.reserve_have, ChunkTracker.reserve_selected]
    · refine ⟨.stay, .stay _ p, trivial,
        hstay q _ hq ht (s.pieces.reservedBy_owner p q req) ?_ rfl rfl⟩
      rw [PieceTracker.reservedBy_chunks, ChunkTracker.reserve_queue, if_neg hq]
  | nothing =>
    refine ⟨.stay, .stay _ p, trivial, ?_⟩
    simp only [piece, LiveTracker.acquire, chunks, owner, hashing, completing, ht, PieceView.apply]

theorem mark_piece (s : LiveTracker l) (m : PieceMsg) (now : ℕ) (p : ValidPieceIndex l) :
    ∃ pop, Induces fs (.live s) (.markChunk m now) p pop ∧ (piece (.live s) p).Enabled pop ∧
      piece (.live (s.markChunk m now)) p = (piece (.live s) p).apply pop := by
  have hstay (hs : ChunkTracker.SamePieces s.pieces.chunks (s.markChunk m now).pieces.chunks)
      (ho : (s.markChunk m now).pieces.owner p = s.pieces.owner p)
      (hh : (s.markChunk m now).hashing p = s.hashing p)
      (hc : (s.markChunk m now).completing = s.completing) :
      piece (.live (s.markChunk m now)) p = piece (.live s) p := by
    simp only [piece, chunks, owner, hashing, completing, hs.queue, hs.have_, hs.selected, ho, hh, hc]
  rcases s.markChunk_marks m now with ⟨hs, ho, hh, hc⟩ | ⟨q, hs, hq, ho, hh, hc⟩
  · exact ⟨.stay, .stay _ p, trivial, hstay hs (ho p) (by rw [hh]) hc⟩
  · by_cases hqp : q = p
    · subst hqp
      refine ⟨.take, .take m now q, hq, ?_⟩
      simp only [piece, chunks, owner, hashing, completing, hs.queue, hs.have_, hs.selected, ho, hh,
        hc, if_true, Function.update_self, PieceView.apply]
    · refine ⟨.stay, .stay _ p, trivial, hstay hs ?_ ?_ hc⟩
      · rw [ho, if_neg hqp]
      · rw [hh, Function.update_of_ne (fun h => hqp h.symm)]

theorem check_piece (s : LiveTracker l) (q p : ValidPieceIndex l) (r : CheckResult) :
    piece (.live (s.checkPiece q r)) p =
      (piece (.live s) p).apply (if q = p then .check r else .stay) := by
  by_cases hq : q = p
  · subst hq
    cases r <;>
      simp [piece, chunks, owner, hashing, completing, LiveTracker.checkPiece, PieceView.apply,
        PieceTracker.markPieceHashOk, PieceTracker.markPieceHashFailed, PieceTracker.owner,
        ChunkTracker.downloaded_have, ChunkTracker.broken_queue]
    cases s.pieces.chunks.havePieces.get q <;> simp
  · have hp : p ≠ q := fun h => hq h.symm
    cases r <;>
      simp [piece, chunks, owner, hashing, completing, LiveTracker.checkPiece, PieceView.apply,
        PieceTracker.markPieceHashOk, PieceTracker.markPieceHashFailed, PieceTracker.owner,
        ChunkTracker.downloaded_have, ChunkTracker.broken_queue, hq, hp]

theorem completed_piece (s : LiveTracker l) (q p : ValidPieceIndex l) :
    piece (.live (s.onPieceCompleted fs q)) p =
      (piece (.live s) p).apply (if q = p then .completed else .stay) := by
  obtain ⟨h1, h2, h3, h4⟩ := s.pieces.onPieceCompleted_same q fs
  have ho : (s.pieces.onPieceCompleted fs q).owner p = s.pieces.owner p := by
    unfold PieceTracker.owner
    rw [h1]
  by_cases hq : q = p
  · subst hq
    simp [piece, chunks, owner, hashing, completing, LiveTracker.onPieceCompleted, PieceView.apply,
      h2, h3, h4, ho]
  · have hp : p ≠ q := fun h => hq h.symm
    simp [piece, chunks, owner, hashing, completing, LiveTracker.onPieceCompleted, PieceView.apply,
      h2, h3, h4, ho, hq, hp]

theorem release_piece (s : LiveTracker l) (a : PeerHandle) (p : ValidPieceIndex l) :
    piece (.live (s.release a)) p =
      (piece (.live s) p).apply (if s.pieces.owner p = some a then .release else .stay) := by
  obtain ⟨h1, h2, -⟩ := s.pieces.released_same a
  have hq := s.pieces.released_queue p a
  have ho := s.pieces.released_owner p a
  by_cases ha : s.pieces.owner p = some a
  · simp only [piece, chunks, owner, hashing, completing, LiveTracker.release, h1, h2, hq, ho, ha,
      if_true, true_and, PieceView.apply]
    cases s.pieces.chunks.havePieces.get p <;> simp
  · simp only [piece, chunks, owner, hashing, completing, LiveTracker.release, h1, h2, hq, ho, ha,
      if_false, false_and, PieceView.apply]

theorem pause_piece (s : LiveTracker l) (p : ValidPieceIndex l) :
    piece (.paused s.pieces.intoChunks) p = (piece (.live s) p).apply .pause := by
  obtain ⟨h1, h2, -⟩ := s.pieces.intoChunks_same
  simp only [piece, chunks, owner, hashing, completing, h1, h2, s.pieces.intoChunks_queue p,
    PieceView.apply]
  cases (s.pieces.owner p).isSome <;> cases s.pieces.chunks.havePieces.get p <;>
    cases s.pieces.chunks.queuePieces.get p <;> rfl

theorem update_piece (s : LiveTracker l) (only : Finset ℕ) (p : ValidPieceIndex l) :
    piece (.live (s.updateOnlyFiles fs only)) p =
      (piece (.live s) p).apply (.select ((ChunkTracker.selection l fs only).get p)) := by
  simp only [piece, chunks, owner, hashing, completing, LiveTracker.updateOnlyFiles,
    PieceTracker.updateOnlyFiles, PieceTracker.owner, ChunkTracker.update_have,
    ChunkTracker.update_selected, ChunkTracker.update_queue, PieceView.apply]

theorem update_piece_paused (c : ChunkTracker l) (only : Finset ℕ) (p : ValidPieceIndex l) :
    piece (.paused (c.updateOnlyFiles fs only)) p =
      (piece (.paused c) p).apply (.select ((ChunkTracker.selection l fs only).get p)) := by
  simp only [piece, chunks, owner, hashing, completing, ChunkTracker.update_have,
    ChunkTracker.update_selected, ChunkTracker.update_queue, PieceView.apply]

/-- Every step of the torrent is, for every piece, an enabled operation on its view. -/
theorem step_piece {s s' : Torrent l} {op : TorrentOp l} (h : step fs s op = some s')
    (p : ValidPieceIndex l) :
    ∃ pop, Induces fs s op p pop ∧ (s.piece p).Enabled pop ∧ s'.piece p = (s.piece p).apply pop := by
  cases s with
  | live s =>
    cases op with
    | acquire req => injection h with h; subst h; exact acquire_piece s req p
    | markChunk m now => injection h with h; subst h; exact mark_piece s m now p
    | checkPiece q r =>
      simp only [step, Option.ite_none_right_eq_some, Option.some.injEq] at h
      obtain ⟨hpos, rfl⟩ := h
      have hc := check_piece s q p r
      split_ifs at hc with hq
      · subst hq; exact ⟨_, .check q r, hpos, hc⟩
      · exact ⟨_, .stay _ p, trivial, hc⟩
    | onPieceCompleted q =>
      simp only [step, Option.ite_none_right_eq_some, Option.some.injEq] at h
      obtain ⟨hpos, rfl⟩ := h
      have hc : piece (.live (s.onPieceCompleted fs q)) p = _ := completed_piece s q p
      split_ifs at hc with hq
      · subst hq; exact ⟨_, .completed q, hpos, hc⟩
      · exact ⟨_, .stay _ p, trivial, hc⟩
    | release a =>
      injection h with h
      subst h
      have hr := release_piece s a p
      split_ifs at hr with ha
      · refine ⟨_, .release ha, ?_, hr⟩
        change s.pieces.owner p ≠ none
        simp [ha]
      · exact ⟨_, .stay _ p, trivial, hr⟩
    | updateOnlyFiles only =>
      injection h with h; subst h; exact ⟨_, .select only p, trivial, update_piece s only p⟩
    | pause => injection h with h; subst h; exact ⟨_, .pause p, trivial, pause_piece s p⟩
    | resume => cases h
  | paused c =>
    cases op with
    | updateOnlyFiles only =>
      injection h with h; subst h; exact ⟨_, .select only p, trivial, update_piece_paused c only p⟩
    | resume => injection h with h; subst h; exact ⟨.stay, .stay _ p, trivial, rfl⟩
    | _ => cases h

/-- The view of a piece when the torrent starts. -/
theorem start_piece {h sel : Bits} {c : ChunkTracker l} (hc : ChunkTracker.new h sel fs = .ok c)
    (p : ValidPieceIndex l) :
    ((start c).piece p).queued = (((start c).piece p).selected && !((start c).piece p).have_) ∧
      ((start c).piece p).owner = none ∧ ((start c).piece p).hashing = 0 ∧
      ((start c).piece p).completing = 0 :=
  ⟨ChunkTracker.new_queue hc p, rfl, rfl, rfl⟩

end Torrent

/-- A run found by executing its steps, with a fact about the state it ends in. -/
theorem exists_run {l : Lengths} {fs : List FileInfo} {h sel : Bits} {S E : Type*}
    {step : S → E → Option S} {ok : S → E → Prop} [∀ s e, Decidable (ok s e)]
    {start : ChunkTracker l → S} {evs : List E} {q : S → Bool}
    (hq : (match ChunkTracker.new h sel fs with
      | .ok c => (exec step ok (start c) evs).any q
      | .error _ => false) = true) :
    ∃ c t, ChunkTracker.new h sel fs = .ok c ∧ Run step ok (start c) evs t ∧ q t = true := by
  cases hc : ChunkTracker.new h sel fs with
  | error e => simp [hc] at hq
  | ok c =>
    simp only [hc, Option.any_eq_true] at hq
    obtain ⟨t, ht, hqt⟩ := hq
    exact ⟨c, t, rfl, Run.of_exec ht, hqt⟩

/-! The torrents of the examples, one file a piece. -/

/-- Two pieces of one chunk each. -/
def twoPieces : Lengths :=
  Lengths.new 32768 16384 (by decide) (by decide) (by decide) (by decide)

def twoFiles : List FileInfo := [⟨0, (0, 1), false, 16384⟩, ⟨16384, (1, 2), false, 16384⟩]

/-- Two pieces of two chunks each. -/
def fourChunks : Lengths :=
  Lengths.new 65536 32768 (by decide) (by decide) (by decide) (by decide)

def fourChunkFiles : List FileInfo := [⟨0, (0, 1), false, 32768⟩, ⟨32768, (1, 2), false, 32768⟩]

def firstPiece : ValidPieceIndex twoPieces := ⟨0, by decide⟩

def secondPiece : ValidPieceIndex twoPieces := ⟨1, by decide⟩

/-- The pieces `lo ≤ p < hi` in a bit field of the torrent. -/
def somePieces (lo hi : ℕ) : Bits := (Bits.zeros 8).fill lo hi true

def peerA : PeerHandle := ⟨.v4 1, 6881⟩

def peerB : PeerHandle := ⟨.v4 2, 6881⟩

/-- A request of a peer that has every piece. -/
def requestFor (l : Lengths) (fs : List FileInfo) (a : PeerHandle) : AcquireRequest l where
  peer := a
  peerAvgTime := none
  priorityPieces := []
  filePriorities := List.range fs.length
  fileInfos := fs
  peerHasPiece _ := true
  canSteal _ := true
  now := 0
  mapOrder := []
  scaled avg threshold := avg * threshold

def plainRequest (a : PeerHandle) : AcquireRequest twoPieces := requestFor twoPieces twoFiles a

/-- A peer that has waited long enough to steal any piece of a slower one. -/
def eagerRequest (l : Lengths) (fs : List FileInfo) (a : PeerHandle) : AcquireRequest l :=
  { requestFor l fs a with
    peerAvgTime := some 1, now := 100, mapOrder := List.finRange l.totalPieces }

end Rtbit
