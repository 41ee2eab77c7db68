import Rtbit.Sanity.ChunkTracker
import Rtbit.Spec.PieceTracker

/-! What each operation of `PieceTracker` does to the owner and to the bits of one
piece. `acquire_cases` is the inversion of `acquirePiece`. -/

namespace Rtbit

open Lib

namespace PieceTracker

variable {l : Lengths} (t : PieceTracker l) (p q : ValidPieceIndex l)

theorem owner_eq_none : t.owner p = none ↔ t.inflight p = none := by
  simp [owner]

theorem owner_eq_some {a : PeerHandle} :
    t.owner p = some a ↔ ∃ info, t.inflight p = some info ∧ info.peer = a := by
  simp [owner]

theorem longer_some {best : Option (ValidPieceIndex l × PeerHandle × ℕ)}
    {x y : ValidPieceIndex l × PeerHandle × ℕ} (h : longer best y = some x) :
    best = some x ∨ x = y := by
  cases best with
  | none =>
    injection h with h
    exact Or.inr h.symm
  | some b =>
    simp only [longer] at h
    split_ifs at h
    · injection h with h
      exact Or.inr h.symm
    · exact Or.inl h

theorem maxElapsed_mem {xs : List (ValidPieceIndex l × PeerHandle × ℕ)}
    {x : ValidPieceIndex l × PeerHandle × ℕ} (h : maxElapsed xs = some x) : x ∈ xs := by
  have key : ∀ (ys : List (ValidPieceIndex l × PeerHandle × ℕ)) (best : Option _),
      ys.foldl longer best = some x → best = some x ∨ x ∈ ys := by
    intro ys
    induction ys with
    | nil =>
      intro best hb
      exact Or.inl hb
    | cons y ys ih =>
      intro best hb
      rcases ih _ hb with h1 | h1
      · rcases longer_some h1 with h2 | rfl
        · exact Or.inl h2
        · exact Or.inr List.mem_cons_self
      · exact Or.inr (List.mem_cons_of_mem _ h1)
  rcases key xs none h with h | h
  · cases h
  · exact h

theorem stealCandidate_some {t : PieceTracker l} {req : AcquireRequest l} {thr : ℕ}
    {p : ValidPieceIndex l} {a : PeerHandle} (h : t.stealCandidate req thr = some (p, a)) :
    t.owner p = some a ∧ a ≠ req.peer ∧ req.peerHasPiece p = true := by
  obtain ⟨avg, -, h⟩ := Option.bind_eq_some_iff.1 h
  obtain ⟨x, hx, he⟩ := Option.map_eq_some_iff.1 h
  obtain ⟨rfl, rfl⟩ := Prod.mk.inj he
  have hm := maxElapsed_mem hx
  simp only [List.mem_filterMap, Option.bind_eq_some_iff, Option.ite_none_right_eq_some,
    Option.some.injEq] at hm
  obtain ⟨p', -, info, hi, ⟨h1, h2, -⟩, rfl⟩ := hm
  exact ⟨(t.owner_eq_some p').2 ⟨info, hi, rfl⟩, h1, h2⟩

theorem trySteal_some {t t' : PieceTracker l} {req : AcquireRequest l} {thr : ℕ}
    {r : AcquireResult l} (h : t.trySteal req thr = some (r, t')) :
    ∃ p a, t.stealCandidate req thr = some (p, a) ∧ req.canSteal p = true ∧ r = .stolen p a ∧
      t' = { t with inflight := Function.update t.inflight p (some ⟨req.peer, req.now⟩) } := by
  obtain ⟨⟨p, a⟩, hc, h⟩ := Option.bind_eq_some_iff.1 h
  simp only [Option.ite_none_right_eq_some, Option.some.injEq, Prod.mk.injEq] at h
  obtain ⟨h1, h2, h3⟩ := h
  exact ⟨p, a, hc, h1, h2.symm, h3.symm⟩

theorem priorityPick_some {t : PieceTracker l} {req : AcquireRequest l} {p : ValidPieceIndex l}
    (h : t.priorityPick req = some p) :
    p ∈ req.priorityPieces ∧ t.chunks.havePieces.get p = false ∧ t.owner p = none := by
  have h1 := List.find?_some h
  simp only [ChunkTracker.isPieceHave, Bool.and_eq_true, Bool.not_eq_true',
    Option.isNone_iff_eq_none] at h1
  exact ⟨List.mem_of_find?_eq_some h, h1.1.1, (t.owner_eq_none p).2 h1.1.2⟩

theorem queuePick_some {t : PieceTracker l} {req : AcquireRequest l} {p : ValidPieceIndex l}
    (h : t.queuePick req = some p) : t.chunks.queuePieces.get p = true := by
  have h1 := List.mem_of_find?_eq_some h
  simp only [ChunkTracker.iterQueuedPieces, List.mem_filterMap, List.mem_filter] at h1
  obtain ⟨i, ⟨-, hq⟩, hv⟩ := h1
  rwa [← (l.validatePieceIndex_eq_some).1 hv]

/-- How a tracker changes when a piece is stolen, resp. reserved. -/
def stolenBy (t : PieceTracker l) (p : ValidPieceIndex l) (req : AcquireRequest l) : PieceTracker l :=
  { t with inflight := Function.update t.inflight p (some ⟨req.peer, req.now⟩) }

def reservedBy (t : PieceTracker l) (p : ValidPieceIndex l) (req : AcquireRequest l) :
    PieceTracker l :=
  (t.reservePiece p req.peer req.now).2

/-- Everything `acquire_piece` can do. -/
inductive Acquires (t : PieceTracker l) (req : AcquireRequest l) :
    AcquireResult l → PieceTracker l → Prop
  | steal {thr : ℕ} {p : ValidPieceIndex l} {a : PeerHandle} :
      t.stealCandidate req thr = some (p, a) → req.canSteal p = true →
      Acquires t req (.stolen p a) (t.stolenBy p req)
  | priority {p : ValidPieceIndex l} : t.trySteal req 10 = none → t.priorityPick req = some p →
      Acquires t req (.reserved p) (t.reservedBy p req)
  | queue {p : ValidPieceIndex l} : t.queuePick req = some p →
      Acquires t req (.reserved p) (t.reservedBy p req)
  | nothing : Acquires t req .noneAvailable t

theorem acquire_cases (t : PieceTracker l) (req : AcquireRequest l) :
    Acquires t req (t.acquirePiece req).1 (t.acquirePiece req).2 := by
  unfold acquirePiece
  split
  next r h10 =>
    obtain ⟨res, t'⟩ := r
    obtain ⟨p, a, hc, hs, rfl, rfl⟩ := trySteal_some h10
    exact .steal hc hs
  next h10 =>
    split
    next p hp => exact .priority h10 hp
    next hp =>
      split
      next p hq => exact .queue hq
      next hq =>
        split
        next r h3 =>
          obtain ⟨res, t'⟩ := r
          obtain ⟨p, a, hc, hs, rfl, rfl⟩ := trySteal_some h3
          exact .steal hc hs
        next h3 => exact .nothing

theorem stolenBy_owner (req : AcquireRequest l) :
    (t.stolenBy q req).owner p = if q = p then some req.peer else t.owner p := by
  by_cases h : q = p
  · subst h; simp [stolenBy, owner]
  · have h' : p ≠ q := fun he => h he.symm
    simp [stolenBy, owner, h, h']

theorem reservedBy_owner (req : AcquireRequest l) :
    (t.reservedBy q req).owner p = if q = p then some req.peer else t.owner p := by
  by_cases h : q = p
  · subst h; simp [reservedBy, reservePiece, owner]
  · have h' : p ≠ q := fun he => h he.symm
    simp [reservedBy, reservePiece, owner, h, h']

@[simp] theorem stolenBy_chunks (req : AcquireRequest l) : (t.stolenBy q req).chunks = t.chunks := rfl

@[simp] theorem reservedBy_chunks (req : AcquireRequest l) :
    (t.reservedBy q req).chunks = t.chunks.reserveNeededPiece q := rfl

theorem take_owner (now : ℕ) :
    (t.takeInflight q now).2.owner p = if q = p then none else t.owner p := by
  unfold takeInflight
  by_cases h : q = p
  · subst h
    cases hi : t.inflight q <;> simp [owner, hi]
  · have h' : p ≠ q := fun he => h he.symm
    cases hi : t.inflight q <;> simp [owner, h, h']

@[simp] theorem take_chunks (now : ℕ) : (t.takeInflight q now).2.chunks = t.chunks := by
  unfold takeInflight
  cases t.inflight q <;> rfl

theorem take_some (now : ℕ) : (t.takeInflight q now).1.isSome = (t.owner q).isSome := by
  unfold takeInflight
  cases hi : t.inflight q <;> simp [owner, hi]

@[simp] theorem hashOk_owner : (t.markPieceHashOk q).owner p = t.owner p := rfl
@[simp] theorem hashFailed_owner : (t.markPieceHashFailed q).owner p = t.owner p := rfl

theorem mem_inflightKeys (f : InflightPiece → Bool) :
    p ∈ t.inflightKeys f ↔ ∃ info, t.inflight p = some info ∧ f info = true := by
  simp only [inflightKeys, List.mem_filter, List.mem_finRange, true_and]
  cases t.inflight p <;> simp

/-! Releasing a list of pieces. -/

theorem release_owner (ps : List (ValidPieceIndex l)) :
    (ps.foldl releaseOne t).owner p = if p ∈ ps then none else t.owner p := by
  induction ps generalizing t with
  | nil => simp
  | cons q ps ih =>
    rw [List.foldl_cons, ih]
    by_cases h : p = q
    · subst h; simp [releaseOne, owner]
    · simp [releaseOne, owner, h]

theorem release_chunks (ps : List (ValidPieceIndex l)) :
    (ps.foldl releaseOne t).chunks = ps.foldl ChunkTracker.markPieceBrokenIfNotHave t.chunks := by
  induction ps generalizing t with
  | nil => rfl
  | cons q ps ih => rw [List.foldl_cons, ih]; rfl

end PieceTracker

namespace ChunkTracker

variable {l : Lengths} (t : ChunkTracker l) (p : ValidPieceIndex l)

theorem brokens_same (ps : List (ValidPieceIndex l)) :
    (ps.foldl markPieceBrokenIfNotHave t).havePieces = t.havePieces ∧
      (ps.foldl markPieceBrokenIfNotHave t).selected = t.selected ∧
      (ps.foldl markPieceBrokenIfNotHave t).perFileBytes = t.perFileBytes := by
  induction ps generalizing t with
  | nil => exact ⟨rfl, rfl, rfl⟩
  | cons q ps ih =>
    obtain ⟨h1, h2, h3⟩ := ih (t.markPieceBrokenIfNotHave q)
    rw [broken_have] at h1
    rw [broken_selected] at h2
    rw [broken_perFile] at h3
    exact ⟨h1, h2, h3⟩

theorem brokens_queue (ps : List (ValidPieceIndex l)) :
    (ps.foldl markPieceBrokenIfNotHave t).queuePieces.get p =
      if p ∈ ps ∧ t.havePieces.get p = false then true else t.queuePieces.get p := by
  induction ps generalizing t with
  | nil => simp
  | cons q ps ih =>
    rw [List.foldl_cons, ih, broken_have, broken_queue]
    by_cases hq : q = p
    · subst hq
      by_cases hh : t.havePieces.get q = false <;> simp [hh]
    · have hq' : p ≠ q := fun h => hq h.symm
      simp [hq, hq']

end ChunkTracker

namespace PieceTracker

variable {l : Lengths} (t : PieceTracker l) (p : ValidPieceIndex l)

theorem released_owner (a : PeerHandle) :
    (t.releasePiecesOwnedBy a).1.owner p = if t.owner p = some a then none else t.owner p := by
  have h : p ∈ (t.inflightKeys fun info => info.peer == a) ↔ t.owner p = some a := by
    rw [mem_inflightKeys, owner_eq_some]
    simp
  simp only [releasePiecesOwnedBy, release_owner, h]

theorem released_queue (a : PeerHandle) :
    (t.releasePiecesOwnedBy a).1.chunks.queuePieces.get p =
      if t.owner p = some a ∧ t.chunks.havePieces.get p = false then true
      else t.chunks.queuePieces.get p := by
  have h : p ∈ (t.inflightKeys fun info => info.peer == a) ↔ t.owner p = some a := by
    rw [mem_inflightKeys, owner_eq_some]
    simp
  simp only [releasePiecesOwnedBy, release_chunks, ChunkTracker.brokens_queue, h]

theorem released_same (a : PeerHandle) :
    (t.releasePiecesOwnedBy a).1.chunks.havePieces = t.chunks.havePieces ∧
      (t.releasePiecesOwnedBy a).1.chunks.selected = t.chunks.selected ∧
      (t.releasePiecesOwnedBy a).1.chunks.perFileBytes = t.chunks.perFileBytes := by
  simp only [releasePiecesOwnedBy, release_chunks]
  exact ChunkTracker.brokens_same _ _

theorem intoChunks_queue :
    t.intoChunks.queuePieces.get p =
      if (t.owner p).isSome ∧ t.chunks.havePieces.get p = false then true
      else t.chunks.queuePieces.get p := by
  have h : p ∈ (t.inflightKeys fun _ => true) ↔ (t.owner p).isSome := by
    rw [mem_inflightKeys, Option.isSome_iff_exists]
    simp [owner]
  simp only [intoChunks, ChunkTracker.brokens_queue, h]

theorem intoChunks_same :
    t.intoChunks.havePieces = t.chunks.havePieces ∧ t.intoChunks.selected = t.chunks.selected ∧
      t.intoChunks.perFileBytes = t.chunks.perFileBytes :=
  ChunkTracker.brokens_same _ _

theorem marked_same {t t' : PieceTracker l} {m : PieceMsg} {r : ChunkMarkingResult}
    (h : t.markChunkDownloaded m = some (r, t')) :
    t'.inflight = t.inflight ∧ ChunkTracker.SamePieces t.chunks t'.chunks ∧
      ∃ p : ValidPieceIndex l, m.index = p := by
  obtain ⟨⟨r', c⟩, hc, he⟩ := Option.map_eq_some_iff.1 h
  obtain ⟨rfl, rfl⟩ := Prod.mk.inj he
  exact ⟨rfl, ChunkTracker.chunk_same hc, ChunkTracker.chunk_piece hc⟩

/-- `on_piece_completed` changes the per-file counters only. -/
theorem onPieceCompleted_same (fs : List FileInfo) :
    (t.onPieceCompleted fs p).inflight = t.inflight ∧
      (t.onPieceCompleted fs p).chunks.queuePieces = t.chunks.queuePieces ∧
      (t.onPieceCompleted fs p).chunks.havePieces = t.chunks.havePieces ∧
      (t.onPieceCompleted fs p).chunks.selected = t.chunks.selected := by
  refine ⟨rfl, ?_⟩
  simp only [onPieceCompleted]
  generalize filesOnPieceCompleted fs p = xs
  generalize t.chunks = c
  induction xs generalizing c with
  | nil => exact ⟨rfl, rfl, rfl⟩
  | cons x xs ih => exact ih _

end PieceTracker

end Rtbit
