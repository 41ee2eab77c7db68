import Rtbit.Sanity.FileLayout
import Rtbit.Sanity.PieceTracker
import Rtbit.Sanity.Torrent

/-! What `acquire_piece` promises for each of its results. The queue is walked file by file, in the
order of the priorities and with the first and the last piece of a file in front; no piece that is
queued is passed over, since a piece that is not have lies in a file that is not complete. -/

namespace Rtbit

open Lib

namespace FileInfo

variable {fi : FileInfo} {p : ℕ}

theorem mem_iterPiecePriorities (h : fi.pieceRange.2 < 2 ^ 32) :
    p ∈ fi.iterPiecePriorities ↔ fi.contains p = true := by
  unfold iterPiecePriorities contains
  generalize fi.pieceRange.1 = start
  generalize fi.pieceRange.2 = stop at h
  obtain hn | hn | ⟨m, hm⟩ : stop - start = 0 ∨ stop - start = 1 ∨ ∃ m, stop - start = m + 2 := by
    rcases Nat.lt_or_ge (stop - start) 2 with hlt | hge
    · omega
    · exact Or.inr (Or.inr ⟨stop - start - 2, by omega⟩)
  · simp only [hn, List.take_zero, List.not_mem_nil, decide_eq_true_eq, false_iff]
    omega
  · simp only [hn, List.cons_append, List.take_succ_cons, List.take_zero, List.mem_cons,
      List.not_mem_nil, or_false, decide_eq_true_eq]
    omega
  · -- the first, the last, and the `m` pieces between them
    have h1 : u64Sub (m + 2) 1 = m + 1 := u64Sub_of_le (by omega) (by omega)
    have h2 : u64Sub (m + 2) 2 = m := u64Sub_of_le (by omega) (by omega)
    have hlast : (start + (m + 1)) % 2 ^ 64 = start + (m + 1) := Nat.mod_eq_of_lt (by omega)
    have hmid : ((List.range' start (m + 2)).drop 1).take m = List.range' (start + 1) m := by
      rw [List.range'_succ, List.drop_succ_cons, List.drop_zero, List.take_range'_of_length_ge]
      omega
    have hall : ([start] ++ [start + (m + 1)] ++ List.range' (start + 1) m).take (m + 2) =
        [start] ++ [start + (m + 1)] ++ List.range' (start + 1) m := by
      apply List.take_of_length_le
      simp only [List.length_append, List.length_cons, List.length_nil, List.length_range']
      omega
    simp only [hm, h1, h2, hlast, hmid, hall, List.mem_append, List.mem_cons, List.not_mem_nil,
      or_false, List.mem_range'_1, decide_eq_true_eq]
    omega

/-- `iter_piece_priorities`; `none` if the sum for the last piece overflows. -/
def checkedPriorities (fi : FileInfo) : Option (List ℕ) :=
  if fi.pieceRange.1 + u64Sub (fi.pieceRange.2 - fi.pieceRange.1) 1 < 2 ^ 64 then
    some fi.iterPiecePriorities
  else none

theorem checkedPriorities_eq (h : fi.pieceRange.2 < 2 ^ 32) (hc : fi.contains p = true) :
    fi.checkedPriorities = some fi.iterPiecePriorities := by
  simp only [contains, decide_eq_true_eq] at hc
  refine if_pos ?_
  rw [u64Sub_of_le (by omega) (by omega)]
  omega

end FileInfo

namespace ChunkTracker

variable {l : Lengths} {t : ChunkTracker l} {fs : List FileInfo} {priorities : List ℕ}

/-- The pieces of one file that are queued; `none` if a piece has no bit in the queue. -/
def checkedIds (t : ChunkTracker l) : List ℕ → Option (List (ValidPieceIndex l))
  | [] => some []
  | id :: ids =>
    if id < t.queuePieces.len then
      (t.checkedIds ids).map fun rest =>
        (if t.queuePieces.get id then (l.validatePieceIndex id).toList else []) ++ rest
    else none

/-- `iter_queued_pieces` with its indices and its sums checked; `none` is a panic. -/
def checkedQueuedPieces (t : ChunkTracker l) (fileInfos : List FileInfo) :
    List ℕ → Option (List (ValidPieceIndex l))
  | [] => some []
  | p :: priorities =>
    match fileInfos[p]? with
    | none => t.checkedQueuedPieces fileInfos priorities
    | some fi =>
      t.perFileBytes[p]?.bind fun bytes =>
        if bytes = fi.len then t.checkedQueuedPieces fileInfos priorities
        else
          (fi.checkedPriorities.bind t.checkedIds).bind fun ids =>
            (t.checkedQueuedPieces fileInfos priorities).map fun rest => ids ++ rest

theorem checkedIds_eq {ids : List ℕ} (h : ∀ id ∈ ids, id < t.queuePieces.len) :
    t.checkedIds ids = some ((ids.filter t.queuePieces.get).filterMap l.validatePieceIndex) := by
  induction ids with
  | nil => rfl
  | cons id ids ih =>
    rw [checkedIds, if_pos (h id List.mem_cons_self),
      ih fun i hi => h i (List.mem_cons_of_mem _ hi), Option.map_some, List.filter_cons]
    split_ifs with hget
    · rw [List.filterMap_cons]
      cases l.validatePieceIndex id <;> rfl
    · rfl

theorem iterQueuedPieces_cons {p : ℕ} : t.iterQueuedPieces (p :: priorities) fs =
    match fs[p]? with
    | none => t.iterQueuedPieces priorities fs
    | some fi =>
      if t.perFileBytes.getD p 0 = fi.len then t.iterQueuedPieces priorities fs
      else (fi.iterPiecePriorities.filter t.queuePieces.get).filterMap l.validatePieceIndex ++
        t.iterQueuedPieces priorities fs := by
  unfold iterQueuedPieces
  rw [List.filterMap_cons]
  cases fs[p]? with
  | none => rfl
  | some fi =>
    simp only [Option.map_some, List.filter_cons]
    by_cases he : t.perFileBytes.getD p 0 = fi.len
    · simp only [he, ne_eq, not_true_eq_false, decide_false, Bool.false_eq_true, if_false, if_true]
    · simp only [he, ne_eq, not_false_eq_true, decide_true, if_true, if_false, List.flatMap_cons,
        List.filter_append, List.filterMap_append]

/-- A queued piece of a file that is not complete is met. -/
theorem mem_iterQueuedPieces {p : ValidPieceIndex l} {i : ℕ} {fi : FileInfo}
    (hi : i ∈ priorities) (hfi : fs[i]? = some fi) (hne : t.perFileBytes.getD i 0 ≠ fi.len)
    (hp : (p : ℕ) ∈ fi.iterPiecePriorities) (hq : t.queuePieces.get p = true) :
    p ∈ t.iterQueuedPieces priorities fs := by
  simp only [iterQueuedPieces, List.mem_filterMap, List.mem_filter, List.mem_flatMap]
  refine ⟨p, ⟨⟨(i, fi), ⟨⟨i, hi, ?_⟩, decide_eq_true hne⟩, hp⟩, hq⟩, l.validatePieceIndex_val p⟩
  rw [hfi]
  rfl

/-- The counter of every file holds the bytes of its pieces that are have. -/
def ExactBytes (t : ChunkTracker l) (fs : List FileInfo) : Prop :=
  ∀ (i : ℕ) (fi : FileInfo), fs[i]? = some fi →
    t.perFileBytes[i]? = some (fi.bytesOf l t.havePieces.get)

/-- A file that misses a byte is not skipped. -/
theorem ExactBytes.ne_len (h : t.ExactBytes fs) (hl : LooseLayout l fs) {i : ℕ} {fi : FileInfo}
    {p : ValidPieceIndex l} (hi : fs[i]? = some fi) (hp : 0 < fi.bytesIn l p)
    (hhave : t.havePieces.get p = false) : t.perFileBytes.getD i 0 ≠ fi.len := by
  have hle : fi.bytesOf l t.havePieces.get + fi.bytesIn l p ≤
      ∑ q ∈ Finset.range l.totalPieces, fi.bytesIn l q := weight_add_le_total p.isLt hhave
  rw [FileInfo.sum_bytesIn (hl.end_le_total hi)] at hle
  rw [List.getD_eq_getElem?_getD, h i fi hi, Option.getD_some]
  omega

/-- No step of the iteration panics. -/
theorem checkedQueuedPieces_eq (h : t.ExactBytes fs) (hl : LooseLayout l fs) :
    t.checkedQueuedPieces fs priorities = some (t.iterQueuedPieces priorities fs) := by
  induction priorities with
  | nil => rfl
  | cons p priorities ih =>
    rw [checkedQueuedPieces, iterQueuedPieces_cons, ih]
    cases hi : fs[p]? with
    | none => rfl
    | some fi =>
      simp only [h p fi hi, Option.bind_some, List.getD_eq_getElem?_getD, Option.getD_some]
      split_ifs with hbytes
      · rfl
      · have hpos := hl.len_pos hi hbytes
        have hlt : fi.pieceRange.2 < 2 ^ 32 :=
          lt_of_le_of_lt (hl.range_le hi hpos) l.totalPieces_lt
        obtain ⟨q, hq⟩ := hl.exists_contains hi hpos
        have hids : ∀ id ∈ fi.iterPiecePriorities, id < t.queuePieces.len := by
          intro id hid
          have hc := (FileInfo.mem_iterPiecePriorities hlt).1 hid
          exact lt_of_lt_of_le ((hl.contains_iff fi (List.mem_of_getElem? hi) hpos id).1 hc).1
            t.queue_len
        rw [FileInfo.checkedPriorities_eq hlt hq, Option.bind_some, checkedIds_eq hids,
          Option.bind_some, Option.map_some]

end ChunkTracker

namespace PieceTracker

variable {l : Lengths} {t t' : PieceTracker l} {req : AcquireRequest l} {p q : ValidPieceIndex l}

/-! The slowest piece. -/

theorem longer_ge {best : Option (ValidPieceIndex l × PeerHandle × ℕ)}
    {b x y : ValidPieceIndex l × PeerHandle × ℕ} (h : longer best y = some x)
    (hb : best = some b ∨ b = y) : b.2.2 ≤ x.2.2 := by
  cases best with
  | none =>
    injection h with h
    rcases hb with hb | rfl
    · cases hb
    · rw [h]
  | some c =>
    simp only [longer] at h
    simp only [Option.some.injEq] at hb
    split_ifs at h with hle
    · injection h with h
      rcases hb with rfl | rfl
      · rwa [← h]
      · rw [h]
    · injection h with h
      rcases hb with rfl | rfl
      · rw [h]
      · rw [← h]
        exact (not_le.1 hle).le

theorem longer_isSome (best : Option (ValidPieceIndex l × PeerHandle × ℕ))
    (y : ValidPieceIndex l × PeerHandle × ℕ) : ∃ z, longer best y = some z := by
  cases best with
  | none => exact ⟨y, rfl⟩
  | some b =>
    simp only [longer]
    split_ifs
    · exact ⟨y, rfl⟩
    · exact ⟨b, rfl⟩

theorem maxElapsed_ge {xs : List (ValidPieceIndex l × PeerHandle × ℕ)}
    {x y : ValidPieceIndex l × PeerHandle × ℕ} (h : maxElapsed xs = some x) (hy : y ∈ xs) :
    y.2.2 ≤ x.2.2 := by
  have key : ∀ (ys : List (ValidPieceIndex l × PeerHandle × ℕ)) (best : Option _) (y),
      ys.foldl longer best = some x → best = some y ∨ y ∈ ys → y.2.2 ≤ x.2.2 := by
    intro ys
    induction ys with
    | nil =>
      rintro best y hb (hbest | hmem)
      · have hxy : some x = some y := hb.symm.trans hbest
        rw [Option.some.inj hxy]
      · cases hmem
    | cons z ys ih =>
      intro best y hb hor
      obtain ⟨b, hlonger⟩ := longer_isSome best z
      have hlast : b.2.2 ≤ x.2.2 := ih _ b hb (Or.inl hlonger)
      rcases hor with hbest | hmem
      · exact (longer_ge hlonger (Or.inl hbest)).trans hlast
      · rcases List.mem_cons.1 hmem with rfl | hmem
        · exact (longer_ge hlonger (Or.inr rfl)).trans hlast
        · exact ih _ y hb (Or.inr hmem)
  exact key xs none y h (Or.inr hy)

/-- The piece is the slowest of those of other peers that the requester has, and slower than the
requester by the threshold. -/
structure Slowest (t : PieceTracker l) (req : AcquireRequest l) (threshold : ℕ)
    (p : ValidPieceIndex l) (fromPeer : PeerHandle) (started : ℕ) : Prop where
  inflight : t.inflight p = some ⟨fromPeer, started⟩
  other : fromPeer ≠ req.peer
  has : req.peerHasPiece p = true
  max : ∀ q info, t.inflight q = some info → info.peer ≠ req.peer → req.peerHasPiece q = true →
    req.now - info.started ≤ req.now - started
  threshold_le : ∃ avg, req.peerAvgTime = some avg ∧ req.scaled avg threshold ≤ req.now - started

theorem stealCandidate_slowest {thr : ℕ} {a : PeerHandle}
    (hmap : ∀ q, t.inflight q ≠ none → q ∈ req.mapOrder)
    (h : t.stealCandidate req thr = some (p, a)) : ∃ started, t.Slowest req thr p a started := by
  obtain ⟨avg, havg, h⟩ := Option.bind_eq_some_iff.1 h
  obtain ⟨x, hx, he⟩ := Option.map_eq_some_iff.1 h
  obtain ⟨rfl, rfl⟩ := Prod.mk.inj he
  have hm := maxElapsed_mem hx
  simp only [List.mem_filterMap, Option.bind_eq_some_iff, Option.ite_none_right_eq_some,
    Option.some.injEq] at hm
  obtain ⟨p', -, info, hi, ⟨hother, hhas, hle⟩, rfl⟩ := hm
  refine ⟨info.started, hi, hother, hhas, ?_, avg, havg, hle⟩
  intro q info' hq hother' hhas'
  -- what does not come up to the threshold is faster anyway
  rcases Nat.lt_or_ge (req.now - info'.started) (req.scaled avg thr) with hlt | hge
  · exact hlt.le.trans hle
  · refine maxElapsed_ge (y := (q, info'.peer, req.now - info'.started)) hx ?_
    simp only [List.mem_filterMap, Option.bind_eq_some_iff, Option.ite_none_right_eq_some,
      Option.some.injEq]
    exact ⟨q, hmap q (by rw [hq]; exact Option.some_ne_none _), info', hq,
      ⟨hother', hhas', hge⟩, rfl⟩

/-- A state of the tracker that the files agree with. -/
structure Exact (t : PieceTracker l) (fs : List FileInfo) : Prop where
  have_queue : ∀ p : ValidPieceIndex l,
    t.chunks.queuePieces.get p = true → t.chunks.havePieces.get p = false
  queue_inflight : ∀ p : ValidPieceIndex l, t.chunks.queuePieces.get p = true → t.inflight p = none
  have_inflight : ∀ p : ValidPieceIndex l, t.chunks.havePieces.get p = true → t.inflight p = none
  queue_selected : ∀ p : ValidPieceIndex l,
    t.chunks.queuePieces.get p = true → t.chunks.selected.get p = true
  bytes : t.chunks.ExactBytes fs

/-- A queued piece that the peer has is found. -/
theorem queuePick_eq_none (ht : t.Exact req.fileInfos) (hl : LooseLayout l req.fileInfos)
    (hperm : req.filePriorities.Perm (List.range req.fileInfos.length))
    (h : t.queuePick req = none) (hq : t.chunks.queuePieces.get p = true) :
    req.peerHasPiece p = false := by
  obtain ⟨i, fi, hi, hlen, hbyte⟩ := hl.exists_file p
  have hmem : fi ∈ req.fileInfos := List.mem_of_getElem? hi
  have hprio : i ∈ req.filePriorities :=
    hperm.mem_iff.2 (List.mem_range.2 (List.getElem?_eq_some_iff.1 hi).1)
  have hlt : fi.pieceRange.2 < 2 ^ 32 := lt_of_le_of_lt (hl.range_le hi hlen) l.totalPieces_lt
  have hcontains := (hl.contains_iff fi hmem hlen p).2 ⟨p.isLt, hbyte⟩
  have hne := ht.bytes.ne_len hl hi hbyte (ht.have_queue p hq)
  have hin := ChunkTracker.mem_iterQueuedPieces hprio hi hne
    ((FileInfo.mem_iterPiecePriorities hlt).2 hcontains) hq
  simpa using List.find?_eq_none.1 h p hin

/-- What `acquire_piece` promises for each result. -/
def Promised (t t' : PieceTracker l) (req : AcquireRequest l) : AcquireResult l → Prop
  | .reserved p =>
    req.peerHasPiece p = true ∧ t.chunks.havePieces.get p = false ∧ t.inflight p = none ∧
      t' = { chunks := t.chunks.reserveNeededPiece p
             inflight := Function.update t.inflight p (some ⟨req.peer, req.now⟩) }
  | .stolen p fromPeer =>
    (∃ thr started, (thr = 10 ∨ thr = 3) ∧ t.Slowest req thr p fromPeer started) ∧
      req.canSteal p = true ∧
      t' = { t with inflight := Function.update t.inflight p (some ⟨req.peer, req.now⟩) }
  | .noneAvailable =>
    t' = t ∧ ∀ p : ValidPieceIndex l, t.chunks.queuePieces.get p = true →
      req.peerHasPiece p = false

theorem trySteal_promised {thr : ℕ} {r : AcquireResult l} (hthr : thr = 10 ∨ thr = 3)
    (hmap : ∀ q, t.inflight q ≠ none → q ∈ req.mapOrder)
    (h : t.trySteal req thr = some (r, t')) : Promised t t' req r := by
  obtain ⟨p, a, hcandidate, hcan, rfl, rfl⟩ := trySteal_some h
  obtain ⟨started, hslowest⟩ := stealCandidate_slowest hmap hcandidate
  exact ⟨⟨thr, started, hthr, hslowest⟩, hcan, rfl⟩

theorem priorityPick_promised (h : t.priorityPick req = some p) :
    Promised t (t.reservedBy p req) req (.reserved p) := by
  obtain ⟨-, hhave, hnone⟩ := priorityPick_some h
  have hfound := List.find?_some h
  rw [Bool.and_eq_true] at hfound
  exact ⟨hfound.2, hhave, (t.owner_eq_none p).1 hnone, rfl⟩

theorem queuePick_promised (ht : t.Exact req.fileInfos) (h : t.queuePick req = some p) :
    Promised t (t.reservedBy p req) req (.reserved p) := by
  have hq := queuePick_some h
  exact ⟨List.find?_some h, ht.have_queue p hq, ht.queue_inflight p hq, rfl⟩

/-- `acquire_piece` keeps its promises for every request and every order of the files, and the walk
over the queue does not panic. -/
theorem acquirePiece_promised (l : Lengths) (t : PieceTracker l) (req : AcquireRequest l)
    (hl : LooseLayout l req.fileInfos) (ht : t.Exact req.fileInfos)
    (hperm : req.filePriorities.Perm (List.range req.fileInfos.length))
    (hmap : ∀ p, t.inflight p ≠ none → p ∈ req.mapOrder) :
    Promised t (t.acquirePiece req).2 req (t.acquirePiece req).1 ∧
      t.chunks.checkedQueuedPieces req.fileInfos req.filePriorities =
        some (t.chunks.iterQueuedPieces req.filePriorities req.fileInfos) := by
  refine ⟨?_, ChunkTracker.checkedQueuedPieces_eq ht.bytes hl⟩
  unfold acquirePiece
  cases h10 : t.trySteal req 10 with
  | some result => exact trySteal_promised (Or.inl rfl) hmap h10
  | none =>
    simp only
    cases hprio : t.priorityPick req with
    | some p => exact priorityPick_promised hprio
    | none =>
      simp only
      cases hqueue : t.queuePick req with
      | some p => exact queuePick_promised ht hqueue
      | none =>
        simp only
        cases h3 : t.trySteal req 3 with
        | some result => exact trySteal_promised (Or.inr rfl) hmap h3
        | none => exact ⟨rfl, fun p hq => queuePick_eq_none ht hl hperm hqueue hq⟩

/-- An empty file, and a padding file behind it. -/
def paddedFiles : List FileInfo :=
  [⟨0, (0, 1), false, 100⟩, ⟨100, (1, 1), false, 0⟩, ⟨100, (0, 2), true, 32668⟩]

/-- The first piece has been taken by a peer. -/
def firstTaken : PieceTracker twoPieces where
  chunks :=
    { queuePieces := somePieces 1 2
      chunkStatus := Bits.zeros 8
      havePieces := somePieces 0 0
      selected := somePieces 0 2
      perFileBytes := [0, 0, 0]
      hns := ⟨0, 32768, 32768⟩
      queue_len := by decide +kernel
      have_len := by decide +kernel
      selected_len := by decide +kernel
      chunk_len := by decide +kernel }
  inflight p := if p = firstPiece then some ⟨peerB, 0⟩ else none

theorem firstTaken_exact : firstTaken.Exact paddedFiles where
  have_queue := by decide +kernel
  queue_inflight := by decide +kernel
  have_inflight := by decide +kernel
  queue_selected := by decide +kernel
  bytes i fi hi := by
    obtain ⟨hlt, rfl⟩ := List.getElem?_eq_some_iff.1 hi
    have hall : ∀ i : Fin paddedFiles.length, firstTaken.chunks.perFileBytes[(i : ℕ)]? =
        some ((paddedFiles.get i).bytesOf twoPieces firstTaken.chunks.havePieces.get) := by
      decide +kernel
    exact hall ⟨i, hlt⟩

/-- A faster peer, that may steal or not. -/
def fastRequest (canSteal : Bool) : AcquireRequest twoPieces :=
  { eagerRequest twoPieces paddedFiles peerA with canSteal := fun _ => canSteal }

/-- The first piece is stolen by a peer that is faster; a peer that cannot steal it gets the
second. -/
theorem firstTaken_promised :
    (firstTaken.acquirePiece (fastRequest true)).1 = .stolen firstPiece peerB ∧
    Promised firstTaken (firstTaken.acquirePiece (fastRequest true)).2 (fastRequest true)
      (.stolen firstPiece peerB) ∧
    (firstTaken.acquirePiece (fastRequest false)).1 = .reserved secondPiece ∧
    Promised firstTaken (firstTaken.acquirePiece (fastRequest false)).2 (fastRequest false)
      (.reserved secondPiece) := by
  have hlayout : LooseLayout twoPieces paddedFiles :=
    .of_layout (.of_check (by decide +kernel) (by decide +kernel) (by decide +kernel))
  have hstolen : (firstTaken.acquirePiece (fastRequest true)).1 = .stolen firstPiece peerB := by
    decide +kernel
  have hreserved : (firstTaken.acquirePiece (fastRequest false)).1 = .reserved secondPiece := by
    decide +kernel
  refine ⟨hstolen, ?_, hreserved, ?_⟩
  · rw [← hstolen]
    exact (acquirePiece_promised _ _ (fastRequest true) hlayout firstTaken_exact
      (List.Perm.refl _) fun p _ => List.mem_finRange p).1
  · rw [← hreserved]
    exact (acquirePiece_promised _ _ (fastRequest false) hlayout firstTaken_exact
      (List.Perm.refl _) fun p _ => List.mem_finRange p).1

end PieceTracker

end Rtbit
