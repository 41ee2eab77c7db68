import Rtbit.Proofs.ChunkStatus

/-! Changing the selection of files. Whatever was selected before, the tracker is the one that is
made from scratch for the last selection: the incremental update of the queue forgets its history.
Only the chunk bits of a piece that is queued again are cleared on the way, and these were set if
the offset of another piece that is have overflowed. -/

namespace Rtbit

open Lib

namespace ChunkTracker

variable {l : Lengths} {t t' : ChunkTracker l} {fs : List FileInfo} {only : Finset ℕ}
  {h sel : Bits} {k i : ℕ}

/-- A position in the bits of the piece. -/
def InChunks (l : Lengths) (p : ValidPieceIndex l) (k : ℕ) : Prop :=
  (l.chunkRange p).1 ≤ k ∧ k < (l.chunkRange p).2

/-! The chunk bits. -/

theorem broken_status (q : ValidPieceIndex l) :
    (t.markPieceBrokenIfNotHave q).chunkStatus.get k = true ↔
      t.chunkStatus.get k = true ∧ (t.havePieces.get q = false → ¬InChunks l q k) := by
  unfold markPieceBrokenIfNotHave
  by_cases hhave : t.havePieces.get q = true
  · rw [if_pos hhave]
    simp [hhave]
  · rw [if_neg hhave]
    have hin := t.chunkRange_inRange q
    have hlt : InChunks l q k → k < t.chunkStatus.len := fun hk => lt_of_lt_of_le hk.2 hin.2
    simp only [if_pos hin, Bits.get_fill]
    split_ifs with hk
    · refine iff_of_false (by decide) ?_
      rintro ⟨-, hout⟩
      exact hout (by simpa using hhave) ⟨hk.1, hk.2.1⟩
    · rw [and_iff_left]
      exact fun _ hc => hk ⟨hc.1, hc.2, hlt hc⟩

theorem requeueOne_status (i : ℕ) : (t.requeueOne i).chunkStatus.get k = true ↔
    t.chunkStatus.get k = true ∧ ∀ q : ValidPieceIndex l, (q : ℕ) = i →
      t.havePieces.get q = false → ¬InChunks l q k := by
  unfold requeueOne
  cases hv : l.validatePieceIndex i with
  | none =>
    have hne (q : ValidPieceIndex l) : (q : ℕ) ≠ i := by
      rintro rfl
      simp at hv
    simp [hne]
  | some v =>
    obtain rfl : i = v := l.validatePieceIndex_eq_some.1 hv
    simp only [broken_status, Fin.val_inj, forall_eq]

theorem requeue_status (is : List ℕ) : (is.foldl requeueOne t).chunkStatus.get k = true ↔
    t.chunkStatus.get k = true ∧ ∀ q : ValidPieceIndex l, (q : ℕ) ∈ is →
      t.havePieces.get q = false → ¬InChunks l q k := by
  induction is generalizing t with
  | nil => simp
  | cons i is ih =>
    rw [List.foldl_cons, ih, requeueOne_status, (requeueOne_same t i).1, and_assoc]
    simp only [List.mem_cons, or_imp, forall_and]

/-- The pieces that are selected now, were not before, and are not have. -/
def Requeued (h prev sel : Bits) (q : ℕ) : Prop :=
  prev.get q = false ∧ sel.get q = true ∧ h.get q = false

theorem cancelRecalc_status : t.cancelNotNeeded.recalcHns.chunkStatus = t.chunkStatus := by
  rw [recalcHns, cancelNotNeeded]

theorem update_status : (t.updateOnlyFiles fs only).chunkStatus.get k = true ↔
    t.chunkStatus.get k = true ∧ ∀ q : ValidPieceIndex l,
      Requeued t.havePieces t.selected (selection l fs only) q → ¬InChunks l q k := by
  rw [update_eq, cancelRecalc_status, reselected, requeue_status]
  refine and_congr_right fun _ => forall_congr' fun q => ?_
  simp only [replaceSelected, Bits.mem_ones, newlySelected_get, Requeued, Bool.and_eq_true,
    Bool.not_eq_true']
  tauto

/-! The queue. -/

theorem broken_queuePieces (q : ValidPieceIndex l) : (t.markPieceBrokenIfNotHave q).queuePieces =
    if t.havePieces.get q then t.queuePieces else t.queuePieces.set q true := by
  unfold markPieceBrokenIfNotHave
  by_cases hhave : t.havePieces.get q = true
  · rw [if_pos hhave, if_pos hhave]
  · rw [if_neg hhave, if_neg hhave]

/-- The bits of the queue that are not those of pieces stay as they are. -/
theorem requeueOne_spare (i : ℕ) : (t.requeueOne i).queuePieces.len = t.queuePieces.len ∧
    ∀ k, l.totalPieces ≤ k → (t.requeueOne i).queuePieces.get k = t.queuePieces.get k := by
  unfold requeueOne
  cases l.validatePieceIndex i with
  | none => exact ⟨rfl, fun _ _ => rfl⟩
  | some v =>
    simp only [broken_queuePieces]
    split_ifs
    · exact ⟨rfl, fun _ _ => rfl⟩
    · exact ⟨Bits.len_set _ _ _, fun k hk => Bits.get_set_ne _ (by omega)⟩

theorem requeue_spare (is : List ℕ) :
    (is.foldl requeueOne t).queuePieces.len = t.queuePieces.len ∧
      ∀ k, l.totalPieces ≤ k →
        (is.foldl requeueOne t).queuePieces.get k = t.queuePieces.get k := by
  induction is generalizing t with
  | nil => exact ⟨rfl, fun _ _ => rfl⟩
  | cons i is ih =>
    obtain ⟨hlen, hspare⟩ := ih (t := t.requeueOne i)
    obtain ⟨hlen', hspare'⟩ := t.requeueOne_spare i
    exact ⟨hlen.trans hlen', fun k hk => (hspare k hk).trans (hspare' k hk)⟩

/-- The pieces of a file are pieces of the torrent. -/
def PiecesInside (l : Lengths) (fs : List FileInfo) : Prop :=
  ∀ fi ∈ fs, ∀ p, fi.contains p = true → p < l.totalPieces

theorem PiecesInside.inRange (hfs : PiecesInside l fs) {fi : FileInfo} (hfi : fi ∈ fs)
    (hlen : h.len = l.pieceBitfieldBytes * 8) (hk : fi.contains k = true) :
    h.InRange fi.pieceRange.1 fi.pieceRange.2 ∧ k < h.len := by
  have hle := l.totalPieces_le
  have hlast : fi.contains (fi.pieceRange.2 - 1) = true := by
    simp only [FileInfo.contains, decide_eq_true_eq] at hk ⊢
    omega
  have hlt := hfs fi hfi _ hlast
  simp only [FileInfo.contains, decide_eq_true_eq] at hk
  exact ⟨⟨by omega, by omega⟩, by omega⟩

theorem selectFiles_get (hfs : PiecesInside l fs) {xs : List (FileInfo × ℕ)}
    (hxs : ∀ x ∈ xs, x.1 ∈ fs) (hlen : h.len = l.pieceBitfieldBytes * 8) :
    (xs.foldl (fun bf x => if bf.InRange x.1.pieceRange.1 x.1.pieceRange.2 then
      bf.fill x.1.pieceRange.1 x.1.pieceRange.2 true else bf) h).get k = true ↔
        h.get k = true ∨ ∃ x ∈ xs, x.1.contains k = true := by
  induction xs generalizing h with
  | nil => simp
  | cons x xs ih =>
    have hin : x.1.contains k = true → h.InRange x.1.pieceRange.1 x.1.pieceRange.2 ∧ k < h.len :=
      hfs.inRange (hxs x List.mem_cons_self) hlen
    rw [List.foldl_cons, ih (fun y hy => hxs y (List.mem_cons_of_mem _ hy))
      (by split_ifs <;> simp [hlen]), List.exists_mem_cons_iff, ← or_assoc]
    refine or_congr_left ?_
    split_ifs with hrange
    · rw [Bits.get_fill]
      split_ifs with hk
      · exact iff_of_true rfl (Or.inr (decide_eq_true ⟨hk.1, hk.2.1⟩))
      · rw [or_iff_left]
        intro hc
        have hbounds := hc
        simp only [FileInfo.contains, decide_eq_true_eq] at hbounds
        exact hk ⟨hbounds.1, hbounds.2, (hin hc).2⟩
    · rw [or_iff_left]
      exact fun hc => hrange (hin hc).1

theorem selection_get (hfs : PiecesInside l fs) : (selection l fs only).get k = true ↔
    ∃ (i : ℕ) (fi : FileInfo), fs[i]? = some fi ∧ fi.padding = false ∧ i ∈ only ∧
      fi.contains k = true := by
  unfold selection computeSelectedPieces
  rw [selectFiles_get hfs ?_ (Bits.len_zeros _)]
  · simp only [Bits.get_zeros, Bool.false_eq_true, false_or, List.mem_filter, Prod.exists,
      List.mem_zipIdx_iff_getElem?, Bool.not_eq_true', decide_eq_true_eq, and_assoc]
    exact exists_comm
  · intro x hx
    have hx := List.mem_of_mem_filter (List.mem_of_mem_filter hx)
    exact List.mem_of_getElem? (List.mem_zipIdx_iff_getElem?.1 hx)

theorem selection_lt (hfs : PiecesInside l fs) (hk : (selection l fs only).get k = true) :
    k < l.totalPieces := by
  obtain ⟨i, fi, hi, -, -, hc⟩ := (selection_get hfs).1 hk
  exact hfs fi (List.mem_of_getElem? hi) k hc

/-- What is queued is what is selected and not have: this is so again after an update. -/
theorem update_queuePieces (hfs : PiecesInside l fs)
    (hlen : t.havePieces.len = l.pieceBitfieldBytes * 8)
    (hq : t.queuePieces = t.havePieces.not.and t.selected) :
    (t.updateOnlyFiles fs only).queuePieces = t.havePieces.not.and (selection l fs only) := by
  obtain ⟨hqlen, hspare⟩ := requeue_spare (t := t.replaceSelected (selection l fs only)
    (selection_len l fs only)) (t.newlySelected (selection l fs only)).ones
  have hbits : (t.updateOnlyFiles fs only).queuePieces =
      (t.reselected fs only).queuePieces.and ((selection l fs only).or t.havePieces) := by
    rw [update_eq, (cancelRecalc_same _).2.2.2, (t.reselected_same fs only).1,
      (t.reselected_same fs only).2.1]
  have hlen' : (t.reselected fs only).queuePieces.len = t.havePieces.len := by
    rw [reselected, hqlen]
    change t.queuePieces.len = _
    rw [hq, Bits.len_and, Bits.len_not]
  refine Bits.ext_get ?_ ?_
  · rw [hbits, Bits.len_and, hlen', Bits.len_and, Bits.len_not]
  · intro k hk
    rw [hbits, Bits.len_and, hlen'] at hk
    rw [Bits.get_and, Bits.get_not hk]
    rcases Nat.lt_or_ge k l.totalPieces with hlt | hge
    · have hpiece := t.update_queue ⟨k, hlt⟩ fs only
      rw [hpiece, hq, Bits.get_and, Bits.get_not hk]
      cases t.havePieces.get k <;> cases t.selected.get k <;>
        cases (selection l fs only).get k <;> rfl
    · -- behind the pieces nothing is selected
      have hnone : (selection l fs only).get k = false := by
        rw [← Bool.not_eq_true]
        exact fun hsel => absurd (selection_lt hfs hsel) (not_lt.2 hge)
      have hsel : k < (selection l fs only).len := by
        rw [selection, computeSelectedPieces_len, ← hlen]
        exact hk
      rw [hbits, Bits.get_and, Bits.get_or hsel, hnone, reselected, hspare k hge]
      change (t.queuePieces.get k && (false || t.havePieces.get k)) = _
      rw [hq, Bits.get_and, Bits.get_not hk]
      cases t.havePieces.get k <;> cases t.selected.get k <;> rfl

/-! A sequence of updates. -/

def updates (t : ChunkTracker l) (fs : List FileInfo) (onlys : List (Finset ℕ)) : ChunkTracker l :=
  onlys.foldl (fun t only => t.updateOnlyFiles fs only) t

/-- What `update_only_files` returns. -/
def updateReturns (t : ChunkTracker l) (fs : List FileInfo) (only : Finset ℕ) :
    HaveNeededSelected :=
  (t.updateOnlyFiles fs only).hns

/-- The pieces that some update of the sequence queues again. -/
def RequeuedAlong (l : Lengths) (fs : List FileInfo) (h : Bits) :
    Bits → List (Finset ℕ) → ℕ → Prop
  | _, [], _ => False
  | prev, only :: onlys, q =>
    Requeued h prev (selection l fs only) q ∨ RequeuedAlong l fs h (selection l fs only) onlys q

theorem RequeuedAlong.have_eq {prev : Bits} {onlys : List (Finset ℕ)} {q : ℕ}
    (hq : RequeuedAlong l fs h prev onlys q) : h.get q = false := by
  induction onlys generalizing prev with
  | nil => cases hq
  | cons only onlys ih =>
    rcases hq with hq | hq
    · exact hq.2.2
    · exact ih hq

theorem updates_cons (t : ChunkTracker l) (fs : List FileInfo) (only : Finset ℕ)
    (onlys : List (Finset ℕ)) :
    t.updates fs (only :: onlys) = (t.updateOnlyFiles fs only).updates fs onlys := by
  rw [updates, updates, List.foldl_cons]

theorem updates_append (t : ChunkTracker l) (fs : List FileInfo) (onlys : List (Finset ℕ))
    (only : Finset ℕ) :
    t.updates fs (onlys ++ [only]) = (t.updates fs onlys).updateOnlyFiles fs only := by
  rw [updates, List.foldl_append]
  rfl

theorem updates_status {onlys : List (Finset ℕ)} :
    (t.updates fs onlys).chunkStatus.get k = true ↔ t.chunkStatus.get k = true ∧
      ∀ q : ValidPieceIndex l, RequeuedAlong l fs t.havePieces t.selected onlys q →
        ¬InChunks l q k := by
  induction onlys generalizing t with
  | nil => simp [updates, RequeuedAlong]
  | cons only onlys ih =>
    rw [updates_cons, ih, update_status, update_have, update_selected, and_assoc]
    simp only [RequeuedAlong, or_imp, forall_and]

/-- The tracker is as it is made from scratch, up to its chunk bits. -/
structure FromScratch (t : ChunkTracker l) (fs : List FileInfo) (h sel : Bits) : Prop where
  have_ : t.havePieces = h
  selected : t.selected = sel
  queue : t.queuePieces = h.not.and sel
  bytes : t.perFileBytes = fs.map (fileHaveBytes l h)
  hns : t.hns = t.calcHns

theorem new_fromScratch (ht : new h sel fs = .ok t) : t.FromScratch fs h sel := by
  obtain ⟨-, hhave, hsel, hqueue, hbytes, hhns⟩ := new_ok ht
  exact ⟨hhave, hsel, hqueue, hbytes, hhns⟩

theorem new_status (ht : new h sel fs = .ok t) :
    computeChunkHaveStatus l h = .ok t.chunkStatus := by
  unfold new at ht
  split at ht
  · cases ht
  · split at ht
    · cases ht
    next st hst =>
      injection ht with ht
      subst ht
      exact hst

theorem new_isOk (sel : Bits) (hlen : h.len = sel.len) (hle : l.totalPieces ≤ h.len)
    (fs : List FileInfo) :
    ∃ t : ChunkTracker l, new h sel fs = .ok t := by
  obtain ⟨bf, hbf, -⟩ := computeChunkHaveStatus_ok hle
  unfold new
  split
  next e he =>
    rw [computeQueuedPieces, if_neg (not_not.2 hlen)] at he
    cases he
  · split
    next e he =>
      rw [hbf] at he
      cases he
    · exact ⟨_, rfl⟩

theorem FromScratch.update (ht : t.FromScratch fs h sel) (hfs : PiecesInside l fs)
    (hlen : h.len = l.pieceBitfieldBytes * 8) (only : Finset ℕ) :
    (t.updateOnlyFiles fs only).FromScratch fs h (selection l fs only) where
  have_ := (t.update_have fs only).trans ht.have_
  selected := t.update_selected fs only
  queue := by
    obtain ⟨rfl, rfl, hqueue, -, -⟩ := ht
    exact update_queuePieces hfs hlen hqueue
  bytes := (t.update_perFile fs only).trans ht.bytes
  hns := t.update_hns fs only

theorem FromScratch.updates (ht : t.FromScratch fs h sel) (hfs : PiecesInside l fs)
    (hlen : h.len = l.pieceBitfieldBytes * 8) (onlys : List (Finset ℕ)) (last : Finset ℕ) :
    (t.updates fs (onlys ++ [last])).FromScratch fs h (selection l fs last) := by
  rw [updates_append]
  suffices hall : ∃ sel', (t.updates fs onlys).FromScratch fs h sel' by
    obtain ⟨sel', hsel'⟩ := hall
    exact hsel'.update hfs hlen last
  induction onlys using List.reverseRecOn with
  | nil => exact ⟨sel, ht⟩
  | append_singleton onlys only ih =>
    obtain ⟨sel', hsel'⟩ := ih
    rw [updates_append]
    exact ⟨_, hsel'.update hfs hlen only⟩

theorem FromScratch.ext (ht : t.FromScratch fs h sel) (ht' : t'.FromScratch fs h sel)
    (hstatus : t.chunkStatus = t'.chunkStatus) : t = t' := by
  have hhns : t.hns = t'.hns := by
    rw [ht.hns, ht'.hns]
    exact calcHns_congr (ht.have_.trans ht'.have_.symm) (ht.selected.trans ht'.selected.symm)
  have hqueue := ht.queue.trans ht'.queue.symm
  have hhave := ht.have_.trans ht'.have_.symm
  have hsel := ht.selected.trans ht'.selected.symm
  have hbytes := ht.bytes.trans ht'.bytes.symm
  cases t
  cases t'
  simp only at hhns hqueue hhave hsel hbytes hstatus
  subst hhns hqueue hhave hsel hbytes hstatus
  rfl

/-- After any sequence of updates the tracker is the one that is made from the last selection,
exactly if no piece that is have was written, with its offset wrapped, over the bits of a piece
that an update has queued again. -/
theorem updates_eq_new_iff (l : Lengths) (fs : List FileInfo) (h sel : Bits) (t : ChunkTracker l)
    (onlys : List (Finset ℕ)) (last : Finset ℕ) (hfs : PiecesInside l fs)
    (hlen : h.len = l.pieceBitfieldBytes * 8) (ht : new h sel fs = .ok t) :
    (∃ t', new h (selection l fs last) fs = .ok t' ∧ t.updates fs (onlys ++ [last]) = t' ∧
        (t.updates fs onlys).updateReturns fs last = t'.hns) ↔
      ∀ q p : ValidPieceIndex l, RequeuedAlong l fs h sel (onlys ++ [last]) q →
        h.get p = true → ∀ k, l.InWrapped p k → ¬InChunks l q k := by
  obtain ⟨t', ht'⟩ := new_isOk (l := l) (h := h) (selection l fs last)
    (by rw [hlen, selection, computeSelectedPieces_len]) (by rw [hlen]; exact l.totalPieces_le) fs
  have hscratch := new_fromScratch ht
  have hupdated := hscratch.updates hfs hlen onlys last
  obtain ⟨bf, hbf, hbits⟩ := computeChunkHaveStatus_ok (l := l) (h := h)
    (by rw [hlen]; exact l.totalPieces_le)
  obtain rfl := Except.ok.inj (hbf.symm.trans (new_status ht))
  have hsame : t.chunkStatus = t'.chunkStatus :=
    Except.ok.inj (hbf.symm.trans (new_status ht'))
  have hequal : t.updates fs (onlys ++ [last]) = t' ↔
      ∀ k, t.chunkStatus.get k = true → (t.updates fs (onlys ++ [last])).chunkStatus.get k = true := by
    constructor
    · rintro he k hk
      rwa [he, ← hsame]
    · intro hkept
      refine hupdated.ext (new_fromScratch ht') ?_
      rw [← hsame]
      refine Bits.ext_get (by rw [chunk_len, chunk_len]) fun k _ => ?_
      rw [Bool.eq_iff_iff]
      exact ⟨fun hk => (updates_status.1 hk).1, hkept k⟩
  have hret : (t.updates fs onlys).updateReturns fs last =
      (t.updates fs (onlys ++ [last])).hns := by
    rw [updates_append]
    rfl
  constructor
  · rintro ⟨t'', ht'', he, -⟩ q p hq hp k hk hin
    rw [ht'] at ht''
    obtain rfl := Except.ok.inj ht''
    have hset := hequal.1 he k ((hbits k).2 ⟨p, hp, hk⟩)
    rw [updates_status, hscratch.have_, hscratch.selected] at hset
    exact hset.2 q hq hin
  · intro hdisjoint
    have he := hequal.2 fun k hk => by
      obtain ⟨p, hp, hin⟩ := (hbits k).1 hk
      rw [updates_status, hscratch.have_, hscratch.selected]
      exact ⟨hk, fun q hq => hdisjoint q p hq hp k hin⟩
    exact ⟨t', ht', he, by rw [hret, he]⟩

/-- No offset of a piece that is have overflows. -/
theorem disjoint_of_small
    (hsmall : ∀ p : ValidPieceIndex l, h.get p = true → p * l.defaultChunksPerPiece < 2 ^ 32)
    {onlys : List (Finset ℕ)} {q p : ValidPieceIndex l} (hq : RequeuedAlong l fs h sel onlys q)
    (hp : h.get p = true) (hk : l.InWrapped p k) : ¬InChunks l q k := by
  intro hin
  obtain ⟨i, hi, he⟩ := Lengths.mem_chunkRange.1 ((Lengths.inWrapped_of_lt (hsmall p hp)).1 hk)
  obtain ⟨j, hj, rfl⟩ := Lengths.mem_chunkRange.1 hin
  obtain ⟨rfl, -⟩ := (Lengths.chunkPos_inj hi hj).1 he
  rw [hq.have_eq] at hp
  cases hp

/-- Files that share a piece, with an empty one between them. -/
def oddFiles : List FileInfo :=
  [⟨0, (0, 1), false, 32769⟩, ⟨32769, (1, 2), false, 1⟩, ⟨32770, (1, 1), false, 0⟩,
    ⟨32770, (1, 3), false, 32769⟩]

theorem piecesInside_of_check (hcheck : ∀ fi ∈ fs, fi.pieceRange.2 ≤ l.totalPieces) :
    PiecesInside l fs := by
  intro fi hfi p hp
  have hle := hcheck fi hfi
  simp only [FileInfo.contains, decide_eq_true_eq] at hp
  omega

/-- One file after the other is selected, then all of them. -/
theorem oddFiles_selected : ∃ t t' : ChunkTracker oddLengths,
    new ⟨[true, false, false, false, false, false, false, false]⟩ (Bits.zeros 8) oddFiles =
      .ok t ∧
    new ⟨[true, false, false, false, false, false, false, false]⟩
      (selection oddLengths oddFiles {0, 1, 2, 3}) oddFiles = .ok t' ∧
    t.updates oddFiles ([{0}, {1}, {2}, {3}] ++ [{0, 1, 2, 3}]) = t' ∧
    (t.updates oddFiles [{0}, {1}, {2}, {3}]).updateReturns oddFiles {0, 1, 2, 3} = t'.hns := by
  obtain ⟨t, ht⟩ := new_isOk (l := oddLengths)
    (h := ⟨[true, false, false, false, false, false, false, false]⟩) (Bits.zeros 8)
    (by decide +kernel) (by decide +kernel) oddFiles
  obtain ⟨t', ht'⟩ := (updates_eq_new_iff oddLengths oddFiles _ _ t [{0}, {1}, {2}, {3}]
    {0, 1, 2, 3} (piecesInside_of_check (by decide +kernel)) (by decide +kernel) ht).2
    fun q p hq hp k => disjoint_of_small (by decide +kernel) hq hp
  exact ⟨t, t', ht, ht'⟩

/-- The first piece is one file, the others are another. -/
def hugeFiles : List FileInfo :=
  [⟨0, (0, 1), false, 2 ^ 20⟩, ⟨2 ^ 20, (1, 2 ^ 26 + 1), false, 2 ^ 46⟩]

/-- The chunks of the first piece are cleared when it is selected, and would not have been. -/
theorem hugeFiles_differ : ∃ t t' : ChunkTracker hugeLengths,
    new hugeHave (Bits.zeros (2 ^ 26 + 8)) hugeFiles = .ok t ∧
    new hugeHave (selection hugeLengths hugeFiles {0}) hugeFiles = .ok t' ∧
    t'.chunkStatus.get 0 = true ∧ (t.updates hugeFiles [{0}]).chunkStatus.get 0 = false ∧
    t.updates hugeFiles [{0}] ≠ t' := by
  have hlen : hugeHave.len = hugeLengths.pieceBitfieldBytes * 8 := by
    rw [hugeHave, Bits.len_set, Bits.len_zeros]
    decide +kernel
  have hle : hugeLengths.totalPieces ≤ hugeHave.len := by
    rw [hlen]
    exact hugeLengths.totalPieces_le
  obtain ⟨t, ht⟩ := new_isOk (l := hugeLengths) (h := hugeHave) (Bits.zeros (2 ^ 26 + 8))
    (by rw [hugeHave, Bits.len_set]) hle hugeFiles
  obtain ⟨t', ht'⟩ := new_isOk (l := hugeLengths) (h := hugeHave)
    (selection hugeLengths hugeFiles {0})
    (by rw [hlen, selection, computeSelectedPieces_len]) hle hugeFiles
  have hscratch := new_fromScratch ht
  obtain ⟨bf, hbf, hbits⟩ := computeChunkHaveStatus_ok hle
  have hset : t'.chunkStatus.get 0 = true := by
    obtain rfl := Except.ok.inj (hbf.symm.trans (new_status ht'))
    exact (hbits 0).2 ⟨hugeLast, (hugeHave_get _).2 rfl, by decide +kernel, by decide +kernel⟩
  have hinside : PiecesInside hugeLengths hugeFiles := piecesInside_of_check (by decide +kernel)
  have hcleared : (t.updates hugeFiles [{0}]).chunkStatus.get 0 = false := by
    rw [← Bool.not_eq_true, updates_status, hscratch.have_, hscratch.selected]
    rintro ⟨-, hkept⟩
    refine hkept ⟨0, by decide +kernel⟩ (Or.inl ⟨Bits.get_zeros _ _, ?_, ?_⟩)
      ⟨by decide +kernel, by decide +kernel⟩
    · exact (selection_get hinside).2 ⟨0, _, rfl, rfl, Finset.mem_singleton_self 0, by decide⟩
    · rw [← Bool.not_eq_true, hugeHave_get]
      decide
  refine ⟨t, t', ht, ht', hset, hcleared, ?_⟩
  rintro rfl
  rw [hcleared] at hset
  cases hset

end ChunkTracker

end Rtbit
