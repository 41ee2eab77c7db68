import Rtbit.Lib.Bits
import Rtbit.Spec.Lengths
import Rtbit.Spec.Types

/-! `ChunkTracker` (`chunk_tracker.rs`): which pieces are have, selected and queued,
which chunks have been written, and the byte counters derived from them. The
tracker is indexed by its `Lengths`, which never change; the bit fields carry the
proof that they have a bit for every piece, so that no access by a valid piece
index is out of bounds. -/

namespace Rtbit

open Lib

structure HaveNeededSelected where
  haveBytes : ℕ
  neededBytes : ℕ
  selectedBytes : ℕ
  deriving DecidableEq, Repr

namespace HaveNeededSelected

def zero : HaveNeededSelected := ⟨0, 0, 0⟩

def progress (h : HaveNeededSelected) : ℕ := u64Sub h.selectedBytes h.neededBytes

def finished (h : HaveNeededSelected) : Bool := h.neededBytes == 0

end HaveNeededSelected

inductive ChunkMarkingResult where
  | previouslyCompleted
  | notCompleted
  | completed
  deriving DecidableEq, Repr

/-- A `Piece` message: piece index, offset in the piece, length of the block. -/
structure PieceMsg where
  index : ℕ
  start : ℕ
  len : ℕ
  deriving DecidableEq, Repr

/-- The iteration of `compute_chunk_have_status` for one piece. The offset is computed
in `u32`. -/
def chunkHaveStatusStep (l : Lengths) (havePieces : Bits) (bf : Bits) (piece : PieceInfo) :
    Except String Bits :=
  let chunks := l.chunksPerPiece piece.pieceIndex
  let offset := l.defaultChunksPerPiece * piece.pieceIndex % 2 ^ 32
  if havePieces.get piece.pieceIndex then
    if bf.InRange offset (offset + chunks) then .ok (bf.fill offset (offset + chunks) true)
    else .error ("bug in bitvec: error getting range " ++ toString offset ++ ".." ++
      toString (offset + chunks) ++ " from chunk_bf")
  else .ok bf

def computeChunkHaveStatus (l : Lengths) (havePieces : Bits) : Except String Bits :=
  if havePieces.len < l.totalPieces then
    .error ("bug: have_pieces.len() < lengths.total_pieces(); " ++ toString havePieces.len ++
      " < " ++ toString l.totalPieces)
  else
    l.iterPieceInfos.foldlM (chunkHaveStatusStep l havePieces) (Bits.zeros (l.chunkBitfieldBytes * 8))

def computeQueuedPieces (havePieces selectedPieces : Bits) : Except String Bits :=
  if havePieces.len ≠ selectedPieces.len then
    .error ("have_pieces.len() != selected_pieces.len(), " ++ toString havePieces.len ++
      " != " ++ toString selectedPieces.len)
  else .ok (havePieces.not.and selectedPieces)

def computeSelectedPieces (l : Lengths) (onlyFiles : ℕ → Bool) (fileInfos : List FileInfo) : Bits :=
  ((fileInfos.zipIdx.filter fun x => !x.1.padding).filter fun x => onlyFiles x.2).foldl
    (fun bf x => if bf.InRange x.1.pieceRange.1 x.1.pieceRange.2 then
      bf.fill x.1.pieceRange.1 x.1.pieceRange.2 true else bf)
    (Bits.zeros (l.pieceBitfieldBytes * 8))

structure ChunkTracker (l : Lengths) where
  queuePieces : Bits
  chunkStatus : Bits
  havePieces : Bits
  selected : Bits
  perFileBytes : List ℕ
  hns : HaveNeededSelected
  queue_len : l.totalPieces ≤ queuePieces.len
  have_len : l.totalPieces ≤ havePieces.len
  selected_len : l.totalPieces ≤ selected.len
  chunk_len : chunkStatus.len = l.chunkBitfieldBytes * 8

theorem chunkHaveStatusStep_len {l : Lengths} {h bf bf' : Bits} {piece : PieceInfo}
    (hs : chunkHaveStatusStep l h bf piece = .ok bf') : bf'.len = bf.len := by
  unfold chunkHaveStatusStep at hs
  simp only at hs
  split_ifs at hs
  · injection hs with hs
    rw [← hs, Bits.len_fill]
  · injection hs with hs
    rw [← hs]

theorem computeChunkHaveStatus_len {l : Lengths} {h bf : Bits}
    (hs : computeChunkHaveStatus l h = .ok bf) :
    l.totalPieces ≤ h.len ∧ bf.len = l.chunkBitfieldBytes * 8 := by
  unfold computeChunkHaveStatus at hs
  split_ifs at hs with hlen
  refine ⟨not_lt.1 hlen, ?_⟩
  have key : ∀ (ps : List PieceInfo) (b : Bits), ps.foldlM (chunkHaveStatusStep l h) b = .ok bf →
      bf.len = b.len := by
    intro ps
    induction ps with
    | nil =>
      intro b hb
      injection hb with hb
      rw [hb]
    | cons x ps ih =>
      intro b hb
      rw [List.foldlM_cons] at hb
      cases hx : chunkHaveStatusStep l h b x with
      | error e => rw [hx] at hb; cases hb
      | ok b' =>
        rw [hx] at hb
        rw [ih b' hb, chunkHaveStatusStep_len hx]
  rw [key _ _ hs, Bits.len_zeros]

theorem computeQueuedPieces_ok {h sel q : Bits} (hs : computeQueuedPieces h sel = .ok q) :
    h.len = sel.len ∧ q = h.not.and sel := by
  unfold computeQueuedPieces at hs
  split_ifs at hs with hl
  injection hs with hs
  exact ⟨not_not.1 hl, hs.symm⟩

@[simp] theorem computeSelectedPieces_len (l : Lengths) (f : ℕ → Bool) (fs : List FileInfo) :
    (computeSelectedPieces l f fs).len = l.pieceBitfieldBytes * 8 := by
  unfold computeSelectedPieces
  generalize ((fs.zipIdx.filter fun x => !x.1.padding).filter fun x => f x.2) = xs
  have key : ∀ (b : Bits), (xs.foldl (fun bf x =>
      if bf.InRange x.1.pieceRange.1 x.1.pieceRange.2 then
        bf.fill x.1.pieceRange.1 x.1.pieceRange.2 true else bf) b).len = b.len := by
    induction xs with
    | nil => intro b; rfl
    | cons x xs ih =>
      intro b
      rw [List.foldl_cons, ih]
      split_ifs
      · rw [Bits.len_fill]
      · rfl
  rw [key, Bits.len_zeros]

namespace ChunkTracker

variable {l : Lengths}

def calcHns (t : ChunkTracker l) : HaveNeededSelected :=
  l.iterPieceInfos.foldl (fun hns piece =>
    let isHave := t.havePieces.get piece.pieceIndex
    let isSelected := t.selected.get piece.pieceIndex
    let isNeeded := isSelected && !isHave
    { haveBytes := hns.haveBytes + piece.len * isHave.toNat
      selectedBytes := hns.selectedBytes + piece.len * isSelected.toNat
      neededBytes := hns.neededBytes + piece.len * isNeeded.toNat }) .zero

/-- `self.hns = self.calc_hns()`. -/
def recalcHns (t : ChunkTracker l) : ChunkTracker l := { t with hns := t.calcHns }

/-- The bytes of one file in the pieces that are have. -/
def fileHaveBytes (l : Lengths) (havePieces : Bits) (fi : FileInfo) : ℕ :=
  (((List.range' fi.pieceRange.1 (fi.pieceRange.2 - fi.pieceRange.1)).filter havePieces.get).map
    fun id => l.sizeOfPieceInFile id fi.offsetInTorrent fi.len).sum

def recalculatePerFileBytes (t : ChunkTracker l) (fileInfos : List FileInfo) : ChunkTracker l :=
  { t with
    perFileBytes := List.zipWith (fun _ fi => fileHaveBytes l t.havePieces fi) t.perFileBytes fileInfos ++
      t.perFileBytes.drop fileInfos.length }

def new (havePieces selectedPieces : Bits) (fileInfos : List FileInfo) :
    Except String (ChunkTracker l) :=
  match hq : computeQueuedPieces havePieces selectedPieces with
  | .error e => .error ("error computing needed pieces: " ++ e)
  | .ok neededPieces =>
    match hc : computeChunkHaveStatus l havePieces with
    | .error e => .error ("error computing chunk status: " ++ e)
    | .ok chunkStatus =>
      have hlen := computeQueuedPieces_ok hq
      have hchunk := computeChunkHaveStatus_len hc
      let ct : ChunkTracker l :=
        { queuePieces := neededPieces
          chunkStatus := chunkStatus
          havePieces := havePieces
          selected := selectedPieces
          perFileBytes := List.replicate fileInfos.length 0
          hns := .zero
          queue_len := by rw [hlen.2, Bits.len_and, Bits.len_not]; exact hchunk.1
          have_len := hchunk.1
          selected_len := hlen.1 ▸ hchunk.1
          chunk_len := hchunk.2 }
      .ok (ct.recalculatePerFileBytes fileInfos).recalcHns

def reserveNeededPiece (t : ChunkTracker l) (index : ValidPieceIndex l) : ChunkTracker l :=
  { t with
    queuePieces := t.queuePieces.set index false
    queue_len := by rw [Bits.len_set]; exact t.queue_len }

/-- `per_file_bytes` decides whether a file is skipped. -/
def iterQueuedPieces (t : ChunkTracker l) (filePriorities : List ℕ) (fileInfos : List FileInfo) :
    List (ValidPieceIndex l) :=
  (((filePriorities.filterMap fun p => fileInfos[p]?.map fun fi => (p, fi)).filter
    fun x => t.perFileBytes.getD x.1 0 ≠ x.2.len).flatMap fun x => x.2.iterPiecePriorities).filter
      t.queuePieces.get |>.filterMap l.validatePieceIndex

def isPieceHave (t : ChunkTracker l) (id : ValidPieceIndex l) : Bool := t.havePieces.get id

def markPieceBrokenIfNotHave (t : ChunkTracker l) (index : ValidPieceIndex l) : ChunkTracker l :=
  if t.havePieces.get index then t
  else
    { t with
      queuePieces := t.queuePieces.set index true
      chunkStatus :=
        if t.chunkStatus.InRange (l.chunkRange index).1 (l.chunkRange index).2 then
          t.chunkStatus.fill (l.chunkRange index).1 (l.chunkRange index).2 false
        else t.chunkStatus
      queue_len := by rw [Bits.len_set]; exact t.queue_len
      chunk_len := by split_ifs <;> simp [t.chunk_len] }

def markPieceDownloaded (t : ChunkTracker l) (idx : ValidPieceIndex l) : ChunkTracker l :=
  if t.havePieces.get idx then t
  else
    { t with
      havePieces := t.havePieces.set idx true
      hns :=
        { haveBytes := t.hns.haveBytes + l.pieceLength idx
          neededBytes :=
            if t.selected.get idx then u64Sub t.hns.neededBytes (l.pieceLength idx)
            else t.hns.neededBytes
          selectedBytes := t.hns.selectedBytes }
      have_len := by rw [Bits.len_set]; exact t.have_len }

/-- `none`: the message is not a chunk of the torrent, and nothing changes. -/
def markChunkDownloaded (t : ChunkTracker l) (piece : PieceMsg) :
    Option (ChunkMarkingResult × ChunkTracker l) :=
  (l.validatePieceIndex piece.index).bind fun index =>
    (l.chunkInfoFromReceivedData index piece.start piece.len).map fun chunkInfo =>
      let range := l.chunkRange index
      if t.chunkStatus.all range.1 range.2 then (.previouslyCompleted, t)
      else
        let t' : ChunkTracker l :=
          { t with
            chunkStatus := t.chunkStatus.set (range.1 + chunkInfo.chunkIndex) true
            chunk_len := by rw [Bits.len_set]; exact t.chunk_len }
        if t'.chunkStatus.all range.1 range.2 then (.completed, t') else (.notCompleted, t')

/-- The pieces `update_only_files` requeues: selected now, not before, and not have. -/
def newlySelected (t : ChunkTracker l) (selected : Bits) : Bits :=
  (selected.ones.filter fun idx => !t.selected.get idx && !t.havePieces.get idx).foldl
    (fun b idx => b.set idx true) (Bits.zeros (l.pieceBitfieldBytes * 8))

def requeueOne (t : ChunkTracker l) (idx : ℕ) : ChunkTracker l :=
  match l.validatePieceIndex idx with
  | some validated => t.markPieceBrokenIfNotHave validated
  | none => t

/-- `std::mem::replace(&mut self.selected, selected)`. -/
def replaceSelected (t : ChunkTracker l) (selected : Bits) (h : l.totalPieces ≤ selected.len) :
    ChunkTracker l :=
  { t with selected := selected, selected_len := h }

/-- `self.queue_pieces &= self.have | self.selected`. -/
def cancelNotNeeded (t : ChunkTracker l) : ChunkTracker l :=
  let haveOrSelected := t.selected.or t.havePieces
  { t with
    queuePieces := t.queuePieces.and haveOrSelected
    queue_len := by rw [Bits.len_and]; exact t.queue_len }

/-- The pieces a file set selects. -/
def selection (l : Lengths) (fileInfos : List FileInfo) (onlyFiles : Finset ℕ) : Bits :=
  computeSelectedPieces l (fun idx => decide (idx ∈ onlyFiles)) fileInfos

theorem selection_len (l : Lengths) (fileInfos : List FileInfo) (onlyFiles : Finset ℕ) :
    l.totalPieces ≤ (selection l fileInfos onlyFiles).len := by
  rw [selection, computeSelectedPieces_len]
  exact l.totalPieces_le

def updateOnlyFiles (t : ChunkTracker l) (fileInfos : List FileInfo) (newOnlyFiles : Finset ℕ) :
    ChunkTracker l :=
  let selected := selection l fileInfos newOnlyFiles
  let b := t.newlySelected selected
  let t := t.replaceSelected selected (selection_len l fileInfos newOnlyFiles)
  let t := b.ones.foldl requeueOne t
  t.cancelNotNeeded.recalcHns

def isFileFinished (t : ChunkTracker l) (fi : FileInfo) : Bool :=
  if t.havePieces.InRange fi.pieceRange.1 fi.pieceRange.2 then
    t.havePieces.all fi.pieceRange.1 fi.pieceRange.2
  else true

def isFinished (t : ChunkTracker l) : Bool := t.hns.finished

/-- The tracker, and the remaining bytes of the file. -/
def updateFileHaveOnPieceCompleted (t : ChunkTracker l) (pieceId : ValidPieceIndex l) (fileId : ℕ)
    (fileInfo : FileInfo) : ChunkTracker l × ℕ :=
  let diffHave := l.sizeOfPieceInFile pieceId fileInfo.offsetInTorrent fileInfo.len
  let t' := { t with perFileBytes := t.perFileBytes.modify fileId (· + diffHave) }
  (t', fileInfo.len - t'.perFileBytes.getD fileId 0)

end ChunkTracker

/-- The operations that change a tracker. -/
inductive ChunkOp (l : Lengths) where
  | reserve (index : ValidPieceIndex l)
  | broken (index : ValidPieceIndex l)
  | downloaded (idx : ValidPieceIndex l)
  | chunk (piece : PieceMsg)
  | updateOnlyFiles (newOnlyFiles : Finset ℕ)

def ChunkTracker.apply {l : Lengths} (fileInfos : List FileInfo) (t : ChunkTracker l) :
    ChunkOp l → ChunkTracker l
  | .reserve index => t.reserveNeededPiece index
  | .broken index => t.markPieceBrokenIfNotHave index
  | .downloaded idx => t.markPieceDownloaded idx
  | .chunk piece => ((t.markChunkDownloaded piece).map Prod.snd).getD t
  | .updateOnlyFiles newOnlyFiles => t.updateOnlyFiles fileInfos newOnlyFiles

end Rtbit
