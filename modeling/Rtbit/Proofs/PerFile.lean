import Rtbit.Sanity.FileLayout
import Rtbit.Sanity.Torrent

/-! The per-file byte counters. A piece is counted once, by `on_piece_completed`,
after `mark_piece_hash_ok` has set its bit; in between it is have and not yet
counted. -/

namespace Rtbit

open Lib

namespace PieceView

/-- Have, and counted for its files. -/
def counted (v : PieceView) : Bool := v.have_ && decide (v.completing = 0)

/-- At most one run has the piece yet to count, and then the piece is have. -/
structure Once (v : PieceView) : Prop where
  le_one : v.completing ≤ 1
  have_of : 0 < v.completing → v.have_ = true

/-- The operation does not verify a piece again, and does not pause with a piece uncounted. -/
def CountsOnce (v : PieceView) : PieceOp → Prop
  | .check .ok => v.have_ = false
  | .pause => v.completing = 0
  | _ => True

variable {v : PieceView} {op : PieceOp}

theorem Once.apply (h : v.Once) (hc : v.CountsOnce op) : (v.apply op).Once := by
  obtain ⟨h1, h2⟩ := h
  cases op with
  | check r =>
    cases r with
    | ok =>
      have hz : v.completing = 0 := by
        by_contra hne
        have hh := h2 (Nat.pos_of_ne_zero hne)
        simp [show v.have_ = false from hc] at hh
      exact ⟨by simp [PieceView.apply, hz], fun _ => rfl⟩
    | failed => exact ⟨h1, h2⟩
    | ioError => exact ⟨h1, h2⟩
  | completed =>
    refine ⟨(Nat.sub_le _ _).trans h1, ?_⟩
    intro hpos
    exact h2 (Nat.lt_of_lt_of_le hpos (Nat.sub_le _ _))
  | pause => exact ⟨Nat.zero_le _, fun hpos => absurd hpos (lt_irrefl 0)⟩
  | stay => exact ⟨h1, h2⟩
  | reserve a priority => exact ⟨h1, h2⟩
  | steal a => exact ⟨h1, h2⟩
  | take => exact ⟨h1, h2⟩
  | release => exact ⟨h1, h2⟩
  | select sel => exact ⟨h1, h2⟩

/-- Only the end of `on_piece_completed` changes whether the piece is counted. -/
theorem counted_apply (hc : v.CountsOnce op) (hne : op ≠ .completed) :
    (v.apply op).counted = v.counted := by
  cases op with
  | check r =>
    cases r with
    | ok =>
      have hh : v.have_ = false := hc
      simp [counted, PieceView.apply, hh]
    | failed => rfl
    | ioError => rfl
  | completed => exact absurd rfl hne
  | pause =>
    have hz : v.completing = 0 := hc
    simp [counted, PieceView.apply, hz]
  | _ => rfl

end PieceView

namespace PieceTracker

variable {l : Lengths} {fs : List FileInfo}

/-- `on_piece_completed` adds the bytes of the piece to the counters of the files it walks. -/
theorem onPieceCompleted_perFile (t : PieceTracker l) (p : ValidPieceIndex l) :
    (t.onPieceCompleted fs p).chunks.perFileBytes =
      addAt (fun fi => fi.bytesIn l p) t.chunks.perFileBytes (filesOnPieceCompleted fs p) := by
  simp only [onPieceCompleted, addAt]
  generalize filesOnPieceCompleted fs p = xs
  generalize t.chunks = c
  induction xs generalizing c with
  | nil => rfl
  | cons x xs ih => exact ih _

end PieceTracker

namespace Torrent

variable {l : Lengths} {fs : List FileInfo}

def CountsOnce (s : Torrent l) : TorrentOp l → Prop
  | .checkPiece p .ok => s.chunks.havePieces.get p = false
  | .pause => ∀ p, s.completing p = 0
  | _ => True

instance (s : Torrent l) : (op : TorrentOp l) → Decidable (CountsOnce s op)
  | .checkPiece p .ok => inferInstanceAs (Decidable (s.chunks.havePieces.get p = false))
  | .pause => inferInstanceAs (Decidable (∀ p, s.completing p = 0))
  | .checkPiece _ .failed | .checkPiece _ .ioError | .acquire _ | .markChunk _ _
  | .onPieceCompleted _ | .release _ | .updateOnlyFiles _ | .resume => isTrue trivial

theorem CountsOnce.piece {s : Torrent l} {op : TorrentOp l} (h : CountsOnce s op)
    {p : ValidPieceIndex l} {pop : PieceOp} (hi : Induces fs s op p pop) :
    (s.piece p).CountsOnce pop := by
  cases hi with
  | check _ r =>
    cases r with
    | ok => exact h
    | failed => trivial
    | ioError => trivial
  | pause => exact h p
  | _ => trivial

/-- The pieces that are counted. -/
def counted (t : Torrent l) (i : ℕ) : Bool :=
  (l.validatePieceIndex i).any fun p => (t.piece p).counted

theorem counted_val (t : Torrent l) (p : ValidPieceIndex l) : t.counted p = (t.piece p).counted := by
  simp [counted]

structure PerFile (fs : List FileInfo) (t : Torrent l) : Prop where
  once : ∀ p, (t.piece p).Once
  bytes : t.chunks.perFileBytes = fs.map (FileInfo.bytesOf l t.counted)

theorem acquire_perFile (s : LiveTracker l) (req : AcquireRequest l) :
    (s.acquire req).pieces.chunks.perFileBytes = s.pieces.chunks.perFileBytes := by
  have hacq := s.pieces.acquire_cases req
  change (s.pieces.acquirePiece req).2.chunks.perFileBytes = _
  generalize (s.pieces.acquirePiece req).2 = t at hacq
  generalize (s.pieces.acquirePiece req).1 = r at hacq
  cases hacq <;> rfl

/-- The other steps do not touch the counters. -/
theorem step_perFile {s s' : Torrent l} {op : TorrentOp l} (h : step fs s op = some s')
    (hne : ∀ p, op ≠ .onPieceCompleted p) : s'.chunks.perFileBytes = s.chunks.perFileBytes := by
  cases s with
  | live s =>
    cases op with
    | acquire req => injection h with h; subst h; exact acquire_perFile s req
    | markChunk m now =>
      injection h with h
      subst h
      rcases s.markChunk_marks m now with ⟨hs, -⟩ | ⟨-, hs, -⟩ <;> exact hs.perFile
    | checkPiece q r =>
      simp only [step, Option.ite_none_right_eq_some, Option.some.injEq] at h
      obtain ⟨-, rfl⟩ := h
      cases r with
      | ok => exact s.pieces.chunks.downloaded_perFile q
      | failed => exact s.pieces.chunks.broken_perFile q
      | ioError => rfl
    | onPieceCompleted q => exact absurd rfl (hne q)
    | release a => injection h with h; subst h; exact (s.pieces.released_same a).2.2
    | updateOnlyFiles only =>
      injection h with h; subst h; exact s.pieces.chunks.update_perFile fs only
    | pause => injection h with h; subst h; exact s.pieces.intoChunks_same.2.2
    | resume => cases h
  | paused c =>
    cases op with
    | updateOnlyFiles only => injection h with h; subst h; exact c.update_perFile fs only
    | resume => injection h with h; subst h; rfl
    | _ => cases h

theorem bytesOf_congr {f g : ℕ → Bool} (h : ∀ p : ValidPieceIndex l, f p = g p) :
    fs.map (FileInfo.bytesOf l f) = fs.map (FileInfo.bytesOf l g) :=
  List.map_congr_left fun _ _ => weight_congr fun p hp => h ⟨p, hp⟩

/-- The end of `on_piece_completed`. -/
theorem PerFile.completed (hl : FileLayout l fs) (hg : NoEmptyBetween fs) {s : LiveTracker l}
    (h : PerFile fs (.live s)) {q : ValidPieceIndex l} (hq : 0 < s.completing q) :
    (live (s.onPieceCompleted fs q)).chunks.perFileBytes =
      fs.map (FileInfo.bytesOf l (live (s.onPieceCompleted fs q)).counted) := by
  have hone : (piece (.live s) q).completing = 1 :=
    le_antisymm (h.once q).le_one hq
  have hview (p : ValidPieceIndex l) : (live (s.onPieceCompleted fs q)).piece p =
      ((live s).piece p).apply (if q = p then .completed else .stay) := completed_piece s q p
  have hq0 : (live s).counted q = false := by
    rw [counted_val]
    simp [PieceView.counted, hone]
  have hq1 : (live (s.onPieceCompleted fs q)).counted q = true := by
    rw [counted_val, hview q, if_pos rfl]
    simp [PieceView.counted, PieceView.apply, hone, (h.once q).have_of (by omega)]
  have hother (p : ValidPieceIndex l) (hp : p ≠ q) :
      (live (s.onPieceCompleted fs q)).counted p = (live s).counted p := by
    rw [counted_val, counted_val, hview p, if_neg (fun he => hp he.symm)]
    rfl
  have hfiles : PieceTracker.filesOnPieceCompleted fs q =
      fs.zipIdx.filter fun x => x.1.contains q := (hl.contiguous hg q).skip_take
  have hbytes : s.pieces.chunks.perFileBytes = fs.map (FileInfo.bytesOf l (live s).counted) := h.bytes
  change (s.pieces.onPieceCompleted fs q).chunks.perFileBytes = _
  rw [PieceTracker.onPieceCompleted_perFile, hfiles, hbytes,
    addAt_filter _ fs _ fun fi => fi.contains q]
  refine List.map_congr_left ?_
  intro fi hfi
  have hins : fi.bytesOf l (live (s.onPieceCompleted fs q)).counted =
      fi.bytesOf l (live s).counted + fi.bytesIn l q :=
    weight_insert q.isLt hq0 hq1 fun p hp hne => hother ⟨p, hp⟩ (fun he => hne (Fin.ext_iff.1 he))
  rw [hins]
  cases hc : fi.contains q with
  | true => rfl
  | false => rw [hl.bytesIn_of_not_contains hfi q.isLt hc]; rfl

theorem PerFile.step (hl : FileLayout l fs) (hg : NoEmptyBetween fs) {s s' : Torrent l}
    {op : TorrentOp l} (h : PerFile fs s) (hok : CountsOnce s op)
    (hs : Torrent.step fs s op = some s') : PerFile fs s' := by
  have honce (p : ValidPieceIndex l) : (s'.piece p).Once := by
    obtain ⟨pop, hi, -, ha⟩ := step_piece hs p
    rw [ha]
    exact (h.once p).apply (hok.piece hi)
  refine ⟨honce, ?_⟩
  by_cases hop : ∃ q, op = .onPieceCompleted q
  · obtain ⟨q, rfl⟩ := hop
    cases s with
    | live s =>
      simp only [Torrent.step, Option.ite_none_right_eq_some, Option.some.injEq] at hs
      obtain ⟨hpos, rfl⟩ := hs
      exact h.completed hl hg hpos
    | paused c => cases hs
  · rw [step_perFile hs (fun p he => hop ⟨p, he⟩), h.bytes]
    refine bytesOf_congr ?_
    intro p
    rw [counted_val, counted_val]
    obtain ⟨pop, hi, -, ha⟩ := step_piece hs p
    have hpop : pop ≠ .completed := by
      rintro rfl
      cases hi
      exact hop ⟨p, rfl⟩
    rw [ha, PieceView.counted_apply (hok.piece hi) hpop]

theorem start_perFile (hl : FileLayout l fs) {h sel : Bits} {c : ChunkTracker l}
    (hc : ChunkTracker.new h sel fs = .ok c) : PerFile fs (start c) := by
  obtain ⟨-, hh, -, -, hb, -⟩ := ChunkTracker.new_ok hc
  refine ⟨fun p => ⟨Nat.zero_le _, fun hpos => absurd hpos (lt_irrefl 0)⟩, ?_⟩
  change c.perFileBytes = _
  rw [hb]
  refine List.map_congr_left ?_
  intro fi hfi
  rw [hl.fileHaveBytes_eq hfi]
  refine weight_congr ?_
  intro p hp
  have hcount := counted_val (start c) ⟨p, hp⟩
  rw [hcount, ← hh]
  simp [PieceView.counted, piece, start, chunks, completing, LiveTracker.new, PieceTracker.new]

/-- Along every run that verifies a piece once and does not pause with a piece uncounted, in
a torrent in which no empty file stands between two files of one piece, the counters are
exact whenever no piece is waiting to be counted. -/
theorem countsOnce_perFile (l : Lengths) (fs : List FileInfo) (hl : FileLayout l fs)
    (hg : NoEmptyBetween fs) (h sel : Bits) (c : ChunkTracker l)
    (hc : ChunkTracker.new h sel fs = .ok c) (ops : List (TorrentOp l)) (t : Torrent l)
    (hr : Run (step fs) CountsOnce (start c) ops t) (hidle : ∀ p, t.completing p = 0) :
    t.chunks.perFileBytes = fs.map (ChunkTracker.fileHaveBytes l t.chunks.havePieces) ∧
      ∀ (i : ℕ) (fi : FileInfo), fs[i]? = some fi →
        t.chunks.perFileBytes[i]? = some (fi.bytesOf l t.chunks.havePieces.get) ∧
        fi.bytesOf l t.chunks.havePieces.get ≤ fi.len ∧
        (t.chunks.perFileBytes[i]? = some fi.len →
          ∀ p, fi.contains p = true → t.chunks.havePieces.get p = true) := by
  have hinv : PerFile fs t :=
    hr.inv (PerFile fs) (start_perFile hl hc) fun s op s' hi hok hs => hi.step hl hg hok hs
  have hbytes : t.chunks.perFileBytes = fs.map (FileInfo.bytesOf l t.chunks.havePieces.get) := by
    rw [hinv.bytes]
    refine bytesOf_congr ?_
    intro p
    rw [counted_val]
    simp [PieceView.counted, piece, hidle p]
  refine ⟨?_, fun i fi hi => ?_⟩
  · rw [hbytes]
    exact List.map_congr_left fun fi hfi => (hl.fileHaveBytes_eq hfi _).symm
  have hget : t.chunks.perFileBytes[i]? = some (fi.bytesOf l t.chunks.havePieces.get) := by
    rw [hbytes, List.getElem?_map, hi]
    rfl
  have htotal := FileInfo.sum_bytesIn (hl.end_le_total hi)
  refine ⟨hget, htotal ▸ weight_le_total, ?_⟩
  intro hfull p hp
  by_contra hmiss
  obtain ⟨hlt, hpos⟩ := (hl.contains_iff fi (List.mem_of_getElem? hi) p).1 hp
  have hle : fi.bytesOf l t.chunks.havePieces.get + fi.bytesIn l p ≤ fi.len := by
    rw [← htotal]
    exact weight_add_le_total hlt (by simpa using hmiss)
  have hlen : fi.bytesOf l t.chunks.havePieces.get = fi.len := by
    rw [hget] at hfull
    exact Option.some.inj hfull
  have hpos : 0 < fi.bytesIn l p := hpos
  omega

theorem twoFiles_layout : FileLayout twoPieces twoFiles :=
  .of_check (by decide +kernel) (by decide +kernel) (by decide +kernel)

theorem twoFiles_noEmptyBetween : NoEmptyBetween twoFiles := by
  intro i j k fi fj fk _ hj _ _ _ hlen
  have hpos : ∀ fi ∈ twoFiles, fi.len ≠ 0 := by decide
  exact absurd hlen (hpos fj (List.mem_of_getElem? hj))

def completeFirst : List (TorrentOp twoPieces) :=
  [.acquire (plainRequest peerA), .markChunk ⟨0, 0, 16384⟩ 1, .checkPiece firstPiece .ok,
    .updateOnlyFiles {0}, .onPieceCompleted firstPiece, .pause, .resume]

theorem completeFirst_perFile : ∃ c t,
    ChunkTracker.new (l := twoPieces) (somePieces 0 0) (somePieces 0 2) twoFiles = .ok c ∧
      Run (step twoFiles) CountsOnce (start c) completeFirst t ∧
      t.chunks.perFileBytes =
        twoFiles.map (ChunkTracker.fileHaveBytes twoPieces t.chunks.havePieces) := by
  have hrun : ∃ c t,
      ChunkTracker.new (l := twoPieces) (somePieces 0 0) (somePieces 0 2) twoFiles = .ok c ∧
        Run (step twoFiles) CountsOnce (start c) completeFirst t ∧
        decide (∀ p, t.completing p = 0) = true := exists_run (by decide +kernel)
  obtain ⟨c, t, hc, hr, hq⟩ := hrun
  exact ⟨c, t, hc, hr, (countsOnce_perFile _ _ twoFiles_layout twoFiles_noEmptyBetween _ _ _ hc _ _ hr
    (of_decide_eq_true hq)).1⟩

/-- An empty file between two files that share the first piece. -/
def emptyBetween : List FileInfo :=
  [⟨0, (0, 1), false, 100⟩, ⟨100, (0, 0), false, 0⟩, ⟨100, (0, 2), false, 32668⟩]

/-- A run in a well-formed layout that ends, with no piece waiting to be counted, with
counters that differ from those of `recalculate_per_file_bytes`. -/
def MiscountedAfter (fs : List FileInfo) (ops : List (TorrentOp twoPieces)) : Prop :=
  FileLayout twoPieces fs ∧
    ∃ c t, ChunkTracker.new (l := twoPieces) (somePieces 0 0) (somePieces 0 2) fs = .ok c ∧
      Run (step fs) Any (start c) ops t ∧
      (decide (∀ p, t.completing p = 0) && decide (t.chunks.perFileBytes ≠
        fs.map (ChunkTracker.fileHaveBytes twoPieces t.chunks.havePieces))) = true

/-- The file behind the empty one is not updated; `pause` comes between `mark_piece_hash_ok`
and `on_piece_completed`; a piece selected again during its hash check is downloaded and
counted twice. -/
theorem per_file_bytes_miscounted :
    MiscountedAfter emptyBetween
      [.acquire (requestFor twoPieces emptyBetween peerA), .markChunk ⟨0, 0, 16384⟩ 1,
        .checkPiece firstPiece .ok, .onPieceCompleted firstPiece] ∧
    MiscountedAfter twoFiles
      [.acquire (requestFor twoPieces twoFiles peerA), .markChunk ⟨0, 0, 16384⟩ 1,
        .checkPiece firstPiece .ok, .pause] ∧
    MiscountedAfter twoFiles
      [.acquire (requestFor twoPieces twoFiles peerA), .markChunk ⟨0, 0, 16384⟩ 1,
        .updateOnlyFiles {1}, .updateOnlyFiles {0, 1},
        .acquire (requestFor twoPieces twoFiles peerB), .checkPiece firstPiece .ok,
        .onPieceCompleted firstPiece, .markChunk ⟨0, 0, 16384⟩ 2, .checkPiece firstPiece .ok,
        .onPieceCompleted firstPiece] := by
  refine ⟨⟨.of_check ?_ ?_ ?_, exists_run ?_⟩, ⟨.of_check ?_ ?_ ?_, exists_run ?_⟩,
    ⟨.of_check ?_ ?_ ?_, exists_run ?_⟩⟩
  all_goals decide +kernel

end Torrent

end Rtbit
