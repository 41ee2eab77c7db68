import Rtbit.Lib.Blocks
import Rtbit.Proofs.Verifiers
import Rtbit.Sanity.Chunks
import Rtbit.Spec.CreateTorrent

/-! The hashes of a created torrent are those of the pieces of its files if and only if the last
file is empty exactly when the files end at the end of a piece: whether a piece is left at the end
is read off the length of the last file. If the hashes are right, the torrent passes
`initial_check` on its own files. -/

namespace Rtbit

open Lib

namespace CreateTorrent

variable {H : Type}

/-- The concatenation of the input files. -/
def contents (files : List InputFile) : List UInt8 := (files.map InputFile.content).flatten

@[simp] theorem contents_cons (file : InputFile) (files : List InputFile) :
    contents (file :: files) = file.content ++ contents files := by
  simp [contents]

theorem length_contents (files : List InputFile) :
    (contents files).length = (files.map (·.content.length)).sum := by
  simp [contents, List.length_flatten, Function.comp_def]

/-- The length of the last file, and zero if there is none. -/
def lastLength (files : List InputFile) : ℕ := (files.getLast?.map (·.content.length)).getD 0

/-- One hash a piece, that of the bytes of the piece. -/
def HashesExact (hash : List UInt8 → H) (root : Root) (info : TorrentMetaV1Info H) : Prop :=
  info.pieces = (blocks info.pieceLength (contents root.inputFiles)).map hash

instance [DecidableEq H] (hash : List UInt8 → H) (root : Root) (info : TorrentMetaV1Info H) :
    Decidable (HashesExact hash root info) :=
  inferInstanceAs (Decidable (_ = _))

/-- The true length of every file, in order. -/
def FilesExact (root : Root) (info : TorrentMetaV1Info H) : Prop :=
  match root with
  | .file content => info.length = some content.length ∧ info.files = none
  | .dir files =>
    info.length = none ∧ info.files = some (files.map fun f => ⟨f.content.length, f.path⟩)

/-- Every open and every read succeeds. -/
def Reads.Succeed (r : Reads) : Prop :=
  (∀ i, r.openFails i = false) ∧ ∀ i pos, r.readFails i pos = false

/-! What has been hashed is kept in full blocks and a residue. -/

structure Fed (pieceLength : ℕ) (hash : List UInt8 → H) (data : List UInt8) (s : Hashing H) :
    Prop where
  remaining : s.remainingPieceLength = pieceLength - s.pieceChecksum.length
  checksum : s.pieceChecksum = residue pieceLength data
  hashes : s.pieceHashes = (fullBlocks pieceLength data).map hash

section

variable {pieceLength : ℕ} {hash : List UInt8 → H} {reads : Reads} {data b : List UInt8}
  {s : Hashing H}

theorem Fed.start (pieceLength : ℕ) (hash : List UInt8 → H) :
    Fed pieceLength hash [] ⟨pieceLength, [], []⟩ := by
  refine ⟨rfl, ?_, ?_⟩
  · simp [residue]
  · simp [fullBlocks]

theorem Fed.remaining_pos (hpl : 0 < pieceLength) (h : Fed pieceLength hash data s) :
    0 < s.remainingPieceLength := by
  have hmod := Nat.mod_lt data.length hpl
  rw [h.remaining, h.checksum, length_residue]
  omega

/-- A read that stays inside the piece. -/
theorem Fed.update (hpl : 0 < pieceLength) (h : Fed pieceLength hash data s)
    (hb : b.length ≤ s.remainingPieceLength) :
    Fed pieceLength hash (data ++ b) (s.update hash pieceLength b) := by
  have hpos := h.remaining_pos hpl
  have hrem := h.remaining
  rw [h.checksum] at hrem
  unfold Hashing.update
  split_ifs with hfull
  · -- the piece is complete
    have hfill : (residue pieceLength data).length + b.length = pieceLength := by omega
    obtain ⟨hblocks, hres⟩ := append_fill hpl hfill
    refine ⟨rfl, hres.symm, ?_⟩
    rw [hblocks, h.hashes, h.checksum, List.map_append, List.map_singleton]
  · have hshort : (residue pieceLength data).length + b.length < pieceLength := by omega
    obtain ⟨hblocks, hres⟩ := append_short hpl hshort
    refine ⟨?_, ?_, ?_⟩
    · simp only [h.checksum, List.length_append]
      omega
    · rw [hres, h.checksum]
    · rw [hblocks, h.hashes]

/-- A read returns bytes of the file, and none only at its end. -/
theorem Reads.read_eq (hr : reads.Succeed) (i : ℕ) (content : List UInt8) (pos : ℕ) {n : ℕ}
    (hn : 0 < n) : ∃ k, reads.read i content pos n = some ((content.drop pos).take k) ∧
      0 < k ∧ k ≤ n := by
  refine ⟨min n (max 1 (reads.size i pos)), ?_, by omega, Nat.min_le_left _ _⟩
  simp [Reads.read, hr.2 i pos]

/-- The loop over a file hashes what is left of it, however short the reads are. -/
theorem readLoop_fed (hpl : 0 < pieceLength) (hr : reads.Succeed) (i : ℕ) (file : InputFile)
    (rounds length : ℕ) (hlen : length ≤ file.content.length)
    (hrounds : file.content.length < rounds + length)
    (h : Fed pieceLength hash (data ++ file.content.take length) s) :
    ∃ s', readLoop hash pieceLength reads i file rounds length s = .ok (file.content.length, s') ∧
      Fed pieceLength hash (data ++ file.content) s' := by
  induction rounds generalizing length s with
  | zero => omega
  | succ rounds ih =>
    have hmax : 0 < min s.remainingPieceLength readSize := by
      have hpos := h.remaining_pos hpl
      unfold readSize
      omega
    obtain ⟨k, hread, hk, hkn⟩ := Reads.read_eq hr i file.content length hmax
    rw [readLoop, hread]
    simp only
    have hlb : ((file.content.drop length).take k).length = min k (file.content.length - length) := by
      simp
    split_ifs with hzero
    · -- the end of the file
      obtain rfl : length = file.content.length := by omega
      rw [List.take_length] at h
      exact ⟨s, rfl, h⟩
    · have hfed := h.update (b := (file.content.drop length).take k) hpl (by omega)
      rw [List.append_assoc, ← List.take_add] at hfed
      refine ih _ (by omega) (by omega) ?_
      rw [hlb]
      rcases Nat.le_total k (file.content.length - length) with hle | hle
      · rw [Nat.min_eq_left hle]
        exact hfed
      · rw [Nat.min_eq_right hle, Nat.add_sub_cancel' hlen, List.take_length]
        rw [List.take_of_length_le (by omega : file.content.length ≤ length + k)] at hfed
        exact hfed

theorem hashFiles_fed (hpl : 0 < pieceLength) (hr : reads.Succeed) (files : List InputFile) (i : ℕ)
    {p : Progress H} (h : Fed pieceLength hash data p.hashing) :
    ∃ p', hashFiles hash pieceLength reads i files p = .ok p' ∧
      Fed pieceLength hash (data ++ contents files) p'.hashing ∧
      p'.length = (files.getLast?.map (·.content.length)).getD p.length ∧
      p'.outputFiles = p.outputFiles ++ files.map fun f => ⟨f.content.length, f.path⟩ := by
  induction files generalizing i data p with
  | nil => exact ⟨p, rfl, by simpa [contents] using h, rfl, by simp⟩
  | cons file files ih =>
    obtain ⟨s, hs, hfed⟩ := readLoop_fed hpl hr i file (file.content.length + 1) 0 (Nat.zero_le _)
      (Nat.lt_succ_self _) (by simpa using h)
    obtain ⟨p', hp', hfed', hlast, hout⟩ :=
      ih (i + 1) (p := ⟨file.content.length, s, p.outputFiles ++ [⟨file.content.length, file.path⟩]⟩)
        hfed
    refine ⟨p', ?_, ?_, ?_, ?_⟩
    · rw [hashFiles, hr.1 i]
      simp only [Bool.false_eq_true, if_false, hs]
      exact hp'
    · rw [contents_cons, ← List.append_assoc]
      exact hfed'
    · rw [hlast]
      cases files with
      | nil => rfl
      | cons g files => rw [List.getLast?_cons_cons, List.getLast?_eq_some_getLast (by simp)]; rfl
    · rw [hout, List.append_assoc, List.map_cons, List.singleton_append]

end

/-! The torrent on its own files. -/

/-- The files as `initial_check` reads them. -/
def storage (files : List InputFile) : Storage where
  contents i := (files[i]?.map InputFile.content).getD []
  fails _ _ _ := false

/-- The hashes of the torrent, as `compare_hash` finds them. -/
def pieceHash (hash : List UInt8 → H) (info : TorrentMetaV1Info H) : PieceHash H where
  hash
  expected p := info.pieces[p]?

/-- The lengths and the file list are those of the torrent. -/
structure Describes (root : Root) (info : TorrentMetaV1Info H) (l : Lengths) (fs : List FileInfo) :
    Prop where
  inOrder : l.InOrder
  total : l.totalLength = (contents root.inputFiles).length
  pieceLength : l.defaultPieceLength = info.pieceLength
  len : fs.map FileInfo.len = root.inputFiles.map (·.content.length)
  padding : ∀ fi ∈ fs, fi.padding = false

/-- `initial_check` finds every piece. -/
def Passes [DecidableEq H] (hash : List UInt8 → H) (root : Root) (info : TorrentMetaV1Info H)
    (l : Lengths) (fs : List FileInfo) : Prop :=
  ∃ b, FileOps.initialCheck l fs (storage root.inputFiles) (pieceHash hash info)
      (fun _ => false) = .ok b ∧ ∀ p < l.totalPieces, b.get p = true

theorem fileBytes_storage {st : Storage} {i : ℕ} {fi : FileInfo} {content : List UInt8}
    (hst : st.contents i = content) (hlen : fi.len = content.length) (hp : fi.padding = false) :
    fileBytes st i fi = content := by
  refine List.ext_getElem? ?_
  intro k
  rcases Nat.lt_or_ge k fi.len with hk | hk
  · rw [fileBytes_get hp hk, Storage.byte, hst, List.getD_eq_getElem?_getD,
      List.getElem?_eq_getElem (hlen ▸ hk), Option.getD_some]
  · rw [List.getElem?_eq_none (by simpa using hk), List.getElem?_eq_none (hlen ▸ hk)]

theorem flatFrom_storage {st : Storage} {fs : List FileInfo} {files : List InputFile} {i : ℕ}
    (hst : ∀ j file, files[j]? = some file → st.contents (i + j) = file.content)
    (hlen : fs.map FileInfo.len = files.map (·.content.length))
    (hp : ∀ fi ∈ fs, fi.padding = false) : flatFrom st i fs = contents files := by
  induction fs generalizing i files with
  | nil =>
    obtain rfl : files = [] := by simpa using hlen.symm
    rfl
  | cons fi fs ih =>
    cases files with
    | nil => cases hlen
    | cons file files =>
      rw [List.map_cons, List.map_cons, List.cons.injEq] at hlen
      have hrest : flatFrom st (i + 1) fs = contents files := by
        refine ih ?_ hlen.2 fun g hg => hp g (List.mem_cons_of_mem fi hg)
        intro j f hf
        rw [Nat.add_assoc, Nat.add_comm 1 j]
        exact hst (j + 1) f hf
      have hfile : st.contents i = file.content := hst 0 file rfl
      rw [flatFrom, contents_cons, hrest,
        fileBytes_storage hfile hlen.1 (hp fi List.mem_cons_self)]

section

variable {root : Root} {info : TorrentMetaV1Info H} {l : Lengths} {fs : List FileInfo}

theorem Describes.flat (h : Describes root info l fs) :
    flat fs (storage root.inputFiles) = contents root.inputFiles := by
  refine flatFrom_storage ?_ h.len h.padding
  intro j file hj
  simp [storage, hj]

theorem Describes.sum (h : Describes root info l fs) : (fs.map FileInfo.len).sum = l.totalLength := by
  rw [h.len, h.total, length_contents]

theorem Describes.noReadFails (h : Describes root info l fs) :
    FileOps.NoReadFails fs (storage root.inputFiles) := by
  intro i fi hi _ pos n hle
  have hlen := congrArg (·[i]?) h.len
  simp only [List.getElem?_map, hi, Option.map_some] at hlen
  obtain ⟨file, hfile, hfl⟩ := Option.map_eq_some_iff.1 hlen.symm
  have hin : pos + n ≤ ((storage root.inputFiles).contents i).length := by
    simp only [storage, hfile, Option.map_some, Option.getD_some]
    omega
  rw [Storage.preadExact, if_pos ⟨rfl, hin⟩]
  rfl

end

end CreateTorrent

namespace FileOps

variable {H : Type} [DecidableEq H] {l : Lengths} {fs : List FileInfo} {st : Storage}
  {ph : PieceHash H}

/-- The hash of every piece is that of its bytes. -/
def HashesMatch (l : Lengths) (fs : List FileInfo) (st : Storage) (ph : PieceHash H) : Prop :=
  ∀ p < l.totalPieces, ph.expected p = some (ph.hash (block l.defaultPieceLength (flat fs st) p))

/-- The stretches of a piece are its bytes. -/
theorem readSegments_piece (hsum : (fs.map FileInfo.len).sum = l.totalLength)
    (p : ValidPieceIndex l) {b : List UInt8}
    (h : readSegments st (pieceSegments l fs p) = some b) :
    b = block l.defaultPieceLength (flat fs st) p := by
  rw [readSegments_slice h, l.pieceLength_eq p p.isLt, block, flat, List.take_eq_take_iff,
    List.length_drop, length_flatFrom, hsum]
  omega

/-- A round finds its piece, if no read fails and the hash matches. -/
theorem initialCheckPiece_passes (hsum : (fs.map FileInfo.len).sum = l.totalLength)
    (hno : NoReadFails fs st) (hmatch : HashesMatch l fs st ph) (p : ValidPieceIndex l)
    {c : CheckState}
    (hat : At fs (min (p * l.defaultPieceLength) l.totalLength) c.currentFile c.fileIterator)
    (hb : c.currentFile.isBroken = false) :
    ∃ f files, initialCheckPiece st ph (fun _ => false) c ⟨p, l.pieceLength p⟩ =
        .ok ⟨f, files, c.havePieces.set p true⟩ ∧
      At fs (min ((p + 1 : ℕ) * l.defaultPieceLength) l.totalLength) f files ∧
      f.isBroken = false := by
  obtain ⟨s, hs, hsc, hat'⟩ := scanPiece hsum p hat
  obtain ⟨hb', hnb, b, hread, he⟩ := hsc.complete (fun seg hseg => hno.segment hseg) hb rfl
  refine ⟨s.currentFile, s.fileIterator, ?_, hat', hb'⟩
  have hhash : s.computedHash = block l.defaultPieceLength (flat fs st) p := by
    rw [he, List.nil_append]
    exact readSegments_piece hsum p hread
  have hcmp : ph.compareHash p s.computedHash = some true := by
    simp [PieceHash.compareHash, hmatch p p.isLt, hhash]
  simp only [initialCheckPiece, Bool.false_eq_true, if_false, hs, hnb, hcmp]

theorem initialCheckLoop_passes (hsum : (fs.map FileInfo.len).sum = l.totalLength)
    (hno : NoReadFails fs st) (hmatch : HashesMatch l fs st ph) (m p₀ : ℕ)
    (hm : p₀ + m = l.totalPieces) {c : CheckState}
    (hat : At fs (min (p₀ * l.defaultPieceLength) l.totalLength) c.currentFile c.fileIterator)
    (hb : c.currentFile.isBroken = false) (hlen : l.totalPieces ≤ c.havePieces.len) :
    ∃ c', initialCheckLoop st ph (fun _ => false) c
        ((List.range' p₀ m).map fun p => ⟨p, l.pieceLength p⟩) = .ok c' ∧
      ∀ p < l.totalPieces, c.havePieces.get p = true ∨ p₀ ≤ p → c'.havePieces.get p = true := by
  induction m generalizing p₀ c with
  | zero =>
    refine ⟨c, rfl, ?_⟩
    intro p hp hor
    exact hor.resolve_right (by omega)
  | succ m ih =>
    obtain ⟨f, files, hpiece, hat', hb'⟩ :=
      initialCheckPiece_passes hsum hno hmatch ⟨p₀, by omega⟩ hat hb
    obtain ⟨c', hloop, hall⟩ := ih (p₀ + 1) (by omega)
      (c := ⟨f, files, c.havePieces.set p₀ true⟩) hat' hb' (by simpa using hlen)
    refine ⟨c', ?_, ?_⟩
    · rw [List.range'_succ, List.map_cons, initialCheckLoop, hpiece]
      exact hloop
    · intro p hp hor
      refine hall p hp ?_
      by_cases hpp : p = p₀
      · subst hpp
        exact Or.inl (Bits.get_set_self true (by omega))
      · rw [Bits.get_set_ne true (Ne.symm hpp)]
        exact hor.imp_right fun hle => by omega

/-- If there is a file, no read fails and the hashes match, every piece is found. -/
theorem initialCheck_passes (hl : l.InOrder) (hsum : (fs.map FileInfo.len).sum = l.totalLength)
    (hfs : fs ≠ []) (hno : NoReadFails fs st) (hmatch : HashesMatch l fs st ph) :
    ∃ b, initialCheck l fs st ph (fun _ => false) = .ok b ∧ ∀ p < l.totalPieces, b.get p = true := by
  cases hc : currentFiles fs with
  | nil =>
    refine absurd ?_ hfs
    simpa [currentFiles] using hc
  | cons f files =>
    obtain ⟨hat, hb⟩ := At.start hc
    obtain ⟨c', hloop, hall⟩ := initialCheckLoop_passes hsum hno hmatch l.totalPieces 0
      (Nat.zero_add _) (c := ⟨f, files, .zeros (l.pieceBitfieldBytes * 8)⟩) (by simpa using hat) hb
      (by simpa using l.totalPieces_le)
    refine ⟨c'.havePieces, ?_, fun p hp => hall p hp (Or.inr (Nat.zero_le p))⟩
    rw [Lengths.InOrder] at hl
    rw [initialCheck, hc, hl, List.range_eq_range']
    simp only [hloop]
    rfl

end FileOps

namespace CreateTorrent

variable {H : Type}

theorem Describes.hashesMatch {hash : List UInt8 → H} {root : Root} {info : TorrentMetaV1Info H}
    {l : Lengths} {fs : List FileInfo} [DecidableEq H] (h : Describes root info l fs)
    (he : HashesExact hash root info) :
    FileOps.HashesMatch l fs (storage root.inputFiles) (pieceHash hash info) := by
  intro p hp
  have hlt := l.start_lt p hp
  have hpl := l.defaultPieceLength_pos ⟨p, hp⟩
  rw [h.total] at hlt
  have hcount := (lt_blockCount hpl).2 hlt
  rw [h.pieceLength] at hcount ⊢
  simp only [pieceHash, h.flat]
  rw [he, blocks, List.getElem?_map, List.getElem?_map, List.getElem?_range hcount]
  rfl

/-- The hashes that are returned are those of the blocks if and only if `length` is zero exactly
when the residue is empty. -/
theorem Fed.pieces_iff {pieceLength : ℕ} {hash : List UInt8 → H} {data : List UInt8} {s : Hashing H}
    (hpl : 0 < pieceLength) (h : Fed pieceLength hash data s) (length : ℕ) :
    (if 0 < s.remainingPieceLength ∧ 0 < length then s.pieceHashes ++ [hash s.pieceChecksum]
      else s.pieceHashes) = (blocks pieceLength data).map hash ↔
        (length = 0 ↔ pieceLength ∣ data.length) := by
  have hpos := h.remaining_pos hpl
  rw [blocks_eq hpl, List.map_append, h.hashes, h.checksum]
  by_cases hlen : length = 0 <;> by_cases hres : residue pieceLength data = []
  · simp [hlen, hres, residue_eq_nil.1 hres]
  · simp [hlen, hres, mt residue_eq_nil.2 hres]
  · simp [hlen, hres, residue_eq_nil.1 hres, hpos, Nat.pos_of_ne_zero hlen]
  · simp [hlen, hres, mt residue_eq_nil.2 hres, hpos, Nat.pos_of_ne_zero hlen]

/-- Without a failing open or read a torrent is created, however short the reads are. -/
theorem createTorrentRaw_ok (hash : List UInt8 → H) {reads : Reads} (hr : reads.Succeed)
    (basename : String) (root : Root) {options : CreateTorrentOptions}
    (hpl : options.pieceLength ≠ some 0) :
    ∃ info, createTorrentRaw hash reads basename root options = .ok info ∧
      info.pieceLength = options.pieceLength.getD (choosePieceLength root.inputFiles) ∧
      FilesExact root info ∧
      (HashesExact hash root info ↔ (lastLength root.inputFiles = 0 ↔
        info.pieceLength ∣ (contents root.inputFiles).length)) := by
  unfold createTorrentRaw
  have hpos : 0 < options.pieceLength.getD (choosePieceLength root.inputFiles) := by
    cases hopt : options.pieceLength with
    | none => simp [choosePieceLength]
    | some n =>
      rw [Option.getD_some]
      exact Nat.pos_of_ne_zero fun h0 => hpl (h0 ▸ hopt)
  generalize options.pieceLength.getD (choosePieceLength root.inputFiles) = pieceLength at hpos
  obtain ⟨⟨length, s, out⟩, hfiles, hfed, hlast, hout⟩ :=
    hashFiles_fed hpos hr root.inputFiles 0 (p := ⟨0, ⟨pieceLength, [], []⟩, []⟩)
      (Fed.start pieceLength hash)
  have hiff := hfed.pieces_iff hpos length
  rw [List.nil_append] at hiff hout
  simp only [hfiles]
  refine ⟨_, rfl, rfl, ?_, ?_⟩
  · cases root with
    | file content => exact ⟨congrArg some hlast, rfl⟩
    | dir files => exact ⟨rfl, congrArg some hout⟩
  · rw [lastLength, ← hlast]
    exact hiff

/-- If the hashes are right, the torrent passes on its own files, unless there are none. -/
theorem HashesExact.passes_iff [DecidableEq H] {hash : List UInt8 → H} {root : Root}
    {info : TorrentMetaV1Info H} {l : Lengths} {fs : List FileInfo} (he : HashesExact hash root info)
    (h : Describes root info l fs) : Passes hash root info l fs ↔ root.inputFiles ≠ [] := by
  have hnil : root.inputFiles = [] ↔ fs = [] := by
    rw [← List.map_eq_nil_iff (f := FileInfo.len), h.len, List.map_eq_nil_iff]
  constructor
  · rintro ⟨b, hb, -⟩ hempty
    rw [hnil.1 hempty] at hb
    cases hb
  · intro hne
    exact FileOps.initialCheck_passes h.inOrder h.sum (mt hnil.2 hne) h.noReadFails (h.hashesMatch he)

theorem createTorrentRaw_exact [DecidableEq H] (hash : List UInt8 → H) (reads : Reads)
    (hr : reads.Succeed) (basename : String) (root : Root) (options : CreateTorrentOptions)
    (hpl : options.pieceLength ≠ some 0) :
    ∃ info, createTorrentRaw hash reads basename root options = .ok info ∧
      info.pieceLength = options.pieceLength.getD (choosePieceLength root.inputFiles) ∧
      FilesExact root info ∧
      (HashesExact hash root info ↔ (lastLength root.inputFiles = 0 ↔
        info.pieceLength ∣ (contents root.inputFiles).length)) ∧
      ∀ l fs, Describes root info l fs →
        (HashesExact hash root info ∧ Passes hash root info l fs ↔
          (lastLength root.inputFiles = 0 ↔
            info.pieceLength ∣ (contents root.inputFiles).length) ∧ root.inputFiles ≠ []) := by
  obtain ⟨info, hok, hpiece, hfiles, hiff⟩ := createTorrentRaw_ok hash hr basename root hpl
  refine ⟨info, hok, hpiece, hfiles, hiff, ?_⟩
  intro l fs hd
  rw [← hiff]
  exact and_congr_right fun he => he.passes_iff hd

/-! An empty file in the middle, and reads of one byte. -/

def oneByteReads : Reads := ⟨fun _ => false, fun _ _ => false, fun _ _ => 1⟩

def fiveBytes : Root := .dir [⟨["a"], [1, 2, 3]⟩, ⟨["b"], []⟩, ⟨["c"], [4, 5]⟩]

def fiveByteLengths : Lengths :=
  Lengths.new 5 2 (by decide) (by decide) (by decide) (by decide)

def fiveByteFiles : List FileInfo :=
  [⟨0, (0, 2), false, 3⟩, ⟨3, (1, 1), false, 0⟩, ⟨3, (1, 3), false, 2⟩]

theorem fiveBytes_created : ∃ info,
    createTorrentRaw id oneByteReads "d" fiveBytes ⟨none, some 2⟩ = .ok info ∧
      FilesExact fiveBytes info ∧ HashesExact id fiveBytes info ∧
      Passes id fiveBytes info fiveByteLengths fiveByteFiles := by
  obtain ⟨info, hok, hpl, hfiles, -, hpass⟩ := createTorrentRaw_exact id oneByteReads
    ⟨fun _ => rfl, fun _ _ => rfl⟩ "d" fiveBytes ⟨none, some 2⟩ (by decide)
  have hd : Describes fiveBytes info fiveByteLengths fiveByteFiles :=
    ⟨Lengths.new_inOrder _ _ _ _ _ _, rfl, hpl.symm, rfl, by decide⟩
  obtain ⟨hexact, hok'⟩ := (hpass fiveByteLengths fiveByteFiles hd).2 ⟨by rw [hpl]; decide, by decide⟩
  exact ⟨info, hok, hfiles, hexact, hok'⟩

/-- A file of exactly one piece gets a second hash, and the last piece gets none if an empty file
stands at the end: the torrent does not pass `initial_check`. -/
theorem pieceEnd_misread :
    (∃ info, createTorrentRaw id oneByteReads "a" (.file [1, 2]) ⟨none, some 2⟩ = .ok info ∧
      info.pieces = [[1, 2], []] ∧ ¬HashesExact id (.file [1, 2]) info) ∧
    ∃ info, createTorrentRaw id oneByteReads "d" (.dir [⟨["a"], [1]⟩, ⟨["b"], []⟩])
        ⟨none, some 2⟩ = .ok info ∧
      info.pieces = [] ∧ ¬HashesExact id (.dir [⟨["a"], [1]⟩, ⟨["b"], []⟩]) info ∧
      ¬Passes id (.dir [⟨["a"], [1]⟩, ⟨["b"], []⟩]) info
        (Lengths.new 1 2 (by decide) (by decide) (by decide) (by decide))
        [⟨0, (0, 1), false, 1⟩, ⟨1, (1, 1), false, 0⟩] := by
  refine ⟨⟨_, rfl, rfl, by decide⟩, _, rfl, rfl, by decide, ?_⟩
  rintro ⟨b, hb, -⟩
  cases hb

end CreateTorrent

end Rtbit
