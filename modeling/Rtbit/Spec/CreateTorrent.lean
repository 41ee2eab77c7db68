import Mathlib.Tactic

/-! `create_torrent_raw`: the input files are read one after the other, with two counters: the
length of the file, and what is left of the piece. `Sha1` keeps the bytes it was given, and
`finish` applies the hash to them. -/

namespace Rtbit

namespace CreateTorrent

/-- An input file. `path` is what `strip_prefix` leaves of its path. -/
structure InputFile where
  path : List String
  content : List UInt8
  deriving DecidableEq, Repr

/-- What the path leads to: one file, or a directory with the files that the walk through it
finds, in its order. -/
inductive Root where
  | file (content : List UInt8)
  | dir (files : List InputFile)
  deriving DecidableEq, Repr

/-- The path of a single file is the prefix itself. -/
def Root.inputFiles : Root → List InputFile
  | .file content => [⟨[], content⟩]
  | .dir files => files

structure CreateTorrentOptions where
  name : Option String
  pieceLength : Option ℕ
  deriving DecidableEq, Repr

structure TorrentMetaV1File where
  length : ℕ
  path : List String
  deriving DecidableEq, Repr

/-- `TorrentMetaV1Info`, with one entry a hash in `pieces`. -/
structure TorrentMetaV1Info (H : Type) where
  name : String
  pieces : List H
  pieceLength : ℕ
  length : Option ℕ
  files : Option (List TorrentMetaV1File)
  deriving DecidableEq, Repr

inductive CreateError where
  /-- "error opening {filename}" -/
  | opening (file : InputFile)
  /-- "error reading {filename}" -/
  | reading (file : InputFile)
  deriving DecidableEq, Repr

def choosePieceLength (_inputFiles : List InputFile) : ℕ := 2 * 1024 * 1024

def readSize : ℕ := 8192

/-- How opening and reading the files turn out. `size i pos` is how much of the file `i` the
read at `pos` is willing to return. -/
structure Reads where
  openFails : ℕ → Bool
  readFails : ℕ → ℕ → Bool
  size : ℕ → ℕ → ℕ

/-- `fd.read(&mut read_buf[..n])`: a read returns at least one byte, unless there is none or the
buffer is empty. -/
def Reads.read (r : Reads) (i : ℕ) (content : List UInt8) (pos n : ℕ) : Option (List UInt8) :=
  if r.readFails i pos then none else some ((content.drop pos).take (min n (max 1 (r.size i pos))))

/-- `remaining_piece_length`, `piece_checksum` and `piece_hashes`. -/
structure Hashing (H : Type) where
  remainingPieceLength : ℕ
  pieceChecksum : List UInt8
  pieceHashes : List H
  deriving DecidableEq, Repr

/-- What the loop over the files changes. -/
structure Progress (H : Type) where
  length : ℕ
  hashing : Hashing H
  outputFiles : List TorrentMetaV1File
  deriving DecidableEq, Repr

section

variable {H : Type} (hash : List UInt8 → H) (pieceLength : ℕ) (reads : Reads)

/-- What the loop does with the bytes of one read. -/
def Hashing.update (s : Hashing H) (b : List UInt8) : Hashing H :=
  if s.remainingPieceLength - b.length = 0 then
    ⟨pieceLength, [], s.pieceHashes ++ [hash (s.pieceChecksum ++ b)]⟩
  else ⟨s.remainingPieceLength - b.length, s.pieceChecksum ++ b, s.pieceHashes⟩

/-- The loop over one file, `length` bytes into it. Every round but the last reads at least one
byte. -/
def readLoop (i : ℕ) (file : InputFile) :
    ℕ → ℕ → Hashing H → Except CreateError (ℕ × Hashing H)
  | 0, length, s => .ok (length, s)
  | rounds + 1, length, s =>
    match reads.read i file.content length (min s.remainingPieceLength readSize) with
    | none => .error (.reading file)
    | some b =>
      -- EOF: swap file
      if b.length = 0 then .ok (length, s)
      else readLoop i file rounds (length + b.length) (s.update hash pieceLength b)

/-- The loop over the files, which are numbered from `i`. -/
def hashFiles : ℕ → List InputFile → Progress H → Except CreateError (Progress H)
  | _, [], p => .ok p
  | i, file :: files, p =>
    if reads.openFails i then .error (.opening file)
    else
      match readLoop hash pieceLength reads i file (file.content.length + 1) 0 p.hashing with
      | .error e => .error e
      | .ok (length, s) =>
        hashFiles (i + 1) files ⟨length, s, p.outputFiles ++ [⟨length, file.path⟩]⟩

end

def createTorrentRaw {H : Type} (hash : List UInt8 → H) (reads : Reads) (basename : String)
    (root : Root) (options : CreateTorrentOptions) : Except CreateError (TorrentMetaV1Info H) :=
  let pieceLength := options.pieceLength.getD (choosePieceLength root.inputFiles)
  match hashFiles hash pieceLength reads 0 root.inputFiles ⟨0, ⟨pieceLength, [], []⟩, []⟩ with
  | .error e => .error e
  | .ok ⟨length, s, outputFiles⟩ =>
    .ok {
      name := options.name.getD basename
      pieces :=
        if 0 < s.remainingPieceLength ∧ 0 < length then s.pieceHashes ++ [hash s.pieceChecksum]
        else s.pieceHashes
      pieceLength
      length := match root with
        | .file _ => some length
        | .dir _ => none
      files := match root with
        | .file _ => none
        | .dir _ => some outputFiles }

end CreateTorrent

end Rtbit
