import Rtbit.Lib.Bits
import Rtbit.Spec.Lengths
import Rtbit.Spec.Types

/-! The two verifiers of `file_ops.rs`: `initial_check` streams over all files once,
`check_piece` reads one piece. The piece hash is a parameter: `Sha1` keeps the bytes it was
given, and `finish` applies the hash to them. -/

namespace Rtbit

open Lib

/-- What `pread_exact` can read: the bytes of each file, and the calls that fail. A read past
the end of a file fails. -/
structure Storage where
  contents : ℕ → List UInt8
  fails : ℕ → ℕ → ℕ → Bool

/-- `pread_exact(file_id, offset, buf)` with a buffer of `n` bytes. -/
def Storage.preadExact (st : Storage) (fileId offset n : ℕ) : Option (List UInt8) :=
  if st.fails fileId offset n = false ∧ offset + n ≤ (st.contents fileId).length then
    some (((st.contents fileId).drop offset).take n)
  else none

/-- The piece hash and the expected hash of each piece. -/
structure PieceHash (H : Type) where
  hash : List UInt8 → H
  expected : ℕ → Option H

variable {H : Type} [DecidableEq H]

/-- `compare_hash`; `none` if there is no hash for the piece. -/
def PieceHash.compareHash (ph : PieceHash H) (piece : ℕ) (bytes : List UInt8) : Option Bool :=
  (ph.expected piece).map fun e => decide (e = ph.hash bytes)

namespace FileOps

/-- The buffer of `initial_check`, and the most `check_piece` allocates. -/
def readBuffer : ℕ := 65536

section Reads

variable (st : Storage) (fileId : ℕ) (fi : FileInfo) (bufLen : ℕ)

/-- The bytes of one read into `buf[..chunk]`. -/
def readChunk (pos chunk : ℕ) : Option (List UInt8) :=
  if fi.padding then some (List.replicate chunk 0) else st.preadExact fileId pos chunk

/-- The loop of `update_hash_from_file`. Each round reads at least one byte, so
`bytesToRead` rounds are enough. -/
def updateHashLoop : ℕ → ℕ → ℕ → List UInt8 → Option (List UInt8)
  | 0, _, bytesToRead, hash => if bytesToRead = 0 then some hash else none
  | rounds + 1, pos, bytesToRead, hash =>
    if bytesToRead = 0 then some hash
    else
      let chunk := min bufLen bytesToRead
      (readChunk st fileId fi pos chunk).bind fun b =>
        updateHashLoop rounds (pos + chunk) (bytesToRead - chunk) (hash ++ b)

def updateHashFromFile (pos bytesToRead : ℕ) (hash : List UInt8) : Option (List UInt8) :=
  updateHashLoop st fileId fi bufLen bytesToRead pos bytesToRead hash

end Reads

/-! `check_piece` -/

inductive CheckError where
  /-- "error reading {toRead} bytes, file_id: {fileIdx}" -/
  | read (toRead fileIdx : ℕ)
  /-- "compare_hash() did not find the piece" -/
  | noHash
  deriving DecidableEq, Repr

/-- The loop over the files, from the file with number `fileIdx` on. -/
def checkPieceLoop (st : Storage) (bufLen : ℕ) :
    ℕ → List FileInfo → ℕ → ℕ → List UInt8 → Except CheckError (List UInt8)
  | _, [], _, _, h => .ok h
  | fileIdx, fi :: fis, absoluteOffset, pieceRemaining, h =>
    if absoluteOffset > fi.len then
      checkPieceLoop st bufLen (fileIdx + 1) fis (absoluteOffset - fi.len) pieceRemaining h
    else
      let toRead := min (fi.len - absoluteOffset) pieceRemaining
      match updateHashFromFile st fileIdx fi bufLen absoluteOffset toRead h with
      | none => .error (.read toRead fileIdx)
      | some h =>
        if pieceRemaining - toRead = 0 then .ok h
        else checkPieceLoop st bufLen (fileIdx + 1) fis 0 (pieceRemaining - toRead) h

def checkPiece (l : Lengths) (fs : List FileInfo) (st : Storage) (ph : PieceHash H)
    (p : ValidPieceIndex l) : Except CheckError Bool :=
  match checkPieceLoop st (min readBuffer (l.pieceLength p)) 0 fs (p * l.defaultPieceLength)
      (l.pieceLength p) [] with
  | .error e => .error e
  | .ok h =>
    match ph.compareHash p h with
    | some b => .ok b
    | none => .error .noHash

/-! `initial_check` -/

structure CurrentFile where
  index : ℕ
  fi : FileInfo
  processedBytes : ℕ
  isBroken : Bool
  deriving DecidableEq, Repr

namespace CurrentFile

def remaining (f : CurrentFile) : ℕ := f.fi.len - f.processedBytes

def markProcessedBytes (f : CurrentFile) (n : ℕ) : CurrentFile :=
  { f with processedBytes := f.processedBytes + n }

end CurrentFile

/-- `file_iterator`. -/
def currentFiles (fs : List FileInfo) : List CurrentFile :=
  fs.zipIdx.map fun x => ⟨x.2, x.1, 0, false⟩

inductive InitialCheckError where
  /-- "empty input file list" -/
  | noFiles
  /-- "initial check cancelled" -/
  | cancelled
  /-- "broken torrent metadata" -/
  | brokenMetadata
  /-- "bug: either torrent info broken or we have a bug - piece index invalid" -/
  | noHash
  deriving DecidableEq, Repr

/-- What the loop over a piece changes: the current file, the file iterator, the hash of the
piece and `some_files_broken`. -/
structure Scan where
  currentFile : CurrentFile
  fileIterator : List CurrentFile
  computedHash : List UInt8
  someFilesBroken : Bool
  deriving DecidableEq, Repr

/-- Goes on to the next file until there is something to read in it. -/
def skipFiles (pieceRemaining : ℕ) :
    CurrentFile → List CurrentFile → Option (CurrentFile × List CurrentFile)
  | f, [] => if min f.remaining pieceRemaining = 0 then none else some (f, [])
  | f, g :: fs =>
    if min f.remaining pieceRemaining = 0 then skipFiles pieceRemaining g fs else some (f, g :: fs)

/-- One read of `toRead` bytes in the current file. After an error the hash is not looked at,
so it is left as it was. -/
def readInFile (st : Storage) (s : Scan) (toRead : ℕ) : Scan :=
  let f := s.currentFile
  if f.isBroken then { s with currentFile := f.markProcessedBytes toRead }
  else
    match updateHashFromFile st f.index f.fi readBuffer f.processedBytes toRead s.computedHash with
    | some h => { s with currentFile := f.markProcessedBytes toRead, computedHash := h }
    | none =>
      { s with
        currentFile := { f.markProcessedBytes toRead with isBroken := true }
        someFilesBroken := true }

/-- `while piece_remaining > 0`. Each round takes at least one byte of the piece. -/
def scanLoop (st : Storage) : ℕ → ℕ → Scan → Except InitialCheckError Scan
  | 0, pieceRemaining, s => if pieceRemaining = 0 then .ok s else .error .brokenMetadata
  | rounds + 1, pieceRemaining, s =>
    if pieceRemaining = 0 then .ok s
    else
      match skipFiles pieceRemaining s.currentFile s.fileIterator with
      | none => .error .brokenMetadata
      | some (f, fs) =>
        let toRead := min f.remaining pieceRemaining
        scanLoop st rounds (pieceRemaining - toRead)
          (readInFile st { s with currentFile := f, fileIterator := fs } toRead)

/-- The current file and the file iterator between two pieces, and `have_pieces`. -/
structure CheckState where
  currentFile : CurrentFile
  fileIterator : List CurrentFile
  havePieces : Bits
  deriving DecidableEq, Repr

/-- One round of the loop over the pieces. -/
def initialCheckPiece (st : Storage) (ph : PieceHash H) (cancelled : ℕ → Bool) (c : CheckState)
    (pi : PieceInfo) : Except InitialCheckError CheckState :=
  if cancelled pi.pieceIndex then .error .cancelled
  else
    match scanLoop st pi.len pi.len ⟨c.currentFile, c.fileIterator, [], false⟩ with
    | .error e => .error e
    | .ok s =>
      if s.someFilesBroken then .ok ⟨s.currentFile, s.fileIterator, c.havePieces⟩
      else
        match ph.compareHash pi.pieceIndex s.computedHash with
        | none => .error .noHash
        | some true => .ok ⟨s.currentFile, s.fileIterator, c.havePieces.set pi.pieceIndex true⟩
        | some false => .ok ⟨s.currentFile, s.fileIterator, c.havePieces⟩

/-- The pieces one after the other; `cancelled` tells at which the token is found cancelled. -/
def initialCheckLoop (st : Storage) (ph : PieceHash H) (cancelled : ℕ → Bool) :
    CheckState → List PieceInfo → Except InitialCheckError CheckState
  | c, [] => .ok c
  | c, pi :: pis =>
    match initialCheckPiece st ph cancelled c pi with
    | .error e => .error e
    | .ok c => initialCheckLoop st ph cancelled c pis

def initialCheck (l : Lengths) (fs : List FileInfo) (st : Storage) (ph : PieceHash H)
    (cancelled : ℕ → Bool) : Except InitialCheckError Bits :=
  match currentFiles fs with
  | [] => .error .noFiles
  | f :: files =>
    (initialCheckLoop st ph cancelled ⟨f, files, .zeros (l.pieceBitfieldBytes * 8)⟩
      l.iterPieceInfos).map CheckState.havePieces

end FileOps

end Rtbit
