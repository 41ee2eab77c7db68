import Rtbit.Spec.FileOps

/-! `TorrentStateInitializing::validate_fastresume`: which pieces of a stored bitfield are
checked on disk, and what becomes of the bitfield. The random choices are an argument. -/

namespace Rtbit

open Lib

/-- The outcomes of `rand`: how the queue is shuffled, and what `random_ratio(1, denom)` says
at the `i`-th piece of it. -/
structure Draws where
  shuffle : List ℕ → List ℕ
  randomRatio : ℕ → ℕ → Bool
  shuffle_perm : ∀ xs, (shuffle xs).Perm xs
  /-- A ratio of one is always drawn. -/
  randomRatio_one : ∀ i, randomRatio i 1 = true

inductive FastresumeError where
  /-- "fastresume validation cancelled" -/
  | cancelled
  deriving DecidableEq, Repr

namespace Fastresume

/-- The first piece of the file that the bitfield claims, if the bitfield has its range. -/
def firstClaimed (hp : Bits) (fi : FileInfo) : Option ℕ :=
  if hp.InRange fi.pieceRange.1 fi.pieceRange.2 then
    ((List.range' fi.pieceRange.1 (fi.pieceRange.2 - fi.pieceRange.1)).filter hp.get).head?
  else none

/-- `max_denom`; fifty if the session does not say. -/
def maxDenom (fastresumeValidationDenom : Option ℕ) : ℕ := fastresumeValidationDenom.getD 50

/-- The pieces drawn from the queue. -/
def drawn (draws : Draws) (cap : ℕ) (queue : List ℕ) : List ℕ :=
  ((draws.shuffle queue).zipIdx.filter fun x => draws.randomRatio x.2 (min (x.2 + 1) cap)).map
    Prod.fst

def toValidate (l : Lengths) (fs : List FileInfo) (denom : Option ℕ) (draws : Draws) (hp : Bits) :
    Bits :=
  let first := fs.filterMap (firstClaimed hp)
  let toValidate := first.foldl (fun b i => b.set i true) (.zeros (l.pieceBitfieldBytes * 8))
  let queue := first.foldl (fun b i => b.set i false) hp
  if 0 < maxDenom denom then
    (drawn draws (maxDenom denom) queue.ones).foldl (fun b i => b.set i true) toValidate
  else toValidate

/-- The pieces that are checked, in order. -/
def selected (l : Lengths) (fs : List FileInfo) (denom : Option ℕ) (draws : Draws) (hp : Bits) :
    List (ValidPieceIndex l) :=
  (toValidate l fs denom draws hp).ones.filterMap l.validatePieceIndex

/-- The loop over the selected pieces: `true` as soon as a check fails with an error. -/
def isBroken {α : Type} (check : α → Except FileOps.CheckError Bool) (cancelled : ℕ → Bool) :
    ℕ → List α → Except FastresumeError Bool
  | _, [] => .ok false
  | id, p :: ps =>
    if cancelled id then .error .cancelled
    else
      match check p with
      | .error _ => .ok true
      | .ok _ => isBroken check cancelled (id + 1) ps

end Fastresume

variable {H : Type} [DecidableEq H]

open Fastresume in
/-- The bitfield, or `none` if a full check has to follow. -/
def validateFastresume (l : Lengths) (fs : List FileInfo) (st : Storage) (ph : PieceHash H)
    (denom : Option ℕ) (draws : Draws) (cancelled : ℕ → Bool) (havePieces : Option Bits) :
    Except FastresumeError (Option Bits) :=
  match havePieces with
  | none => .ok none
  | some hp =>
    if hp.len ≠ l.pieceBitfieldBytes * 8 then .ok none
    else
      match isBroken (FileOps.checkPiece l fs st ph) cancelled 0 (selected l fs denom draws hp) with
      | .error e => .error e
      | .ok true => .ok none
      | .ok false => .ok (some hp)

end Rtbit
