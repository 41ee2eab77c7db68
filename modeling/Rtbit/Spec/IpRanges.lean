import Mathlib.Data.List.DropRight
import Rtbit.Spec.AddrText

/-! The lists of addresses (`ip_ranges.rs`). The interval tree is known by the ranges that it is
built from, and `queryPoint` is what it answers. -/

namespace Rtbit

namespace IpRanges

/-- `std::ops::Range`. -/
structure Range (w : ℕ) where
  start : BitVec w
  stop : BitVec w
  deriving DecidableEq, Repr

abbrev QueryPoint := ∀ {w : ℕ}, List (Range w) → BitVec w → List (Range w)

structure IntervalTreeWithSize (w : ℕ) where
  t : List (Range w)
  len : ℕ
  deriving DecidableEq, Repr

def intervalTree {w : ℕ} (ranges : List (Range w)) : IntervalTreeWithSize w :=
  ⟨ranges, ranges.length⟩

inductive IpRange where
  | v4 (r : Range 32)
  | v6 (r : Range 128)
  deriving DecidableEq, Repr

/-! Strings of the standard library. -/

/-- `char::is_whitespace`. -/
def isWhitespace (c : Char) : Bool :=
  (0x9 ≤ c.toNat && c.toNat ≤ 0xD) || c.toNat == 0x20 || c.toNat == 0x85 || c.toNat == 0xA0 ||
    c.toNat == 0x1680 || (0x2000 ≤ c.toNat && c.toNat ≤ 0x200A) || c.toNat == 0x2028 ||
    c.toNat == 0x2029 || c.toNat == 0x202F || c.toNat == 0x205F || c.toNat == 0x3000

def trim (s : List Char) : List Char := (s.dropWhile isWhitespace).rdropWhile isWhitespace

def splitOnce (c : Char) (s : List Char) : Option (List Char × List Char) :=
  match s.dropWhile (· ≠ c) with
  | [] => none
  | _ :: after => some (s.takeWhile (· ≠ c), after)

def rsplitOnce (c : Char) (s : List Char) : Option (List Char × List Char) :=
  (splitOnce c s.reverse).map fun (after, before) => (before.reverse, after.reverse)

/-- The lines that `read_line` returns, each with its newline. -/
def readLines : List Char → List (List Char)
  | [] => []
  | c :: cs =>
    if c = '\n' then [c] :: readLines cs
    else
      match readLines cs with
      | [] => [[c]]
      | line :: lines => (c :: line) :: lines

def saturatingAdd {w : ℕ} (a : BitVec w) (n : ℕ) : BitVec w :=
  BitVec.ofNat w (min (a.toNat + n) (2 ^ w - 1))

def isComment (line : List Char) : Bool := line.head? == some '#'

/-- The name and the addresses of a line. -/
def splitName (line : List Char) : Option (List Char × List Char) :=
  let isIpv6 := 2 < line.count ':'
  if isIpv6 then splitOnce ':' line else rsplitOnce ':' line

def parseIpRange (line : List Char) : Option IpRange := do
  let line := trim line
  if isComment line || line.isEmpty then none
  else
    let (_name, ips) ← splitName line
    let (start, stop) ← splitOnce '-' ips
    match ← AddrText.fromStr start, ← AddrText.fromStr stop with
    | .v4 start, .v4 stop => some (.v4 ⟨start, saturatingAdd stop 1⟩)
    | .v6 start, .v6 stop => some (.v6 ⟨start, saturatingAdd stop 1⟩)
    | _, _ => none

end IpRanges

open IpRanges

structure IpRanges where
  v4 : IntervalTreeWithSize 32
  v6 : IntervalTreeWithSize 128
  deriving DecidableEq, Repr

namespace IpRanges

def new (v4Ranges : List (Range 32)) (v6Ranges : List (Range 128)) : IpRanges :=
  ⟨intervalTree v4Ranges, intervalTree v6Ranges⟩

def len (r : IpRanges) : ℕ := r.v4.len + r.v6.len

/-- The loop of `create_from_decoded_stream`. -/
def collect : List (List Char) → List (Range 32) → List (Range 128) → IpRanges
  | [], v4, v6 => new v4 v6
  | line :: lines, v4, v6 =>
    match parseIpRange line with
    | some (.v4 r) => collect lines (v4 ++ [r]) v6
    | some (.v6 r) => collect lines v4 (v6 ++ [r])
    | none => collect lines v4 v6

def createFromDecodedStream (text : List Char) : IpRanges := collect (readLines text) [] []

def has (queryPoint : QueryPoint) (r : IpRanges) : IpAddr → Bool
  | .v4 a => !(queryPoint r.v4.t a).isEmpty
  | .v6 a => !(queryPoint r.v6.t a).isEmpty

end IpRanges

end Rtbit
