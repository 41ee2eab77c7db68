import Rtbit.Lib.Readers
import Rtbit.Spec.Types

/-! `IpAddr::from_str` of the standard library (`core::net::parser`). -/

namespace Rtbit

open Lib

namespace AddrText

def readChar : Reader Char
  | [] => none
  | c :: cs => some (c, cs)

def readGivenChar (given : Char) : Reader Unit := do
  let c ← readChar
  if c = given then pure () else failure

/-- The separator stands before every element but the first. -/
def readSeparator {α : Type} (sep : Char) (index : ℕ) (inner : Reader α) : Reader α := do
  if 0 < index then readGivenChar sep
  inner

/-- `char::to_digit`. -/
def toDigit (radix : ℕ) (c : Char) : Option ℕ :=
  let d := if c.isDigit then c.toNat - '0'.toNat
    else if 'a' ≤ c ∧ c ≤ 'z' then c.toNat - 'a'.toNat + 10
    else if 'A' ≤ c ∧ c ≤ 'Z' then c.toNat - 'A'.toNat + 10
    else radix
  if d < radix then some d else none

/-- The loop of `read_number`: how many digits there are, and their value. -/
def readDigits (radix maxDigits : ℕ) : ℕ → ℕ → Reader (ℕ × ℕ)
  | digitCount, result, [] => some ((digitCount, result), [])
  | digitCount, result, c :: cs =>
    match toDigit radix c with
    | none => some ((digitCount, result), c :: cs)
    | some digit =>
      if maxDigits < digitCount + 1 then none
      else readDigits radix maxDigits (digitCount + 1) (result * radix + digit) cs

/-- `read_number`, of an unsigned integer of `bits` bits. -/
def readNumber (bits radix maxDigits : ℕ) (allowZeroPrefix : Bool) : Reader ℕ := fun s => do
  let hasLeadingZero := s.head? == some '0'
  let ((digitCount, result), s) ← readDigits radix maxDigits 0 0 s
  if digitCount = 0 then none
  else if !allowZeroPrefix && hasLeadingZero && decide (1 < digitCount) then none
  else if result < 2 ^ bits then some (result, s)
  else none

/-- The groups of an address, the first one on top. -/
def ofGroups (w bits : ℕ) (groups : List ℕ) : BitVec w :=
  BitVec.ofNat w (groups.foldl (fun a g => a * 2 ^ bits + g) 0)

def readOctet (i : ℕ) : Reader ℕ := readSeparator '.' i (readNumber 8 10 3 false)

def readIpv4Addr : Reader (BitVec 32) := do
  let a ← readOctet 0
  let b ← readOctet 1
  let c ← readOctet 2
  let d ← readOctet 3
  pure (ofGroups 32 8 [a, b, c, d])

/-- `read_groups`, with room for so many groups behind those that have been read, and whether they
end in an embedded IPv4 address. -/
def readGroups : ℕ → List ℕ → Reader (List ℕ × Bool)
  | 0, groups => pure (groups, false)
  | room + 1, groups =>
    -- at least two groups have to be left
    (do
      if 0 < room then
        let v4 ← readSeparator ':' groups.length readIpv4Addr
        pure (groups ++ [v4.toNat / 2 ^ 16, v4.toNat % 2 ^ 16], true)
      else failure) <|>
    (do
      let g ← readSeparator ':' groups.length (readNumber 16 16 4 true)
      readGroups room (groups ++ [g])) <|>
    pure (groups, false)

def readIpv6Addr : Reader (BitVec 128) := do
  let (head, headIpv4) ← readGroups 8 []
  if head.length = 8 then pure (ofGroups 128 16 head)
  else if headIpv4 then failure
  else
    readGivenChar ':'
    readGivenChar ':'
    let (tail, _) ← readGroups (8 - (head.length + 1)) []
    pure (ofGroups 128 16 (head ++ List.replicate (8 - head.length - tail.length) 0 ++ tail))

def readIpAddr : Reader IpAddr :=
  (do
    let a ← readIpv4Addr
    pure (.v4 a)) <|>
  (do
    let a ← readIpv6Addr
    pure (.v6 a))

/-- `IpAddr::from_str`. -/
def fromStr (s : List Char) : Option IpAddr := readIpAddr.parseWith s

end AddrText

end Rtbit
