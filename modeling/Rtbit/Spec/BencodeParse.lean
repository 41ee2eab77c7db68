import Rtbit.Lib.Decimal
import Rtbit.Lib.Scan

/-! The bencode parser of the web UI. A parse returns `null`, or a value and the offset after it. -/

namespace Rtbit.BencodeParse

open Lib

/-- An object by its own properties in the order they were made, and its prototype where that was
set. -/
structure BencodeDict (V : Type) where
  proto : Option V
  entries : List (String × V)

inductive BencodeValue (N : Type) where
  | string (s : String)
  | number (n : N)
  | list (items : List (BencodeValue N))
  | dict (d : BencodeDict (BencodeValue N))

/-- The text decoder and the integer parser of the engine, over the engine's numbers. -/
structure Engine (N : Type) where
  decode : List UInt8 → String
  parseInt : String → N

variable {N : Type}

def BencodeDict.empty : BencodeDict (BencodeValue N) := ⟨none, []⟩

/-- `dict[key] = value`. Every object inherits a setter for `__proto__`, which takes objects only. -/
def BencodeDict.assign (d : BencodeDict (BencodeValue N)) (key : String) (value : BencodeValue N) :
    BencodeDict (BencodeValue N) :=
  if key = "__proto__" then
    match value with
    | .list _ | .dict _ => ⟨some value, d.entries⟩
    | .string _ | .number _ => d
  else if key ∈ d.entries.map Prod.fst then
    ⟨d.proto, d.entries.map fun e => if e.1 = key then (key, value) else e⟩
  else ⟨d.proto, d.entries ++ [(key, value)]⟩

section

variable (js : Engine N) (data : List UInt8)

/-- The length is compared as an exact number: a double that a length is rounded to is beyond the
data whenever the length is. -/
def decodeString (offset : ℕ) : Option (String × ℕ) :=
  let i := skipWhile isDigit data offset
  if i = offset ∨ data[i]? ≠ some 0x3a then none
  else
    let len := ofDecimal (data.extract offset i)
    if data.length < i + 1 + len then none
    else some (js.decode (data.extract (i + 1) (i + 1 + len)), i + 1 + len)

def decodeInt (offset : ℕ) : Option (N × ℕ) :=
  if data[offset]? ≠ some 0x69 then none
  else
    let i := skipWhile (· != 0x65) data (offset + 1)
    if data.length ≤ i then none
    else some (js.parseInt (js.decode (data.extract (offset + 1) i)), i + 1)

mutual

/-- `none` when the fuel is used up, `some none` for `null`. -/
def decodeValue : ℕ → ℕ → Option (Option (BencodeValue N × ℕ))
  | 0, _ => none
  | fuel + 1, offset =>
    match data[offset]? with
    | none => some none
    | some ch =>
      if isDigit ch then some ((decodeString js data offset).map fun r => (.string r.1, r.2))
      else if ch = 0x69 then some ((decodeInt js data offset).map fun r => (.number r.1, r.2))
      else if ch = 0x6c then listLoop fuel [] (offset + 1)
      else if ch = 0x64 then dictLoop fuel .empty (offset + 1)
      else some none

def listLoop : ℕ → List (BencodeValue N) → ℕ → Option (Option (BencodeValue N × ℕ))
  | 0, _, _ => none
  | fuel + 1, list, i =>
    if i < data.length ∧ data[i]? ≠ some 0x65 then
      match decodeValue fuel i with
      | none => none
      | some none => some none
      | some (some (v, j)) => listLoop fuel (list ++ [v]) j
    else some (some (.list list, i + 1))

def dictLoop : ℕ → BencodeDict (BencodeValue N) → ℕ → Option (Option (BencodeValue N × ℕ))
  | 0, _, _ => none
  | fuel + 1, dict, i =>
    if i < data.length ∧ data[i]? ≠ some 0x65 then
      match decodeString js data i with
      | none => some none
      | some (key, nextOffset) =>
        match decodeValue fuel nextOffset with
        | none => none
        | some none => some none
        | some (some (v, j)) => dictLoop fuel (dict.assign key v) j
    else some (some (.dict dict, i + 1))

end

/-- `decodeValue(data, 0)`. Every value and every end of a container takes a byte. -/
def decode : Option (Option (BencodeValue N × ℕ)) := decodeValue js data (2 * data.length + 1) 0

end

/-! What is parsed: the values of the format, their encodings, and what an encoding stands for. -/

inductive Bencode where
  | string (bytes : List UInt8)
  | int (n : ℤ)
  | list (items : List Bencode)
  | dict (entries : List (List UInt8 × Bencode))

def encodeString (bytes : List UInt8) : List UInt8 := decimal bytes.length ++ 0x3a :: bytes

def intText : ℤ → List UInt8
  | .ofNat n => decimal n
  | .negSucc n => 0x2d :: decimal (n + 1)

namespace Bencode

mutual

def encode : Bencode → List UInt8
  | .string bytes => encodeString bytes
  | .int n => 0x69 :: intText n ++ [0x65]
  | .list items => 0x6c :: encodeItems items ++ [0x65]
  | .dict entries => 0x64 :: encodeEntries entries ++ [0x65]

def encodeItems : List Bencode → List UInt8
  | [] => []
  | v :: vs => v.encode ++ encodeItems vs

def encodeEntries : List (List UInt8 × Bencode) → List UInt8
  | [] => []
  | (k, v) :: es => encodeString k ++ v.encode ++ encodeEntries es

end

variable (js : Engine N)

mutual

/-- The structure of a value: every entry of a dictionary is one of the object. -/
def shape : Bencode → BencodeValue N
  | .string bytes => .string (js.decode bytes)
  | .int n => .number (js.parseInt (js.decode (intText n)))
  | .list items => .list (shapeItems items)
  | .dict entries => .dict ⟨none, shapeEntries entries⟩

def shapeItems : List Bencode → List (BencodeValue N)
  | [] => []
  | v :: vs => v.shape :: shapeItems vs

def shapeEntries : List (List UInt8 × Bencode) → List (String × BencodeValue N)
  | [] => []
  | (k, v) :: es => (js.decode k, v.shape) :: shapeEntries es

end

def keys (entries : List (List UInt8 × Bencode)) : List String :=
  entries.map fun e => js.decode e.1

mutual

/-- In every dictionary the keys have texts of their own, and none is the inherited setter. -/
def Faithful : Bencode → Prop
  | .string _ | .int _ => True
  | .list items => FaithfulItems items
  | .dict entries =>
    ((keys js entries).Nodup ∧ "__proto__" ∉ keys js entries) ∧ FaithfulEntries entries

def FaithfulItems : List Bencode → Prop
  | [] => True
  | v :: vs => v.Faithful ∧ FaithfulItems vs

def FaithfulEntries : List (List UInt8 × Bencode) → Prop
  | [] => True
  | (_, v) :: es => v.Faithful ∧ FaithfulEntries es

end

end Bencode

/-! The grammar. -/

/-- A value, or the items or entries of a container that is still open. -/
inductive Part (N : Type) where
  | value (v : BencodeValue N)
  | items (vs : List (BencodeValue N))
  | entries (d : BencodeDict (BencodeValue N))

/-- Digits, a colon and as many bytes as the digits say. -/
def IsString (p bytes : List UInt8) : Prop :=
  ∃ digits, digits ≠ [] ∧ (∀ d ∈ digits, isDigit d) ∧ ofDecimal digits = bytes.length ∧
    p = digits ++ 0x3a :: bytes

/-- Complete parts, each with what it stands for. -/
inductive Reads (js : Engine N) : Part N → List UInt8 → Prop where
  | string {p bytes : List UInt8} (h : IsString p bytes) :
    Reads js (.value (.string (js.decode bytes))) p
  | int {body : List UInt8} (h : 0x65 ∉ body) :
    Reads js (.value (.number (js.parseInt (js.decode body)))) (0x69 :: body ++ [0x65])
  | list {vs : List (BencodeValue N)} {p : List UInt8} (h : Reads js (.items vs) p) :
    Reads js (.value (.list vs)) (0x6c :: p ++ [0x65])
  | dict {d : BencodeDict (BencodeValue N)} {p : List UInt8} (h : Reads js (.entries d) p) :
    Reads js (.value (.dict d)) (0x64 :: p ++ [0x65])
  | noItems : Reads js (.items []) []
  | item {vs : List (BencodeValue N)} {v : BencodeValue N} {p q : List UInt8}
    (h : Reads js (.items vs) p) (hv : Reads js (.value v) q) :
    Reads js (.items (vs ++ [v])) (p ++ q)
  | noEntries : Reads js (.entries .empty) []
  | entry {d : BencodeDict (BencodeValue N)} {v : BencodeValue N} {p k bytes q : List UInt8}
    (h : Reads js (.entries d) p) (hk : IsString k bytes) (hv : Reads js (.value v) q) :
    Reads js (.entries (d.assign (js.decode bytes) v)) (p ++ k ++ q)

/-- The data ends inside a container, after a whole item or entry: the innermost container that is
open holds complete ones only, and so does each around it up to the one inside. -/
inductive CutBetween (js : Engine N) : List UInt8 → Prop where
  | list {vs : List (BencodeValue N)} {p : List UInt8} (h : Reads js (.items vs) p) :
    CutBetween js (0x6c :: p)
  | dict {d : BencodeDict (BencodeValue N)} {p : List UInt8} (h : Reads js (.entries d) p) :
    CutBetween js (0x64 :: p)
  | inList {vs : List (BencodeValue N)} {p q : List UInt8} (h : Reads js (.items vs) p)
    (hq : CutBetween js q) : CutBetween js (0x6c :: p ++ q)
  | inDict {d : BencodeDict (BencodeValue N)} {p k bytes q : List UInt8}
    (h : Reads js (.entries d) p) (hk : IsString k bytes) (hq : CutBetween js q) :
    CutBetween js (0x64 :: p ++ k ++ q)

end Rtbit.BencodeParse
