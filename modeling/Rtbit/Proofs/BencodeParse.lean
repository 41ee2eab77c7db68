import Rtbit.Sanity.BencodeParse

/-! The encoding of a value is read to its end, whatever follows, so that a strict prefix of it is no
complete value: it is refused, unless it is cut between two items. -/

namespace Rtbit.BencodeParse

open Lib

variable {N : Type} {js : Engine N} {data p q : List UInt8} {o' : ℕ} {v : BencodeValue N}

/-! What an encoding is read as. -/

theorem isString_encodeString (bytes : List UInt8) : IsString (encodeString bytes) bytes :=
  ⟨decimal bytes.length, decimal_ne_nil _, fun _ => isDigit_of_mem_decimal,
    ofDecimal_decimal _, rfl⟩

theorem not_mem_decimal (n : ℕ) : 0x65 ∉ decimal n :=
  fun h => absurd (isDigit_of_mem_decimal h) (by decide)

theorem not_mem_intText (n : ℤ) : 0x65 ∉ intText n := by
  cases n with
  | ofNat n => exact not_mem_decimal n
  | negSucc n =>
    intro h
    rcases List.mem_cons.1 h with he | h
    · cases he
    · exact not_mem_decimal _ h

def BencodeDict.assignAll (d : BencodeDict (BencodeValue N))
    (entries : List (String × BencodeValue N)) : BencodeDict (BencodeValue N) :=
  entries.foldl (fun d e => d.assign e.1 e.2) d

namespace Bencode

variable (js)

mutual

/-- What the assignments leave of a value. -/
def built : Bencode → BencodeValue N
  | .string bytes => .string (js.decode bytes)
  | .int n => .number (js.parseInt (js.decode (intText n)))
  | .list items => .list (builtItems items)
  | .dict entries => .dict (BencodeDict.empty.assignAll (builtEntries entries))

def builtItems : List Bencode → List (BencodeValue N)
  | [] => []
  | v :: vs => v.built :: builtItems vs

def builtEntries : List (List UInt8 × Bencode) → List (String × BencodeValue N)
  | [] => []
  | (k, v) :: es => (js.decode k, v.built) :: builtEntries es

end

mutual

theorem reads_encode : ∀ v : Bencode, Reads js (.value (v.built js)) v.encode
  | .string bytes => .string (isString_encodeString bytes)
  | .int n => .int (not_mem_intText n)
  | .list items => .list (reads_encodeItems items [] [] .noItems)
  | .dict entries => .dict (reads_encodeEntries entries .empty [] .noEntries)

theorem reads_encodeItems : ∀ (vs : List Bencode) (us : List (BencodeValue N)) (p : List UInt8),
    Reads js (.items us) p → Reads js (.items (us ++ builtItems js vs)) (p ++ encodeItems vs)
  | [], us, p, h => by
    rw [builtItems, encodeItems, List.append_nil, List.append_nil]
    exact h
  | v :: vs, us, p, h => by
    have hnext := reads_encodeItems vs _ _ (.item h (reads_encode v))
    rw [List.append_assoc, List.append_assoc] at hnext
    exact hnext

theorem reads_encodeEntries : ∀ (es : List (List UInt8 × Bencode))
    (d : BencodeDict (BencodeValue N)) (p : List UInt8), Reads js (.entries d) p →
      Reads js (.entries (d.assignAll (builtEntries js es))) (p ++ encodeEntries es)
  | [], d, p, h => by
    rw [encodeEntries, List.append_nil]
    exact h
  | (k, v) :: es, d, p, h => by
    have hnext := reads_encodeEntries es _ _ (.entry h (isString_encodeString k) (reads_encode v))
    rw [List.append_assoc, List.append_assoc, ← List.append_assoc (encodeString k)] at hnext
    exact hnext

end

end Bencode

/-! What the assignments change. -/

namespace BencodeDict

variable {d : BencodeDict (BencodeValue N)} {key : String} {entries : List (String × BencodeValue N)}

def keys (d : BencodeDict (BencodeValue N)) : List String := d.entries.map Prod.fst

/-- The properties of an object are named once, and none as the inherited setter. -/
def Named (d : BencodeDict (BencodeValue N)) : Prop := d.keys.Nodup ∧ "__proto__" ∉ d.keys

theorem named_assign (hd : d.Named) : (d.assign key v).Named := by
  obtain ⟨hnodup, hproto⟩ := hd
  unfold assign
  split_ifs with hp hmem
  · split <;> exact ⟨hnodup, hproto⟩
  · have hkeys : (d.entries.map fun e => if e.1 = key then (key, v) else e).map Prod.fst =
        d.entries.map Prod.fst := by
      rw [List.map_map]
      refine List.map_congr_left fun e _ => ?_
      by_cases he : e.1 = key <;> simp [he]
    rw [Named, keys, hkeys]
    exact ⟨hnodup, hproto⟩
  · rw [Named, keys, List.map_append]
    refine ⟨hnodup.append (List.nodup_singleton key) ?_, ?_⟩
    · simpa [keys] using hmem
    · simpa [keys] using ⟨by simpa [keys] using hproto, fun he => hp he.symm⟩

theorem named_assignAll (hd : d.Named) : (d.assignAll entries).Named := by
  induction entries generalizing d with
  | nil => exact hd
  | cons e es ih => exact ih (named_assign hd)

/-- Assignments to new names add an entry each. -/
theorem assignAll_eq (hnodup : (entries.map Prod.fst).Nodup)
    (hproto : "__proto__" ∉ entries.map Prod.fst) (hnew : d.keys.Disjoint (entries.map Prod.fst)) :
    d.assignAll entries = ⟨d.proto, d.entries ++ entries⟩ := by
  induction entries generalizing d with
  | nil => simp [assignAll]
  | cons e es ih =>
    rw [List.map_cons, List.nodup_cons] at hnodup
    rw [List.map_cons, List.mem_cons, not_or] at hproto
    rw [List.map_cons, List.disjoint_cons_right] at hnew
    have hassign : d.assign e.1 e.2 = ⟨d.proto, d.entries ++ [e]⟩ := by
      unfold assign
      rw [if_neg (Ne.symm hproto.1), if_neg (show e.1 ∉ d.entries.map Prod.fst from hnew.1)]
    have hrest : (d.assign e.1 e.2).keys.Disjoint (es.map Prod.fst) := by
      rw [hassign, keys, List.map_append, List.disjoint_append_left]
      exact ⟨hnew.2, by simpa using hnodup.1⟩
    calc d.assignAll (e :: es) = (d.assign e.1 e.2).assignAll es := rfl
      _ = ⟨d.proto, d.entries ++ (e :: es)⟩ := by
        rw [ih hnodup.2 hproto.2 hrest, hassign, List.append_assoc]
        rfl

/-- An object made by assignments has entries for the keys just when these are names of their own. -/
theorem assignAll_empty_iff {entries' : List (String × BencodeValue N)}
    (hkeys : entries.map Prod.fst = entries'.map Prod.fst) :
    empty.assignAll entries = ⟨none, entries'⟩ ↔
      ((entries.map Prod.fst).Nodup ∧ "__proto__" ∉ entries.map Prod.fst) ∧ entries = entries' := by
  have hempty : (empty : BencodeDict (BencodeValue N)).Named := by simp [Named, keys, empty]
  have hdisjoint : (empty : BencodeDict (BencodeValue N)).keys.Disjoint (entries.map Prod.fst) := by
    simp [keys, empty]
  constructor
  · intro h
    have hnamed : (empty.assignAll entries).Named := named_assignAll hempty
    rw [h, Named, keys, ← hkeys] at hnamed
    rw [assignAll_eq hnamed.1 hnamed.2 hdisjoint] at h
    exact ⟨hnamed, (BencodeDict.mk.inj h).2⟩
  · rintro ⟨⟨hnodup, hproto⟩, rfl⟩
    exact assignAll_eq hnodup hproto hdisjoint

end BencodeDict

namespace Bencode

theorem map_fst_builtEntries (es : List (List UInt8 × Bencode)) :
    (builtEntries js es).map Prod.fst = keys js es := by
  induction es with
  | nil => rfl
  | cons e es ih => exact congrArg (js.decode e.1 :: ·) ih

theorem map_fst_shapeEntries (es : List (List UInt8 × Bencode)) :
    (shapeEntries js es).map Prod.fst = keys js es := by
  induction es with
  | nil => rfl
  | cons e es ih => exact congrArg (js.decode e.1 :: ·) ih

variable (js)

mutual

theorem built_eq_shape_iff : ∀ v : Bencode, v.built js = v.shape js ↔ v.Faithful js
  | .string _ => ⟨fun _ => trivial, fun _ => rfl⟩
  | .int _ => ⟨fun _ => trivial, fun _ => rfl⟩
  | .list items => by
    rw [built, shape, Faithful, BencodeValue.list.injEq]
    exact builtItems_eq_iff items
  | .dict entries => by
    have hkeys : (builtEntries js entries).map Prod.fst = (shapeEntries js entries).map Prod.fst :=
      (map_fst_builtEntries entries).trans (map_fst_shapeEntries entries).symm
    rw [built, shape, Faithful, BencodeValue.dict.injEq, BencodeDict.assignAll_empty_iff hkeys,
      map_fst_builtEntries, builtEntries_eq_iff entries]

theorem builtItems_eq_iff : ∀ vs : List Bencode,
    builtItems js vs = shapeItems js vs ↔ FaithfulItems js vs
  | [] => ⟨fun _ => trivial, fun _ => rfl⟩
  | v :: vs => by
    rw [builtItems, shapeItems, FaithfulItems, List.cons.injEq, built_eq_shape_iff v,
      builtItems_eq_iff vs]

theorem builtEntries_eq_iff : ∀ es : List (List UInt8 × Bencode),
    builtEntries js es = shapeEntries js es ↔ FaithfulEntries js es
  | [] => ⟨fun _ => trivial, fun _ => rfl⟩
  | (k, v) :: es => by
    rw [builtEntries, shapeEntries, FaithfulEntries, List.cons.injEq, Prod.mk.injEq,
      built_eq_shape_iff v, builtEntries_eq_iff es, eq_self_iff_true, true_and]

end

end Bencode

/-! The three parts. -/

/-- An encoding is read to its end, whatever follows. -/
theorem decode_encode (js : Engine N) (v : Bencode) (rest : List UInt8) :
    decode js (v.encode ++ rest) = some (some (v.built js, v.encode.length)) := by
  obtain ⟨fuel, hfuel⟩ := readBy_of_reads (v.reads_encode js) 0 (List.prefix_append v.encode rest)
  rw [Nat.zero_add] at hfuel
  exact decode_eq hfuel

/-- A parse ends beyond its data just when this is cut between two items. -/
theorem beyond_iff_cut :
    (∃ v o', decode js data = some (some (v, o')) ∧ data.length < o') ↔ CutBetween js data := by
  constructor
  · rintro ⟨v, o', h, hbeyond⟩
    rcases met_of_decodeValue h with ⟨p, hp, hread, rfl⟩ | ⟨-, hcut⟩
    · have hle := le_length_prefix_drop hread hp.ne_nil
      omega
    · exact hcut
  · intro hcut
    have hread : data <+: data.drop 0 := List.prefix_rfl
    obtain ⟨fuel, v, o', hfuel, hbeyond⟩ := beyond_of_cut hcut hread (by omega)
    exact ⟨v, o', decode_eq hfuel, hbeyond⟩

/-- A value that is read within a prefix of an encoding is all of the encoding. -/
theorem eq_encode_of_reads {w : Bencode} (hp : Reads js (.value v) p) (hpre : p <+: w.encode) :
    p.length = w.encode.length := by
  obtain ⟨fuel, hfuel⟩ := readBy_of_reads hp 0 hpre
  have hall := decode_encode js w []
  rw [List.append_nil, decode_eq hfuel, Nat.zero_add] at hall
  exact (Prod.mk.inj (Option.some.inj (Option.some.inj hall))).2

theorem reads_back_iff (js : Engine N) (v : Bencode) (rest : List UInt8) :
    decode js (v.encode ++ rest) = some (some (v.shape js, v.encode.length)) ↔ v.Faithful js := by
  rw [decode_encode, Option.some_inj, Option.some_inj, Prod.mk.injEq, v.built_eq_shape_iff js]
  exact and_iff_left rfl

theorem refuses_prefix_iff {w : Bencode} (hpre : q <+: w.encode) (hne : q ≠ w.encode) :
    decode js q = some none ↔ ¬ CutBetween js q := by
  rw [← beyond_iff_cut]
  constructor
  · rintro hnull ⟨v, o', h, -⟩
    rw [hnull] at h
    cases h
  · intro hwithin
    obtain ⟨r, hr⟩ := decode_isSome js q
    rcases r with _ | ⟨v, o'⟩
    · exact hr
    · exfalso
      rcases met_of_decodeValue hr with ⟨p, hp, hread, rfl⟩ | ⟨hbeyond, -⟩
      · have hwhole := eq_encode_of_reads hp (hread.trans hpre)
        exact hne (hpre.eq_of_length_le (hwhole ▸ hread.length_le))
      · exact hwithin ⟨v, o', hr, hbeyond⟩

theorem within_iff : (∀ v o, decode js data = some (some (v, o)) → o ≤ data.length) ↔
    ¬ CutBetween js data := by
  rw [← beyond_iff_cut]
  push Not
  rfl

/-- An encoding is read back just when the keys of its dictionaries are names of their own. A strict
prefix of one is refused, and no offset is beyond the data, just when the data is not cut between two
items of an open container. -/
theorem parses_iff_uncut (js : Engine N) :
    (∀ (v : Bencode) (rest : List UInt8),
      decode js (v.encode ++ rest) = some (some (v.shape js, v.encode.length)) ↔ v.Faithful js) ∧
    (∀ (v : Bencode) (q : List UInt8), q <+: v.encode → q ≠ v.encode →
      (decode js q = some none ↔ ¬ CutBetween js q)) ∧
    ∀ data : List UInt8, (∃ r, decode js data = some r) ∧
      ((∀ v o, decode js data = some (some (v, o)) → o ≤ data.length) ↔ ¬ CutBetween js data) :=
  ⟨reads_back_iff js, fun _ _ => refuses_prefix_iff, fun data => ⟨decode_isSome js data, within_iff⟩⟩

/-- An engine on ASCII text. -/
def ascii : Engine ℤ where
  decode bytes := String.ofList (bytes.map fun b => Char.ofNat b.toNat)
  parseInt text := text.toInt?.getD 0

/-- `__proto__`. -/
def protoKey : List UInt8 := [0x5f, 0x5f, 0x70, 0x72, 0x6f, 0x74, 0x6f, 0x5f, 0x5f]

/-- `i7` is refused. -/
theorem cutInt_refused : decode ascii [0x69, 0x37] = some none := by
  refine ((parses_iff_uncut ascii).2.1 (.int 7) [0x69, 0x37] (by decide) (by decide)).2 fun h => ?_
  cases h

/-- `l` is a list that ends beyond the data, and a strict prefix of `le`. An entry for `__proto__` is
not one of the object. -/
theorem cutList_read : decode ascii [0x6c] = some (some (.list [], 2)) ∧
    [0x6c] <+: (Bencode.list []).encode ∧ [0x6c] ≠ (Bencode.list []).encode ∧
    [(0x6c : UInt8)].length < 2 ∧
    decode ascii (Bencode.dict [(protoKey, .list [])]).encode =
      some (some (.dict ⟨some (.list []), []⟩, 15)) :=
  ⟨rfl, by decide, by decide, by decide, rfl⟩

end Rtbit.BencodeParse
