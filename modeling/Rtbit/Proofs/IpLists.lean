import Rtbit.Sanity.AddrText
import Rtbit.Spec.IpRanges

/-! Which addresses a list blocks. A line of addresses of one family is split where it should be as
long as its name has at most one colon (IPv4) or none (IPv6); and the range that ends at the last
address ends before it. -/

namespace Rtbit

open AddrText

namespace IpRanges

/-- What `intervaltree` says of `query_point`. -/
def QueryPointFinds (queryPoint : QueryPoint) : Prop :=
  ∀ (w : ℕ) (ranges : List (Range w)) (p : BitVec w) (r : Range w),
    r ∈ queryPoint ranges p ↔ r ∈ ranges ∧ r.start ≤ p ∧ p < r.stop

/-- `ip` is of the family of both, and between them. -/
def Between : IpAddr → IpAddr → IpAddr → Prop
  | .v4 start, .v4 stop, .v4 ip => start ≤ ip ∧ ip ≤ stop
  | .v6 start, .v6 stop, .v6 ip => start ≤ ip ∧ ip ≤ stop
  | _, _, _ => False

theorem between_v4 {a b : IpAddr} {p : BitVec 32} (h : Between a b (.v4 p)) :
    ∃ start stop, a = .v4 start ∧ b = .v4 stop ∧ start ≤ p ∧ p ≤ stop := by
  cases a <;> cases b <;> first | exact ⟨_, _, rfl, rfl, h⟩ | exact h.elim

theorem between_v6 {a b : IpAddr} {p : BitVec 128} (h : Between a b (.v6 p)) :
    ∃ start stop, a = .v6 start ∧ b = .v6 stop ∧ start ≤ p ∧ p ≤ stop := by
  cases a <;> cases b <;> first | exact ⟨_, _, rfl, rfl, h⟩ | exact h.elim

/-- The line is `name:start-end`. -/
def HasForm (line name start stop : List Char) : Prop :=
  line = name ++ ':' :: (start ++ '-' :: stop)

instance (line name start stop : List Char) : Decidable (HasForm line name start stop) :=
  inferInstanceAs (Decidable (_ = _))

/-- A name and a range that has `ip`. -/
def Offers (line name : List Char) (ip : IpAddr) : Prop :=
  ∃ start stop a b, HasForm line name start stop ∧ fromStr start = some a ∧
    fromStr stop = some b ∧ Between a b ip

/-- Some line that is not a comment has a range that has `ip`, under a name that is as `P` says. -/
def ListedUnder (P : List Char → Prop) (text : List Char) (ip : IpAddr) : Prop :=
  ∃ line ∈ readLines text, isComment (trim line) = false ∧
    ∃ name, P name ∧ Offers (trim line) name ip

def Listed (text : List Char) (ip : IpAddr) : Prop := ListedUnder (fun _ => True) text ip

/-- The name has no colon, or one if the addresses have none. -/
def PlainName : IpAddr → List Char → Prop
  | .v4 _, name => name.count ':' ≤ 1
  | .v6 _, name => name.count ':' = 0

/-- The last address of its family. -/
def IsLast : IpAddr → Prop
  | .v4 a => a = BitVec.allOnes 32
  | .v6 a => a = BitVec.allOnes 128

/-! Splitting. -/

section

variable {c : Char} {s a b : List Char}

theorem splitOnce_eq_some : splitOnce c s = some (a, b) ↔ s = a ++ c :: b ∧ c ∉ a := by
  induction s generalizing a with
  | nil =>
    refine ⟨?_, ?_⟩
    · rintro ⟨⟩
    · rintro ⟨h, -⟩
      simp at h
  | cons x xs ih =>
    by_cases hx : x = c
    · subst hx
      have hsplit : splitOnce x (x :: xs) = some ([], xs) := by simp [splitOnce]
      rw [hsplit]
      refine ⟨?_, ?_⟩
      · rintro ⟨⟩
        exact ⟨rfl, nofun⟩
      · rintro ⟨h, hnot⟩
        cases a with
        | nil =>
          obtain rfl := (List.cons.inj h).2
          rfl
        | cons y ys =>
          obtain rfl := (List.cons.inj h).1
          exact absurd (List.mem_cons_self ..) hnot
    · have hsplit : splitOnce c (x :: xs) = (splitOnce c xs).map fun r => (x :: r.1, r.2) := by
        unfold splitOnce
        rw [List.dropWhile_cons_of_pos (by simpa using hx),
          List.takeWhile_cons_of_pos (by simpa using hx)]
        split <;> rfl
      rw [hsplit, Option.map_eq_some_iff]
      refine ⟨?_, ?_⟩
      · rintro ⟨⟨a', b'⟩, h, ⟨⟩⟩
        obtain ⟨rfl, hnot⟩ := ih.1 h
        exact ⟨rfl, fun hmem => (List.mem_cons.1 hmem).elim (fun he => hx he.symm) hnot⟩
      · rintro ⟨h, hnot⟩
        cases a with
        | nil => exact absurd (List.cons.inj h).1 hx
        | cons y ys =>
          obtain ⟨rfl, rfl⟩ := List.cons.inj h
          exact ⟨(ys, b), ih.2 ⟨rfl, fun hmem => hnot (List.mem_cons_of_mem _ hmem)⟩, rfl⟩

theorem rsplitOnce_eq_some : rsplitOnce c s = some (a, b) ↔ s = a ++ c :: b ∧ c ∉ b := by
  rw [rsplitOnce, Option.map_eq_some_iff]
  refine ⟨?_, ?_⟩
  · rintro ⟨⟨after, before⟩, h, ⟨⟩⟩
    obtain ⟨hs, hnot⟩ := splitOnce_eq_some.1 h
    refine ⟨?_, by rwa [List.mem_reverse]⟩
    rw [← List.reverse_reverse s, hs]
    simp
  · rintro ⟨rfl, hnot⟩
    refine ⟨(b.reverse, a.reverse), splitOnce_eq_some.2 ⟨by simp, by rwa [List.mem_reverse]⟩, ?_⟩
    simp

end

/-! One line. -/

/-- The range of a line, and how its name has to be. -/
inductive Parses (line : List Char) : IpRange → Prop
  | v4 {name start stop : List Char} {a b : BitVec 32} (form : HasForm line name start stop)
      (plain : name.count ':' ≤ 1) (hstart : fromStr start = some (.v4 a))
      (hstop : fromStr stop = some (.v4 b)) : Parses line (.v4 ⟨a, saturatingAdd b 1⟩)
  | v6 {name start stop : List Char} {a b : BitVec 128} (form : HasForm line name start stop)
      (plain : name.count ':' = 0) (hstart : fromStr start = some (.v6 a))
      (hstop : fromStr stop = some (.v6 b)) : Parses line (.v6 ⟨a, saturatingAdd b 1⟩)

section

variable {line name start stop : List Char}

/-- The colons of a line are those of its name, of the addresses, and the one between. -/
theorem HasForm.count (h : HasForm line name start stop) :
    line.count ':' = name.count ':' + 1 + start.count ':' + stop.count ':' := by
  rw [h]
  simp [List.count_append]
  omega

theorem HasForm.count_v4 (h : HasForm line name start stop) (hstart : Plain start)
    (hstop : Plain stop) : line.count ':' = name.count ':' + 1 := by
  rw [h.count, List.count_eq_zero_of_not_mem hstart.1, List.count_eq_zero_of_not_mem hstop.1]

/-- Where the line is split, whatever the count of its colons. -/
theorem splitName_eq_some {ips : List Char} : splitName line = some (name, ips) ↔
    line = name ++ ':' :: ips ∧ if 2 < line.count ':' then ':' ∉ name else ':' ∉ ips := by
  unfold splitName
  dsimp only
  split_ifs
  · exact splitOnce_eq_some
  · exact rsplitOnce_eq_some

/-- A line that is not left out gives a range in one of the two forms. -/
theorem Parses.of_parseIpRange {r : IpRange} (h : parseIpRange line = some r) :
    isComment (trim line) = false ∧ Parses (trim line) r := by
  unfold parseIpRange at h
  generalize trim line = line at h ⊢
  dsimp only at h
  by_cases hskip : (isComment line || line.isEmpty) = true
  · rw [if_pos hskip] at h
    cases h
  rw [if_neg hskip] at h
  have hcomment := (Bool.or_eq_false_iff.1 (Bool.eq_false_of_not_eq_true hskip)).1
  obtain ⟨⟨name, ips⟩, hsplit, h⟩ := Option.bind_eq_some_iff.1 h
  obtain ⟨⟨start, stop⟩, hdash, h⟩ := Option.bind_eq_some_iff.1 h
  obtain ⟨a, hstart, h⟩ := Option.bind_eq_some_iff.1 h
  obtain ⟨b, hstop, h⟩ := Option.bind_eq_some_iff.1 h
  obtain ⟨hline, hname⟩ := splitName_eq_some.1 hsplit
  obtain ⟨rfl, -⟩ := splitOnce_eq_some.1 hdash
  have hform : HasForm line name start stop := hline
  refine ⟨hcomment, ?_⟩
  cases a with
  | v4 a =>
    cases b with
    | v4 b =>
      obtain rfl := Option.some.inj h
      have hcount := hform.count_v4 (fromStr_v4 hstart) (fromStr_v4 hstop)
      refine .v4 hform ?_ hstart hstop
      by_contra hmany
      rw [if_pos (by omega)] at hname
      rw [List.count_eq_zero_of_not_mem hname] at hmany
      omega
    | v6 b => cases h
  | v6 a =>
    cases b with
    | v4 b => cases h
    | v6 b =>
      obtain rfl := Option.some.inj h
      have hcount := hform.count
      have hle : 2 ≤ start.count ':' := (fromStr_v6 hstart).2
      rw [if_pos (by omega)] at hname
      exact .v6 hform (List.count_eq_zero_of_not_mem hname) hstart hstop

theorem Parses.nonempty {r : IpRange} (h : Parses line r) : line.isEmpty = false := by
  cases h with
  | v4 form | v6 form =>
    rw [form]
    simp

/-- A line in one of the two forms is split at its name and at the dash. -/
theorem Parses.parseIpRange {r : IpRange} (hcomment : isComment (trim line) = false)
    (hparses : Parses (trim line) r) : parseIpRange line = some r := by
  unfold IpRanges.parseIpRange
  generalize trim line = line at hcomment hparses ⊢
  dsimp only
  rw [if_neg (by rw [hcomment, hparses.nonempty]; exact Bool.false_ne_true)]
  cases hparses with
  | @v4 name start stop a b form plain hstart hstop =>
    have hcount := form.count_v4 (fromStr_v4 hstart) (fromStr_v4 hstop)
    have hips : ':' ∉ start ++ '-' :: stop := by
      simpa using ⟨(fromStr_v4 hstart).1, (fromStr_v4 hstop).1⟩
    have hsplit := splitName_eq_some.2 ⟨form, by rwa [if_neg (by omega)]⟩
    have hdash : splitOnce '-' (start ++ '-' :: stop) = some (start, stop) :=
      splitOnce_eq_some.2 ⟨rfl, fromStr_dash hstart⟩
    simp only [hsplit, hdash, hstart, hstop, Option.bind_eq_bind, Option.bind_some]
  | @v6 name start stop a b form plain hstart hstop =>
    have hcount := form.count
    have hle := (fromStr_v6 hstart).2
    have hsplit := splitName_eq_some.2 ⟨form, by
      rw [if_pos (by have := (fromStr_v6 hstop).2; omega)]
      exact List.count_eq_zero.1 plain⟩
    have hdash : splitOnce '-' (start ++ '-' :: stop) = some (start, stop) :=
      splitOnce_eq_some.2 ⟨rfl, fromStr_dash hstart⟩
    simp only [hsplit, hdash, hstart, hstop, Option.bind_eq_bind, Option.bind_some]

theorem parseIpRange_iff {r : IpRange} :
    parseIpRange line = some r ↔ isComment (trim line) = false ∧ Parses (trim line) r :=
  ⟨Parses.of_parseIpRange, fun h => h.2.parseIpRange h.1⟩

end

/-! The list. -/

section

variable {lines : List (List Char)} {v4 : List (Range 32)} {v6 : List (Range 128)}

/-- The ranges of every line, of each family in a tree of its own. -/
theorem mem_collect_v4 {r : Range 32} : r ∈ (collect lines v4 v6).v4.t ↔
    r ∈ v4 ∨ ∃ line ∈ lines, parseIpRange line = some (.v4 r) := by
  induction lines generalizing v4 v6 with
  | nil => exact ⟨Or.inl, fun h => h.resolve_right nofun⟩
  | cons line lines ih =>
    rw [collect]
    rcases hparse : parseIpRange line with _ | ⟨r'⟩ | ⟨r'⟩
    · simp [ih, hparse]
    · simp [ih, hparse, or_assoc, eq_comm]
    · simp [ih, hparse]

theorem mem_collect_v6 {r : Range 128} : r ∈ (collect lines v4 v6).v6.t ↔
    r ∈ v6 ∨ ∃ line ∈ lines, parseIpRange line = some (.v6 r) := by
  induction lines generalizing v4 v6 with
  | nil => exact ⟨Or.inl, fun h => h.resolve_right nofun⟩
  | cons line lines ih =>
    rw [collect]
    rcases hparse : parseIpRange line with _ | ⟨r'⟩ | ⟨r'⟩
    · simp [ih, hparse]
    · simp [ih, hparse]
    · simp [ih, hparse, or_assoc, eq_comm]

end

/-- The end that is one behind the last address of the range, or the last address of all. -/
theorem lt_saturatingAdd_one {w : ℕ} {a p : BitVec w} :
    p < saturatingAdd a 1 ↔ p ≤ a ∧ p ≠ BitVec.allOnes w := by
  have hpos := Nat.two_pow_pos w
  have hlt : min (a.toNat + 1) (2 ^ w - 1) < 2 ^ w := by omega
  have ha := a.isLt
  have hp := p.isLt
  rw [BitVec.lt_def, BitVec.le_def, Ne, ← BitVec.toNat_inj, BitVec.toNat_allOnes, saturatingAdd,
    BitVec.toNat_ofNat, Nat.mod_eq_of_lt hlt]
  omega

section

variable {queryPoint : QueryPoint} {text : List Char} {ip : IpAddr}

theorem query_iff (h : QueryPointFinds queryPoint) {w : ℕ} {ranges : List (Range w)}
    {p : BitVec w} :
    (!(queryPoint ranges p).isEmpty) = true ↔ ∃ r ∈ ranges, r.start ≤ p ∧ p < r.stop := by
  rw [Bool.not_eq_true', List.isEmpty_eq_false_iff_exists_mem]
  exact exists_congr fun r => h w ranges p r

theorem has_iff (h : QueryPointFinds queryPoint) :
    (createFromDecodedStream text).has queryPoint ip = true ↔
      ¬IsLast ip ∧ ListedUnder (PlainName ip) text ip := by
  cases ip with
  | v4 p =>
    rw [has, query_iff h]
    refine ⟨?_, ?_⟩
    · rintro ⟨r, hr, hstart, hstop⟩
      obtain ⟨line, hline, hparse⟩ := (mem_collect_v4.1 hr).resolve_left nofun
      obtain ⟨hcomment, hparses⟩ := parseIpRange_iff.1 hparse
      cases hparses with
      | @v4 name start stop a b form plain ha hb =>
        obtain ⟨hle, hlast⟩ := lt_saturatingAdd_one.1 hstop
        exact ⟨hlast, line, hline, hcomment, name, plain, start, stop, _, _, form, ha, hb, hstart,
          hle⟩
    · rintro ⟨hlast, line, hline, hcomment, name, plain, start, stop, a, b, form, ha, hb, hbetween⟩
      obtain ⟨a, b, rfl, rfl, hle, hge⟩ := between_v4 hbetween
      exact ⟨_, mem_collect_v4.2 (Or.inr ⟨line, hline,
        parseIpRange_iff.2 ⟨hcomment, .v4 form plain ha hb⟩⟩), hle,
        lt_saturatingAdd_one.2 ⟨hge, hlast⟩⟩
  | v6 p =>
    rw [has, query_iff h]
    refine ⟨?_, ?_⟩
    · rintro ⟨r, hr, hstart, hstop⟩
      obtain ⟨line, hline, hparse⟩ := (mem_collect_v6.1 hr).resolve_left nofun
      obtain ⟨hcomment, hparses⟩ := parseIpRange_iff.1 hparse
      cases hparses with
      | @v6 name start stop a b form plain ha hb =>
        obtain ⟨hle, hlast⟩ := lt_saturatingAdd_one.1 hstop
        exact ⟨hlast, line, hline, hcomment, name, plain, start, stop, _, _, form, ha, hb, hstart,
          hle⟩
    · rintro ⟨hlast, line, hline, hcomment, name, plain, start, stop, a, b, form, ha, hb, hbetween⟩
      obtain ⟨a, b, rfl, rfl, hle, hge⟩ := between_v6 hbetween
      exact ⟨_, mem_collect_v6.2 (Or.inr ⟨line, hline,
        parseIpRange_iff.2 ⟨hcomment, .v6 form plain ha hb⟩⟩), hle,
        lt_saturatingAdd_one.2 ⟨hge, hlast⟩⟩

theorem has_iff_listed_iff (h : QueryPointFinds queryPoint) :
    ((createFromDecodedStream text).has queryPoint ip = true ↔ Listed text ip) ↔
      (Listed text ip → ¬IsLast ip ∧ ListedUnder (PlainName ip) text ip) := by
  rw [has_iff h]
  refine ⟨fun hiff => hiff.2, fun hplain => ⟨?_, hplain⟩⟩
  rintro ⟨-, line, hline, hcomment, name, -, hoffers⟩
  exact ⟨line, hline, hcomment, name, trivial, hoffers⟩

end

/-- The ranges that have the point, one by one. -/
def filterPoint : QueryPoint := fun ranges p => ranges.filter fun r => r.start ≤ p ∧ p < r.stop

theorem filterPoint_finds : QueryPointFinds filterPoint := by
  intro w ranges p r
  simp [filterPoint]

theorem oneColon_blocked :
    (createFromDecodedStream "  my:list:1.0.0.1-1.0.0.9\n# end".toList).has filterPoint
        (.v4 0x01000009) = true ↔
      Listed "  my:list:1.0.0.1-1.0.0.9\n# end".toList (.v4 0x01000009) :=
  (has_iff_listed_iff filterPoint_finds).2 fun _ => (has_iff filterPoint_finds).1 (by decide +kernel)

/-- A list of one line that has the range with `ip`, which the loaded list does not block. -/
def NotBlocked (line name start stop : String) (ip : IpAddr) : Prop :=
  HasForm line.toList name.toList start.toList stop.toList ∧
    ¬((createFromDecodedStream line.toList).has filterPoint ip = true ↔ Listed line.toList ip)

theorem notBlocked {line name start stop : String} {ip a b : IpAddr}
    (hform : HasForm line.toList name.toList start.toList stop.toList)
    (hline : (readLines line.toList).map trim = [line.toList])
    (hcomment : isComment line.toList = false) (ha : fromStr start.toList = some a)
    (hb : fromStr stop.toList = some b) (hbetween : Between a b ip)
    (hhas : (createFromDecodedStream line.toList).has filterPoint ip = false) :
    NotBlocked line name start stop ip := by
  refine ⟨hform, fun hiff => ?_⟩
  obtain ⟨l, hl, htrim⟩ := List.mem_map.1 (hline ▸ List.mem_singleton_self line.toList)
  have hlisted := hiff.2 ⟨l, hl, htrim ▸ hcomment, name.toList, trivial, start.toList, stop.toList,
    a, b, htrim ▸ hform, ha, hb, hbetween⟩
  rw [hhas] at hlisted
  cases hlisted

theorem listed_not_blocked :
    NotBlocked "a:b:c:1.0.0.1-1.0.0.9" "a:b:c" "1.0.0.1" "1.0.0.9" (.v4 0x01000001) ∧
    NotBlocked "a:b:::1-::9" "a:b" "::1" "::9" (.v6 1) ∧
    NotBlocked "all:0.0.0.0-255.255.255.255" "all" "0.0.0.0" "255.255.255.255"
      (.v4 0xFFFFFFFF) := by
  refine ⟨?_, ?_, ?_⟩
  · exact notBlocked (a := .v4 0x01000001) (b := .v4 0x01000009) (by decide +kernel)
      (by decide +kernel) (by decide +kernel) (by decide +kernel) (by decide +kernel)
      ⟨by decide, by decide⟩ (by decide +kernel)
  · exact notBlocked (a := .v6 1) (b := .v6 9) (by decide +kernel) (by decide +kernel)
      (by decide +kernel) (by decide +kernel) (by decide +kernel) ⟨by decide, by decide⟩
      (by decide +kernel)
  · exact notBlocked (a := .v4 0) (b := .v4 0xFFFFFFFF) (by decide +kernel) (by decide +kernel)
      (by decide +kernel) (by decide +kernel) (by decide +kernel) ⟨by decide, by decide⟩
      (by decide +kernel)

end IpRanges

end Rtbit
