import Rtbit.Spec.AddrText

/-! The characters of an address: none is a dash, an IPv4 address has no colon, and an IPv6 address
has two at least. -/

namespace Rtbit

open Lib

namespace AddrText

/-- Neither of the two characters that separate the parts of a line. -/
def Plain (c : List Char) : Prop := ':' ∉ c ∧ '-' ∉ c

theorem plain_append {c d : List Char} (hc : Plain c) (hd : Plain d) : Plain (c ++ d) :=
  ⟨fun h => (List.mem_append.1 h).elim hc.1 hd.1, fun h => (List.mem_append.1 h).elim hc.2 hd.2⟩

theorem consumes_readChar : Reader.Consumes readChar fun c a => c = [a] := by
  intro s a rest h
  cases s with
  | nil => cases h
  | cons x xs =>
    obtain ⟨rfl, rfl⟩ := Prod.mk.inj (Option.some.inj h)
    exact ⟨[x], rfl, rfl⟩

theorem consumes_readGivenChar (given : Char) :
    Reader.Consumes (readGivenChar given) fun c _ => c = [given] := by
  refine consumes_readChar.bind ?_
  rintro a _ rfl
  split_ifs with ha
  · exact Reader.consumes_pure (by rw [ha]; rfl)
  · rintro s b rest ⟨⟩

theorem consumes_readSeparator {α : Type} {inner : Reader α} {P : List Char → α → Prop}
    (sep : Char) (index : ℕ) (h : inner.Consumes P) :
    Reader.Consumes (readSeparator sep index inner) fun c a =>
      ∃ d, c = (if 0 < index then [sep] else []) ++ d ∧ P d a := by
  unfold readSeparator
  split_ifs with hi
  · refine (consumes_readGivenChar sep).bind ?_
    rintro _ _ rfl
    exact h.mono fun d a hP => ⟨d, rfl, hP⟩
  · exact h.mono fun d a hP => ⟨d, rfl, hP⟩

/-! Numbers. -/

theorem toDigit_plain {radix d : ℕ} {c : Char} (h : toDigit radix c = some d) : Plain [c] := by
  have hnot (x : Char) (hx : toDigit radix x = none) : x ∉ [c] := by
    intro hmem
    rw [List.mem_singleton.1 hmem, h] at hx
    cases hx
  exact ⟨hnot ':' (if_neg (Nat.lt_irrefl radix)), hnot '-' (if_neg (Nat.lt_irrefl radix))⟩

theorem consumes_readDigits (radix maxDigits digitCount result : ℕ) :
    Reader.Consumes (readDigits radix maxDigits digitCount result) fun c _ => Plain c := by
  intro s a rest h
  induction s generalizing digitCount result with
  | nil =>
    obtain ⟨-, rfl⟩ := Prod.mk.inj (Option.some.inj h)
    exact ⟨[], rfl, nofun, nofun⟩
  | cons c cs ih =>
    rw [readDigits] at h
    cases hd : toDigit radix c with
    | none =>
      rw [hd] at h
      obtain ⟨-, rfl⟩ := Prod.mk.inj (Option.some.inj h)
      exact ⟨[], rfl, nofun, nofun⟩
    | some d =>
      rw [hd] at h
      dsimp only at h
      split_ifs at h
      obtain ⟨read, rfl, hread⟩ := ih _ _ h
      exact ⟨c :: read, rfl, plain_append (toDigit_plain hd) hread⟩

theorem consumes_readNumber (bits radix maxDigits : ℕ) (allowZeroPrefix : Bool) :
    Reader.Consumes (readNumber bits radix maxDigits allowZeroPrefix) fun c _ => Plain c := by
  intro s a rest h
  obtain ⟨⟨⟨digitCount, result⟩, s'⟩, hdigits, hnumber⟩ := Option.bind_eq_some_iff.1 h
  dsimp only at hnumber
  split_ifs at hnumber
  obtain ⟨rfl, rfl⟩ := Prod.mk.inj (Option.some.inj hnumber)
  exact consumes_readDigits radix maxDigits 0 0 s _ _ hdigits

/-! Addresses. -/

theorem consumes_readOctet (i : ℕ) : Reader.Consumes (readOctet i) fun c _ => Plain c := by
  refine (consumes_readSeparator '.' i (consumes_readNumber 8 10 3 false)).mono ?_
  rintro _ _ ⟨d, rfl, hd⟩
  refine plain_append ?_ hd
  split_ifs
  · exact ⟨by decide, by decide⟩
  · exact ⟨nofun, nofun⟩

theorem consumes_readIpv4Addr : Reader.Consumes readIpv4Addr fun c _ => Plain c := by
  refine (consumes_readOctet 0).bind fun a c₀ h₀ => ?_
  refine (consumes_readOctet 1).bind fun b c₁ h₁ => ?_
  refine (consumes_readOctet 2).bind fun c c₂ h₂ => ?_
  refine (consumes_readOctet 3).bind fun d c₃ h₃ => Reader.consumes_pure ?_
  rw [List.append_nil]
  exact plain_append h₀ (plain_append h₁ (plain_append h₂ h₃))

/-- A separator stands before every group but the first. -/
theorem consumes_group {α : Type} {inner : Reader α} (groups : List ℕ)
    (h : inner.Consumes fun c _ => Plain c) :
    Reader.Consumes (readSeparator ':' groups.length inner) fun c _ =>
      '-' ∉ c ∧ groups.length + 1 = max groups.length 1 + c.count ':' := by
  refine (consumes_readSeparator ':' groups.length h).mono ?_
  rintro _ _ ⟨d, rfl, hcolon, hdash⟩
  rw [List.count_append, List.count_eq_zero_of_not_mem hcolon]
  split_ifs with hlen
  · refine ⟨fun hmem => (List.mem_append.1 hmem).elim (by decide) hdash, ?_⟩
    rw [max_eq_left (Nat.succ_le_of_lt hlen)]
    rfl
  · refine ⟨hdash, ?_⟩
    rw [Nat.eq_zero_of_not_pos hlen]
    rfl

/-- Every group behind the first has a colon before it; an embedded IPv4 address counts as two. -/
theorem consumes_readGroups (room : ℕ) (groups : List ℕ) :
    Reader.Consumes (readGroups room groups) fun c r =>
      '-' ∉ c ∧ r.1.length ≤ max groups.length 1 + c.count ':' + r.2.toNat := by
  have hnone (groups : List ℕ) :
      '-' ∉ ([] : List Char) ∧ groups.length ≤ max groups.length 1 + 0 + 0 :=
    ⟨nofun, le_max_left _ _⟩
  induction room generalizing groups with
  | zero => exact Reader.consumes_pure (hnone groups)
  | succ room ih =>
    refine Reader.Consumes.orElse ?_ (Reader.Consumes.orElse ?_ (Reader.consumes_pure (hnone groups)))
    · split_ifs
      · refine (consumes_group groups consumes_readIpv4Addr).bind ?_
        rintro v4 c ⟨hdash, hlen⟩
        refine Reader.consumes_pure ?_
        rw [List.append_nil]
        refine ⟨hdash, ?_⟩
        rw [List.length_append, ← hlen]
        rfl
      · rintro s r rest ⟨⟩
    · refine (consumes_group groups (consumes_readNumber 16 16 4 true)).bind ?_
      rintro g c ⟨hdash, hlen⟩
      refine (ih (groups ++ [g])).mono ?_
      rintro d r ⟨hdash', hle⟩
      refine ⟨fun hmem => (List.mem_append.1 hmem).elim hdash hdash', ?_⟩
      rw [List.length_append, List.length_singleton, max_eq_left (Nat.le_add_left 1 _)] at hle
      rw [List.count_append]
      omega

theorem consumes_readIpv6Addr :
    Reader.Consumes readIpv6Addr fun c _ => '-' ∉ c ∧ 2 ≤ c.count ':' := by
  refine (consumes_readGroups 8 []).bind ?_
  rintro ⟨head, headIpv4⟩ c ⟨hdash, hlen⟩
  dsimp only at hlen ⊢
  split_ifs with hfull hv4
  · refine Reader.consumes_pure ?_
    have hbool := Bool.toNat_le headIpv4
    rw [List.append_nil]
    rw [hfull, List.length_nil, max_eq_right (Nat.zero_le 1)] at hlen
    exact ⟨hdash, by omega⟩
  · rintro s r rest ⟨⟩
  -- the two colons that stand for the groups in between
  · refine (consumes_readGivenChar ':').bind ?_
    rintro - _ rfl
    refine (consumes_readGivenChar ':').bind ?_
    rintro - _ rfl
    refine (consumes_readGroups _ []).bind ?_
    rintro ⟨tail, b⟩ d ⟨hdash', -⟩
    refine Reader.consumes_pure ?_
    refine ⟨?_, ?_⟩
    · simpa using ⟨hdash, hdash'⟩
    · simp only [List.count_append, List.count_singleton_self]
      omega

theorem consumes_readIpAddr : Reader.Consumes readIpAddr fun c a =>
    match a with
    | .v4 _ => Plain c
    | .v6 _ => '-' ∉ c ∧ 2 ≤ c.count ':' := by
  refine Reader.Consumes.orElse ?_ ?_
  · refine consumes_readIpv4Addr.bind fun a c hc => Reader.consumes_pure ?_
    rwa [List.append_nil]
  · refine consumes_readIpv6Addr.bind fun a c hc => Reader.consumes_pure ?_
    rwa [List.append_nil]

theorem fromStr_v4 {s : List Char} {a : BitVec 32} (h : fromStr s = some (.v4 a)) : Plain s :=
  consumes_readIpAddr.parseWith h

theorem fromStr_v6 {s : List Char} {a : BitVec 128} (h : fromStr s = some (.v6 a)) :
    '-' ∉ s ∧ 2 ≤ s.count ':' :=
  consumes_readIpAddr.parseWith h

theorem fromStr_dash {s : List Char} {a : IpAddr} (h : fromStr s = some a) : '-' ∉ s := by
  cases a with
  | v4 a => exact (fromStr_v4 h).2
  | v6 a => exact (fromStr_v6 h).1

end AddrText

end Rtbit
