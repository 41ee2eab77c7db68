import Mathlib.Tactic

/-! Readers of text, which take what they have read off its front. A reader that fails leaves the
text as it was. -/

namespace Lib

abbrev Reader := StateT (List Char) Option

namespace Reader

variable {α β : Type}

/-- What `p` takes off the text is as `P` says. -/
def Consumes (p : Reader α) (P : List Char → α → Prop) : Prop :=
  ∀ s a rest, p s = some (a, rest) → ∃ c, s = c ++ rest ∧ P c a

variable {p q : Reader α} {f : α → Reader β} {P Q : List Char → α → Prop}

theorem Consumes.mono (h : Consumes p P) (hPQ : ∀ c a, P c a → Q c a) : Consumes p Q := by
  intro s a rest hs
  obtain ⟨c, hc, hP⟩ := h s a rest hs
  exact ⟨c, hc, hPQ c a hP⟩

theorem consumes_pure {a : α} (h : P [] a) : Consumes (pure a) P := by
  rintro s _ rest ⟨⟩
  exact ⟨[], rfl, h⟩

/-- One reader, then the other on what is left. -/
theorem Consumes.bind {R : List Char → β → Prop} (h : Consumes p P)
    (hf : ∀ a c, P c a → Consumes (f a) fun d b => R (c ++ d) b) : Consumes (p >>= f) R := by
  intro s b rest hs
  obtain ⟨⟨a, s'⟩, hp, hfa⟩ := Option.bind_eq_some_iff.1 hs
  obtain ⟨c, rfl, hP⟩ := h s a s' hp
  obtain ⟨d, rfl, hR⟩ := hf a c hP s' b rest hfa
  exact ⟨c ++ d, (List.append_assoc c d rest).symm, hR⟩

theorem Consumes.orElse (hp : Consumes p P) (hq : Consumes q P) : Consumes (p <|> q) P := by
  intro s a rest hs
  change (p s <|> q s) = some (a, rest) at hs
  cases h : p s with
  | none =>
    rw [h] at hs
    exact hq s a rest hs
  | some x =>
    rw [h] at hs
    obtain rfl := Option.some.inj hs
    exact hp s a rest h

/-- The whole text is read. -/
def parseWith (p : Reader α) (s : List Char) : Option α :=
  match p s with
  | some (a, []) => some a
  | _ => none

theorem Consumes.parseWith {s : List Char} {a : α} (h : Consumes p P)
    (hs : p.parseWith s = some a) : P s a := by
  unfold Reader.parseWith at hs
  split at hs
  · next b hp =>
    obtain rfl := Option.some.inj hs
    obtain ⟨c, rfl, hP⟩ := h s _ [] hp
    rwa [List.append_nil]
  · cases hs

end Reader

end Lib
