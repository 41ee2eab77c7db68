import Mathlib.Tactic

/-! A table of routes for HTTP requests. A path is the list of the segments after its first slash.
Of the patterns that match a path the one decides that has a literal where the others first differ,
or else a parameter; the route is then the one of that pattern for the method. -/

namespace Lib

inductive Method where
  | get
  | head
  | post
  | put
  | delete
  | other
  deriving DecidableEq, Repr

/-- A route for `GET` also answers `HEAD`. -/
def Method.accepts (m : Method) : Method → Bool
  | .head => m == .get || m == .head
  | m' => m == m'

/-- Some method is answered by routes for both. -/
def Method.meets (m n : Method) : Bool :=
  [Method.get, .head, .post, .put, .delete, .other].any fun k => m.accepts k && n.accepts k

namespace Router

inductive Segment where
  | literal (s : String)
  | param
  /-- The rest of the path. -/
  | rest
  deriving DecidableEq, Repr

end Router

structure Route (A : Type*) where
  method : Method
  path : List Router.Segment
  target : A

namespace Router

def matchesPath : List Segment → List String → Bool
  | [], [] => true
  | .literal s :: p, t :: ts => s == t && matchesPath p ts
  | .param :: p, t :: ts => t != "" && matchesPath p ts
  | [.rest], t :: ts => decide (t :: ts ≠ [""])
  | _, _ => false

/-- Nothing in two patterns keeps them from matching the same path. -/
def overlap : List Segment → List Segment → Bool
  | [], [] => true
  | .literal s :: p, .literal t :: q => s == t && overlap p q
  | .rest :: _, _ :: _ | _ :: _, .rest :: _ => true
  | _ :: p, _ :: q => overlap p q
  | _, _ => false

/-- Which of two patterns that match the same path goes first. -/
def before : List Segment → List Segment → Bool
  | .literal _ :: p, .literal _ :: q => before p q
  | .literal _ :: _, _ => true
  | .param :: p, .param :: q => before p q
  | .param :: _, .rest :: _ => true
  | _, _ => false

def best (ps : List (List Segment)) : Option (List Segment) :=
  ps.foldl (fun b p => match b with
    | some q => if before p q then some p else some q
    | none => some p) none

variable {A B : Type*}

def answers (r : Route A) (method : Method) (path : List String) : Bool :=
  r.method.accepts method && matchesPath r.path path

def meets (r : Route A) (r' : Route B) : Bool :=
  r.method.meets r'.method && overlap r.path r'.path

def route (rs : List (Route A)) (method : Method) (path : List String) : Option (Route A) :=
  (best ((rs.map Route.path).filter fun p => matchesPath p path)).bind fun p =>
    rs.find? fun r => r.path == p && r.method.accepts method

theorem best_mem {ps : List (List Segment)} {p : List Segment} (h : best ps = some p) : p ∈ ps := by
  have key : ∀ (ps : List (List Segment)) (b : Option (List Segment)),
      ps.foldl (fun b p => match b with
        | some q => if before p q then some p else some q
        | none => some p) b = some p → p ∈ ps ∨ b = some p := by
    intro ps
    induction ps with
    | nil =>
      intro b hb
      exact Or.inr hb
    | cons q ps ih =>
      intro b hb
      rcases ih _ hb with hmem | hq
      · exact Or.inl (List.mem_cons_of_mem q hmem)
      · cases b with
        | none =>
          obtain rfl := Option.some.inj hq
          exact Or.inl List.mem_cons_self
        | some r =>
          simp only at hq
          split_ifs at hq
          · obtain rfl := Option.some.inj hq
            exact Or.inl List.mem_cons_self
          · exact Or.inr hq
  rcases key ps none h with hmem | hnone
  · exact hmem
  · cases hnone

/-- The route that is found is one of the table, and answers the request. -/
theorem route_eq_some {rs : List (Route A)} {method : Method} {path : List String} {r : Route A}
    (h : route rs method path = some r) : r ∈ rs ∧ answers r method path = true := by
  obtain ⟨p, hp, hr⟩ := Option.bind_eq_some_iff.1 h
  obtain ⟨hpath, hmethod⟩ := Bool.and_eq_true_iff.1 (List.find?_eq_some_iff_append.1 hr).1
  have hmatch : matchesPath p path = true := (List.mem_filter.1 (best_mem hp)).2
  refine ⟨List.mem_of_find?_eq_some hr, ?_⟩
  rw [answers, hmethod, eq_of_beq hpath, hmatch, Bool.and_self]

theorem eq_nil_of_matchesPath {p : List Segment} (h : matchesPath p [] = true) : p = [] := by
  cases p with
  | nil => rfl
  | cons s p => cases s <;> simp [matchesPath] at h

theorem overlap_of_matches {p q : List Segment} {path : List String}
    (hp : matchesPath p path = true) (hq : matchesPath q path = true) : overlap p q = true := by
  induction p generalizing q path with
  | nil =>
    cases path with
    | nil => rw [eq_nil_of_matchesPath hq, overlap]
    | cons t path => cases hp
  | cons s p ih =>
    cases path with
    | nil => cases eq_nil_of_matchesPath hp
    | cons t path =>
      cases q with
      | nil => cases hq
      | cons s' q =>
        cases s with
        | rest => rfl
        | literal a =>
          obtain ⟨ha, hp⟩ := Bool.and_eq_true_iff.1 hp
          cases s' with
          | rest => rfl
          | literal b =>
            obtain ⟨hb, hq⟩ := Bool.and_eq_true_iff.1 hq
            have hab : (a == b) = true := by rw [eq_of_beq ha, eq_of_beq hb, beq_self_eq_true]
            exact Bool.and_eq_true_iff.2 ⟨hab, ih hp hq⟩
          | param => exact ih hp (Bool.and_eq_true_iff.1 hq).2
        | param =>
          have hp := (Bool.and_eq_true_iff.1 hp).2
          cases s' with
          | rest => rfl
          | literal b => exact ih hp (Bool.and_eq_true_iff.1 hq).2
          | param => exact ih hp (Bool.and_eq_true_iff.1 hq).2

theorem meets_of_answers {r : Route A} {r' : Route B} {method : Method} {path : List String}
    (h : answers r method path = true) (h' : answers r' method path = true) :
    meets r r' = true := by
  obtain ⟨hm, hp⟩ := Bool.and_eq_true_iff.1 h
  obtain ⟨hm', hp'⟩ := Bool.and_eq_true_iff.1 h'
  refine Bool.and_eq_true_iff.2 ⟨?_, overlap_of_matches hp hp'⟩
  refine List.any_eq_true.2 ⟨method, ?_, Bool.and_eq_true_iff.2 ⟨hm, hm'⟩⟩
  cases method <;> decide

/-- If the routes of one kind are those of another table, and no others meet them, then the route
that is found is of the kind exactly if that table has an answer. -/
theorem any_answers_iff {rs : List (Route A)} {sub : List (Route B)} (kind : A → Bool)
    {method : Method} {path : List String} {r : Route A} (h : route rs method path = some r)
    (hsub : ∀ r ∈ rs, kind r.target = true → ∃ p ∈ sub, p.method = r.method ∧ p.path = r.path)
    (hmeets : ∀ r ∈ rs, ∀ p ∈ sub, meets r p = true → kind r.target = true) :
    (sub.any fun p => answers p method path) = true ↔ kind r.target = true := by
  obtain ⟨hmem, hr⟩ := route_eq_some h
  rw [List.any_eq_true]
  refine ⟨?_, ?_⟩
  · rintro ⟨p, hp, hanswers⟩
    exact hmeets r hmem p hp (meets_of_answers hr hanswers)
  · intro hkind
    obtain ⟨p, hp, hmethod, hpath⟩ := hsub r hmem hkind
    refine ⟨p, hp, ?_⟩
    rw [answers, hmethod, hpath]
    exact hr

end Router

end Lib
