import Mathlib.Tactic

/-! Runs of a partial step function: every event of a run is enabled where it is
taken, and allowed there by a side condition `ok`. An invariant of every
allowed step holds at the end of every allowed run. -/

namespace Lib

variable {S E : Type*}

/-- `Run step ok s evs t`: the events `evs`, taken one after the other from `s`,
lead to `t`, and each meets `ok` in the state it is taken in. -/
inductive Run (step : S → E → Option S) (ok : S → E → Prop) (s : S) : List E → S → Prop
  | nil : Run step ok s [] s
  | snoc {evs s₁ e s₂} : Run step ok s evs s₁ → ok s₁ e → step s₁ e = some s₂ →
      Run step ok s (evs ++ [e]) s₂

variable {step : S → E → Option S} {ok : S → E → Prop} {s t u : S} {evs evs' : List E}

/-- The side condition of a run that is not restricted. -/
def Any : S → E → Prop := fun _ _ => True

instance (s : S) (e : E) : Decidable (Any s e) := isTrue trivial

theorem Run.inv (I : S → Prop) (h0 : I s)
    (hstep : ∀ s₁ e s₂, I s₁ → ok s₁ e → step s₁ e = some s₂ → I s₂)
    (h : Run step ok s evs t) : I t := by
  induction h with
  | nil => exact h0
  | snoc _ hok hs ih => exact hstep _ _ _ ih hok hs

theorem Run.trans (h1 : Run step ok s evs t) (h2 : Run step ok t evs' u) :
    Run step ok s (evs ++ evs') u := by
  induction h2 with
  | nil => simpa using h1
  | snoc _ hok hs ih =>
    rw [← List.append_assoc]
    exact ih.snoc hok hs

theorem Run.single {e : E} (hok : ok s e) (hs : step s e = some t) : Run step ok s [e] t := by
  have h : Run step ok s ([] ++ [e]) t := Run.snoc Run.nil hok hs
  exact h

theorem Run.cons {e : E} (hok : ok s e) (hs : step s e = some t) (h : Run step ok t evs u) :
    Run step ok s (e :: evs) u :=
  (Run.single hok hs).trans h

theorem Run.mono {ok' : S → E → Prop} (h : ∀ s e, ok s e → ok' s e)
    (hr : Run step ok s evs t) : Run step ok' s evs t := by
  induction hr with
  | nil => exact Run.nil
  | snoc _ hok hs ih => exact ih.snoc (h _ _ hok) hs

/-- A side condition on the events alone. -/
theorem Run.of_events {ok' : S → E → Prop} (h : ∀ e ∈ evs, ∀ s, ok' s e)
    (hr : Run step ok s evs t) : Run step ok' s evs t := by
  induction hr with
  | nil => exact Run.nil
  | snoc _ _ hs ih =>
    refine (ih fun e he => h e (List.mem_append_left _ he)).snoc (h _ ?_ _) hs
    exact List.mem_append_right _ (List.mem_singleton_self _)

theorem Run.nil_inv (h : Run step ok s [] t) : t = s := by
  generalize hl : ([] : List E) = l at h
  cases h with
  | nil => rfl
  | snoc _ _ _ => simp at hl

/-- The last event of a run. -/
theorem Run.snoc_inv {e : E} (h : Run step ok s (evs ++ [e]) u) :
    ∃ t, Run step ok s evs t ∧ ok t e ∧ step t e = some u := by
  generalize hl : evs ++ [e] = l at h
  cases h with
  | nil => simp at hl
  | snoc hr hok hs =>
    obtain ⟨rfl, he⟩ := List.append_inj' hl rfl
    obtain rfl := (List.cons.inj he).1
    exact ⟨_, hr, hok, hs⟩

/-- A run passes through the end of each of its beginnings. -/
theorem Run.split (h : Run step ok s (evs ++ evs') u) :
    ∃ t, Run step ok s evs t ∧ Run step ok t evs' u := by
  induction evs' using List.reverseRecOn generalizing u with
  | nil => exact ⟨u, by simpa using h, Run.nil⟩
  | append_singleton evs' e ih =>
    rw [← List.append_assoc] at h
    obtain ⟨v, hr, hok, hs⟩ := h.snoc_inv
    obtain ⟨t, h1, h2⟩ := ih hr
    exact ⟨t, h1, h2.snoc hok hs⟩

/-- The events of a run determine where it ends. -/
theorem Run.unique (h : Run step ok s evs t) (h' : Run step ok s evs u) : t = u := by
  induction evs using List.reverseRecOn generalizing t u with
  | nil => rw [h.nil_inv, h'.nil_inv]
  | append_singleton evs e ih =>
    obtain ⟨v, hr, -, hs⟩ := h.snoc_inv
    obtain ⟨v', hr', -, hs'⟩ := h'.snoc_inv
    obtain rfl := ih hr hr'
    exact Option.some.inj (hs.symm.trans hs')

/-- Takes the events in turn; `none` if one is not enabled or not allowed. -/
def exec (step : S → E → Option S) (ok : S → E → Prop) [∀ s e, Decidable (ok s e)] :
    S → List E → Option S
  | s, [] => some s
  | s, e :: evs => if ok s e then (step s e).bind fun s' => exec step ok s' evs else none

theorem Run.of_exec [∀ s e, Decidable (ok s e)] (h : exec step ok s evs = some t) :
    Run step ok s evs t := by
  induction evs generalizing s with
  | nil =>
    simp only [exec, Option.some.injEq] at h
    subst h
    exact Run.nil
  | cons e evs ih =>
    rw [exec] at h
    split_ifs at h with hok
    obtain ⟨s', hs, hr⟩ := Option.bind_eq_some_iff.1 h
    exact Run.cons hok hs (ih hr)

/-- A run found by executing its events, with a fact about the state it ends in. -/
theorem Run.exists_of_exec [∀ s e, Decidable (ok s e)] {q : S → Bool}
    (h : (exec step ok s evs).any q = true) : ∃ t, Run step ok s evs t ∧ q t = true := by
  obtain ⟨t, ht, hq⟩ := (Option.any_eq_true _ _).1 h
  exact ⟨t, Run.of_exec ht, hq⟩

/-! The members of a pool after one of them has changed, joined or left. -/

theorem get_set {l : List S} {i j : ℕ} {a b : S} (h : (l.set i b)[j]? = some a) :
    j = i ∧ a = b ∨ j ≠ i ∧ l[j]? = some a := by
  rw [List.getElem?_set] at h
  split_ifs at h with hij hlt
  · injection h with h
    exact Or.inl ⟨hij.symm, h.symm⟩
  · exact Or.inr ⟨fun he => hij he.symm, h⟩

theorem get_append {l : List S} {i : ℕ} {a b : S} (h : (l ++ [b])[i]? = some a) :
    l[i]? = some a ∨ i = l.length ∧ a = b := by
  rcases Nat.lt_or_ge i l.length with hlt | hge
  · rw [List.getElem?_append_left hlt] at h
    exact Or.inl h
  · rw [List.getElem?_append_right hge, List.getElem?_singleton] at h
    split_ifs at h with hi
    injection h with h
    exact Or.inr ⟨by omega, h.symm⟩

/-- No two members of a pool have the property. -/
def AtMostOne (p : S → Prop) (l : List S) : Prop :=
  ∀ (i j : ℕ) (a b : S), l[i]? = some a → l[j]? = some b → p a → p b → i = j

theorem AtMostOne.others {p : S → Prop} {l : List S} {i j : ℕ} {a b : S} (h : AtMostOne p l)
    (hi : l[i]? = some a) (ha : p a) (hne : j ≠ i) (hj : l[j]? = some b) : ¬ p b :=
  fun hb => hne (h j i b a hj hi hb ha)

/-- A member may take the property that no other has. -/
theorem AtMostOne.set {p : S → Prop} {l : List S} {i : ℕ} {b : S} (h : AtMostOne p l)
    (hb : p b → ∀ j d, j ≠ i → l[j]? = some d → ¬ p d) : AtMostOne p (l.set i b) := by
  intro j k x y hj hk hx hy
  rcases get_set hj with ⟨hji, rfl⟩ | ⟨hji, hj'⟩
  · rcases get_set hk with ⟨hki, rfl⟩ | ⟨hki, hk'⟩
    · rw [hji, hki]
    · exact absurd hy (hb hx k y hki hk')
  · rcases get_set hk with ⟨-, rfl⟩ | ⟨-, hk'⟩
    · exact absurd hx (hb hy j x hji hj')
    · exact h j k x y hj' hk' hx hy

theorem AtMostOne.append {p : S → Prop} {l : List S} {b : S} (h : AtMostOne p l) (hb : ¬ p b) :
    AtMostOne p (l ++ [b]) := by
  intro j k x y hj hk hx hy
  rcases get_append hj with hj | ⟨-, rfl⟩
  · rcases get_append hk with hk | ⟨-, rfl⟩
    · exact h j k x y hj hk hx hy
    · exact absurd hy hb
  · exact absurd hx hb

/-- What some member is, some member still is if the one that changes stays so. -/
theorem exists_mem_set {l : List S} {i : ℕ} {a b : S} {P : S → Prop} (h : l[i]? = some a)
    (hab : P a → P b) (hp : ∃ x ∈ l, P x) : ∃ x ∈ l.set i b, P x := by
  obtain ⟨x, hx, hpx⟩ := hp
  obtain ⟨j, hj⟩ := List.mem_iff_getElem?.1 hx
  by_cases hij : j = i
  · subst hij
    obtain rfl := Option.some.inj (h.symm.trans hj)
    exact ⟨b, List.mem_set (List.getElem?_eq_some_iff.1 h).1 b, hab hpx⟩
  · refine ⟨x, List.mem_iff_getElem?.2 ⟨j, ?_⟩, hpx⟩
    rw [List.getElem?_set_ne (Ne.symm hij)]
    exact hj

theorem mem_set_of_mem_eraseIdx {l : List S} {i : ℕ} {a b : S} (h : a ∈ l.eraseIdx i) :
    a ∈ l.set i b := by
  obtain ⟨j, hj, ha⟩ := List.mem_eraseIdx_iff_getElem?.1 h
  refine List.mem_iff_getElem?.2 ⟨j, ?_⟩
  rw [List.getElem?_set_ne (Ne.symm hj)]
  exact ha

theorem mem_modify {l : List S} {i : ℕ} {f : S → S} {a : S} (h : a ∈ l.modify i f) :
    a ∈ l ∨ ∃ b ∈ l, a = f b := by
  obtain ⟨j, hj⟩ := List.mem_iff_getElem?.1 h
  rw [List.getElem?_modify] at hj
  obtain ⟨b, hb, ha⟩ := Option.map_eq_some_iff.1 hj
  have hmem : b ∈ l := List.mem_iff_getElem?.2 ⟨j, hb⟩
  split_ifs at ha
  · exact Or.inr ⟨b, hmem, ha.symm⟩
  · exact Or.inl (ha ▸ hmem)

theorem sum_map_set_lt {l : List S} {f : S → ℕ} {i : ℕ} {a b : S} (h : l[i]? = some a)
    (hlt : f b < f a) : ((l.set i b).map f).sum < (l.map f).sum := by
  induction l generalizing i with
  | nil => simp at h
  | cons x l ih =>
    cases i with
    | zero =>
      rw [List.getElem?_cons_zero] at h
      obtain rfl := Option.some.inj h
      simpa using hlt
    | succ i =>
      have hsum := ih (by simpa using h)
      simpa using hsum

theorem mem_eraseIdx_of_ne {l : List S} {i : ℕ} {a b : S} (h : l[i]? = some a) (hb : b ∈ l)
    (hne : b ≠ a) : b ∈ l.eraseIdx i := by
  obtain ⟨j, hj⟩ := List.mem_iff_getElem?.1 hb
  refine List.mem_eraseIdx_iff_getElem?.2 ⟨j, ?_, hj⟩
  rintro rfl
  rw [h] at hj
  exact hne (Option.some.inj hj).symm

end Lib
