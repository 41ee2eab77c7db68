import Rtbit.Lib.Tasks

/-! A lock discipline, and what follows from it: a task waits for a lock only while every lock
it holds ranks below, so no cycle of tasks wait for each other. A lock may have a guard. It
is then taken only under the guard, its write side is only tried, and only under the write
side of the guard; nobody ever waits for such a lock, and its rank may be below the guard's. -/

namespace Lib

structure Discipline (L R : Type) where
  rank : L → R
  guard : L → Option L

namespace Discipline

variable {L D R C α β : Type} [DecidableEq L] [Preorder R] (o : Discipline L R)

/-- A task that holds `held` may take `x`. -/
def MayTake (held : List (L × Mode)) (x : L) (m : Mode) : Prop :=
  match o.guard x with
  | none => ∀ h ∈ held, o.rank h.1 < o.rank x
  | some g => m = .read ∧ (∀ h ∈ held, h.1 ≠ x) ∧ ∃ h ∈ held, h.1 = g

/-- Whoever holds the write side of a guarded lock holds that of its guard. -/
def Guarded (held : List (L × Mode)) : Prop :=
  ∀ x g, (x, .write) ∈ held → o.guard x = some g → (g, .write) ∈ held

/-- The program keeps to the discipline when it starts with the locks `held`, provided `A`
holds of the data it accesses, and ends in `Q`. -/
def Keeps (A : D → Prop) : Prog L D α → List (L × Mode) → (List (L × Mode) → α → Prop) → Prop
  | .ret a, held, Q => Q held a
  | .acquire x m k, held, Q => o.MayTake held x m ∧ Keeps A k ((x, m) :: held) Q
  | .release x k, held, Q => o.Guarded (dropGuard x held) ∧ Keeps A k (dropGuard x held) Q
  | .tryWrite x k, held, Q =>
    o.Guarded ((x, .write) :: held) ∧ Keeps A (k true) ((x, .write) :: held) Q ∧
      Keeps A (k false) held Q
  | .access _ k, held, Q => ∀ d, A d → Keeps A (k d) held Q

section Rules

variable {o} {A : D → Prop} {held : List (L × Mode)} {Q : List (L × Mode) → α → Prop}

theorem Keeps.mono {p : Prog L D α} {Q' : List (L × Mode) → α → Prop} (h : o.Keeps A p held Q)
    (hq : ∀ held a, Q held a → Q' held a) : o.Keeps A p held Q' := by
  induction p generalizing held with
  | ret a => exact hq _ _ h
  | acquire x m k ih => exact ⟨h.1, ih h.2⟩
  | release x k ih => exact ⟨h.1, ih h.2⟩
  | tryWrite x k ih => exact ⟨h.1, ih true h.2.1, ih false h.2.2⟩
  | access f k ih => exact fun d hd => ih d (h d hd)

@[simp] theorem keeps_pure (a : α) : o.Keeps A (pure a) held Q ↔ Q held a := Iff.rfl

@[simp] theorem keeps_bind (p : Prog L D β) (f : β → Prog L D α) :
    o.Keeps A (p >>= f) held Q ↔ o.Keeps A p held fun held b => o.Keeps A (f b) held Q := by
  change o.Keeps A (p.bind f) held Q ↔ _
  induction p generalizing held with
  | ret b => rfl
  | acquire x m k ih => exact and_congr_right fun _ => ih
  | release x k ih => exact and_congr_right fun _ => ih
  | tryWrite x k ih => exact and_congr_right fun _ => and_congr (ih true) (ih false)
  | access g k ih => exact forall_congr' fun d => imp_congr_right fun _ => ih d

@[simp] theorem keeps_get {Q : List (L × Mode) → D → Prop} :
    o.Keeps A .get held Q ↔ ∀ d, A d → Q held d := Iff.rfl

@[simp] theorem keeps_modify {f : D → D} {Q : List (L × Mode) → D → Prop} :
    o.Keeps A (.modify f) held Q ↔ ∀ d, A d → Q held d := Iff.rfl

@[simp] theorem keeps_lock {x : L} {m : Mode} {Q : List (L × Mode) → Unit → Prop} :
    o.Keeps A (.lock x m) held Q ↔ o.MayTake held x m ∧ Q ((x, m) :: held) () := Iff.rfl

@[simp] theorem keeps_unlock {x : L} {Q : List (L × Mode) → Unit → Prop} :
    o.Keeps A (.unlock x) held Q ↔ o.Guarded (dropGuard x held) ∧ Q (dropGuard x held) () := Iff.rfl

@[simp] theorem keeps_tryLock {x : L} {Q : List (L × Mode) → Bool → Prop} :
    o.Keeps A (.tryLock x) held Q ↔
      o.Guarded ((x, .write) :: held) ∧ Q ((x, .write) :: held) true ∧ Q held false := Iff.rfl

@[simp] theorem dropGuard_cons (x : L) (m : Mode) : dropGuard x ((x, m) :: held) = held := by
  simp [dropGuard]

theorem keeps_unlock_cons {x : L} {m : Mode} {Q : List (L × Mode) → Unit → Prop}
    (hg : o.Guarded held) (hq : Q held ()) : o.Keeps A (.unlock x) ((x, m) :: held) Q := by
  rw [keeps_unlock, dropGuard_cons]
  exact ⟨hg, hq⟩

/-- A body under a guard, of a program that holds nothing else it may not hold. -/
theorem keeps_withLock {x : L} {m : Mode} {p : Prog L D α} (hx : o.MayTake held x m)
    (hg : o.Guarded held)
    (hp : o.Keeps A p ((x, m) :: held) fun held' a => held' = (x, m) :: held ∧ Q held a) :
    o.Keeps A (p.withLock x m) held Q := by
  simp only [Prog.withLock, keeps_bind, keeps_lock]
  refine ⟨hx, hp.mono ?_⟩
  intro held' a ha
  obtain ⟨rfl, hq⟩ := ha
  exact keeps_unlock_cons hg hq

end Rules

/-! Systems of tasks that keep to the discipline. -/

variable (A : C → D → Prop)

structure Inv (s : System L D C) : Prop where
  keeps : ∀ t ∈ s.tasks, o.Keeps (A t.call) t.prog t.held fun held _ => held = []
  guarded : ∀ t ∈ s.tasks, o.Guarded t.held
  exclusive : ∀ (i j : ℕ) (t u : Task L D C) x m, s.tasks[i]? = some t → s.tasks[j]? = some u → i ≠ j →
    (x, .write) ∈ t.held → (x, m) ∉ u.held

variable {o A} {body : C → Prog L D Unit} {s s' : System L D C}

theorem mem_dropGuard {x : L} {h : L × Mode} {held : List (L × Mode)} (hm : h ∈ dropGuard x held) :
    h ∈ held := List.mem_of_mem_eraseP hm

/-- One step of a task: what it holds afterwards, it held before or has been free. -/
theorem advance_spec {t : Task L D C} {d : D} {held : List (L × Mode)} {k : Prog L D Unit}
    (hk : o.Keeps (A t.call) t.prog t.held fun held _ => held = []) (hg : o.Guarded t.held)
    (hok : t.prog.atAccess = true → A t.call s.data)
    (h : s.advance t.held t.prog = some (d, held, k)) :
    (o.Keeps (A t.call) k held fun held _ => held = []) ∧ o.Guarded held ∧
      ∀ h ∈ held, h ∈ t.held ∨ s.Free h.1 h.2 := by
  obtain ⟨c, held₀, p⟩ := t
  cases p with
  | ret a => cases h
  | acquire x m k₀ =>
    simp only [System.advance, Option.ite_none_right_eq_some, Option.some.injEq, Prod.mk.injEq] at h
    obtain ⟨hfree, -, rfl, rfl⟩ := h
    obtain ⟨hx, hk⟩ := hk
    refine ⟨hk, ?_, ?_⟩
    · intro y g hy hyg
      rcases List.mem_cons.1 hy with he | hold
      · -- the write side of a guarded lock is not taken this way
        obtain ⟨rfl, rfl⟩ := Prod.mk.inj he
        rw [MayTake, hyg] at hx
        cases hx.1
      · exact List.mem_cons_of_mem _ (hg y g hold hyg)
    · intro h hh
      rcases List.mem_cons.1 hh with rfl | hold
      · exact Or.inr hfree
      · exact Or.inl hold
  | release x k₀ =>
    simp only [System.advance, Option.some.injEq, Prod.mk.injEq] at h
    obtain ⟨-, rfl, rfl⟩ := h
    exact ⟨hk.2, hk.1, fun h hh => Or.inl (mem_dropGuard hh)⟩
  | tryWrite x k₀ =>
    simp only [System.advance] at h
    split_ifs at h with hfree
    · simp only [Option.some.injEq, Prod.mk.injEq] at h
      obtain ⟨-, rfl, rfl⟩ := h
      refine ⟨hk.2.1, hk.1, ?_⟩
      intro h hh
      rcases List.mem_cons.1 hh with rfl | hold
      · exact Or.inr hfree
      · exact Or.inl hold
    · simp only [Option.some.injEq, Prod.mk.injEq] at h
      obtain ⟨-, rfl, rfl⟩ := h
      exact ⟨hk.2.2, hg, fun h hh => Or.inl hh⟩
  | access f k₀ =>
    simp only [System.advance, Option.some.injEq, Prod.mk.injEq] at h
    obtain ⟨-, rfl, rfl⟩ := h
    exact ⟨hk s.data (hok rfl), hg, fun h hh => Or.inl hh⟩

theorem Inv.call (h : o.Inv A s) {c : C} (hc : o.Keeps (A c) (body c) [] fun held _ => held = []) :
    o.Inv A { s with tasks := s.tasks ++ [⟨c, [], body c⟩] } := by
  have hnew {t : Task L D C} (ht : t ∈ s.tasks ++ [⟨c, [], body c⟩]) :
      t ∈ s.tasks ∨ t = ⟨c, [], body c⟩ := by simpa using ht
  refine ⟨?_, ?_, ?_⟩
  · intro t ht
    rcases hnew ht with hold | rfl
    · exact h.keeps t hold
    · exact hc
  · intro t ht
    rcases hnew ht with hold | rfl
    · exact h.guarded t hold
    · intro x g hx
      cases hx
  · intro i j t u x m hi hj hij hx hm
    rcases get_append hi with hi | ⟨-, rfl⟩
    · rcases get_append hj with hj | ⟨-, rfl⟩
      · exact h.exclusive i j t u x m hi hj hij hx hm
      · cases hm
    · cases hx

theorem Inv.advance (h : o.Inv A s) {i : ℕ} {t : Task L D C} (ht : s.tasks[i]? = some t)
    (hok : t.prog.atAccess = true → A t.call s.data) {d : D} {held : List (L × Mode)}
    {k : Prog L D Unit} (ha : s.advance t.held t.prog = some (d, held, k)) :
    o.Inv A ⟨d, s.tasks.set i { t with held := held, prog := k }⟩ := by
  have hmem := List.mem_of_getElem? ht
  obtain ⟨hkeeps, hguarded, hfrom⟩ := advance_spec (h.keeps t hmem) (h.guarded t hmem) hok ha
  refine ⟨?_, ?_, ?_⟩
  · intro u hu
    obtain ⟨j, hj⟩ := List.mem_iff_getElem?.1 hu
    rcases get_set hj with ⟨-, rfl⟩ | ⟨-, hold⟩
    · exact hkeeps
    · exact h.keeps u (List.mem_of_getElem? hold)
  · intro u hu
    obtain ⟨j, hj⟩ := List.mem_iff_getElem?.1 hu
    rcases get_set hj with ⟨-, rfl⟩ | ⟨-, hold⟩
    · exact hguarded
    · exact h.guarded u (List.mem_of_getElem? hold)
  · intro j j' u u' x m hj hj' hjj hx hm
    rcases get_set hj with ⟨rfl, rfl⟩ | ⟨-, hold⟩ <;> rcases get_set hj' with ⟨rfl, rfl⟩ | ⟨-, hold'⟩
    · exact hjj rfl
    · rcases hfrom _ hx with hx | hfree
      · exact h.exclusive j j' t u' x m ht hold' hjj hx hm
      · have hread := hfree u' (List.mem_of_getElem? hold') _ hm rfl
        simp at hread
    · rcases hfrom _ hm with hm | hfree
      · exact h.exclusive j j' u t x m hold ht hjj hx hm
      · have hread := hfree u (List.mem_of_getElem? hold) _ hx rfl
        simp at hread
    · exact h.exclusive j j' u u' x m hold hold' hjj hx hm

/-- A system whose calls keep to the discipline, in every run in which the data are as they
assume. -/
theorem Inv.of_run (hbody : ∀ c, o.Keeps (A c) (body c) [] fun held _ => held = [])
    {evs : List (TaskEvent C)} {d : D}
    (hr : Run (System.step body) (System.Meets A) ⟨d, []⟩ evs s) : o.Inv A s := by
  refine hr.inv (o.Inv A) ⟨by simp, by simp, by simp⟩ ?_
  intro s₁ e s₂ hi hok hs
  cases e with
  | call c =>
    injection hs with hs
    subst hs
    exact hi.call (hbody c)
  | run i =>
    obtain ⟨t, ht, hs⟩ := Option.bind_eq_some_iff.1 hs
    obtain ⟨⟨d, held, k⟩, ha, rfl⟩ := Option.map_eq_some_iff.1 hs
    exact hi.advance ht (hok t (by simp [ht])) ha

theorem Inv.mayTake (h : o.Inv A s) {t : Task L D C} (ht : t ∈ s.tasks) {x : L} {m : Mode}
    (hn : t.prog.next = some (x, m)) : o.MayTake t.held x m := by
  have hk := h.keeps t ht
  obtain ⟨c, held, p⟩ := t
  cases p with
  | acquire y m' k =>
    simp only [Prog.next, Option.some.injEq, Prod.mk.injEq] at hn
    obtain ⟨rfl, rfl⟩ := hn
    exact hk.1
  | _ => cases hn

/-- The lock a task waits for has no guard. -/
theorem Inv.waits (h : o.Inv A s) {i : ℕ} {x : L} {m : Mode} (hw : s.Waits i x m) :
    o.guard x = none := by
  obtain ⟨hnext, hblocked⟩ := hw
  obtain ⟨t, ht, hp⟩ := Option.bind_eq_some_iff.1 hnext
  cases hg : o.guard x with
  | none => rfl
  | some g =>
    exfalso
    have hmem := List.mem_of_getElem? ht
    have ht' := h.mayTake hmem hp
    rw [MayTake, hg] at ht'
    obtain ⟨rfl, hnot, ⟨y, my⟩, hy, rfl⟩ := ht'
    rcases hblocked with hfree | ⟨-, u, hu, hn⟩
    · simp only [System.Free, not_forall] at hfree
      obtain ⟨u, hu, ⟨z, mz⟩, hz, rfl, hmode⟩ := hfree
      have hwrite : mz = .write := by cases mz <;> simp_all
      subst hwrite
      -- the holder has the write side of the guard, and the waiting task has the guard too
      have hgu := h.guarded u hu z y hz hg
      obtain ⟨j, hj⟩ := List.mem_iff_getElem?.1 hu
      by_cases hji : j = i
      · subst hji
        obtain rfl := Option.some.inj (ht.symm.trans hj)
        exact hnot _ hz rfl
      · exact h.exclusive j i u t y my hj ht hji hgu hy
    · have hu' := h.mayTake hu hn
      rw [MayTake, hg] at hu'
      cases hu'.1

/-- A task waits for a lock only while the locks it holds rank below. -/
theorem Inv.waits_rank (h : o.Inv A s) {i : ℕ} {x y : L} {m : Mode} (hw : s.Waits i x m)
    (hh : s.Holds i y) : o.rank y < o.rank x := by
  have hg := h.waits hw
  obtain ⟨t, ht, hp⟩ := Option.bind_eq_some_iff.1 hw.1
  obtain ⟨u, hu, h', hy, rfl⟩ := hh
  obtain rfl := Option.some.inj (ht.symm.trans hu)
  have hmay := h.mayTake (List.mem_of_getElem? ht) hp
  rw [MayTake, hg] at hmay
  exact hmay _ hy

/-- Along a chain of waiting tasks the ranks of the locks waited for grow. -/
theorem Inv.chain (h : o.Inv A s) {i j : ℕ} (hc : Relation.TransGen s.WaitsFor i j) :
    ∃ x m y, s.Waits i x m ∧ s.Holds j y ∧ o.rank x ≤ o.rank y := by
  induction hc with
  | single hw =>
    obtain ⟨x, m, hx, hy⟩ := hw
    exact ⟨x, m, x, hx, hy, le_rfl⟩
  | tail _ hw ih =>
    obtain ⟨x, m, y, hx, hy, hle⟩ := ih
    obtain ⟨z, mz, hz, hk⟩ := hw
    exact ⟨x, m, z, hx, hk, hle.trans (h.waits_rank hz hy).le⟩

theorem Inv.no_cycle (h : o.Inv A s) (i : ℕ) : ¬Relation.TransGen s.WaitsFor i i := by
  intro hc
  obtain ⟨x, m, y, hx, hy, hle⟩ := h.chain hc
  exact absurd (h.waits_rank hx hy) hle.not_gt

end Discipline

end Lib
