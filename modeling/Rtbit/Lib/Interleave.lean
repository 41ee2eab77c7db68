import Mathlib.Tactic

/-! Lists taken in turn. A queue of lists gives the first item of the list at its front and puts what is
left of that list at its end; a list that is empty is dropped. What it gives in all is the round robin of
the lists: their first items, then their second ones, and so on. -/

namespace Lib

variable {α β : Type*}

/-- The next item of a queue of lists. -/
def pop : List (List α) → Option (α × List (List α))
  | [] => none
  | [] :: rest => pop rest
  | (x :: xs) :: rest => some (x, rest ++ [xs])

/-- What a state gives until it has no next item. -/
def collect {S : Type*} (next : S → Option (α × S)) : ℕ → S → Option (List α)
  | 0, _ => none
  | fuel + 1, s =>
    match next s with
    | none => some []
    | some (x, s') => (collect next fuel s').map (x :: ·)

def heads (all : List (List α)) : List α := all.filterMap List.head?

/-- What is left of the lists that are not empty. -/
def tails (all : List (List α)) : List (List α) :=
  (all.filter fun l => l ≠ []).map List.tail

def longest (all : List (List α)) : ℕ := (all.map List.length).foldr max 0

/-- The first items, the second items, and so on. -/
def roundRobin (all : List (List α)) : List α :=
  (List.range (longest all)).flatMap fun k => all.filterMap (·[k]?)

/-- How many items there are. -/
def items (all : List (List α)) : ℕ := all.flatten.length

variable {all rest front back : List (List α)} {l : List α}

section

variable (x : α) (xs : List α) (rest : List (List α))

@[simp] theorem heads_nil : heads ([] : List (List α)) = [] := rfl

@[simp] theorem heads_cons_nil : heads ([] :: rest) = heads rest := rfl

@[simp] theorem heads_cons_cons : heads ((x :: xs) :: rest) = x :: heads rest := rfl

@[simp] theorem tails_nil : tails ([] : List (List α)) = [] := rfl

@[simp] theorem tails_cons_nil : tails ([] :: rest) = tails rest := rfl

@[simp] theorem tails_cons_cons : tails ((x :: xs) :: rest) = xs :: tails rest := by
  simp [tails]

end

/-- A round takes the heads and leaves the tails. -/
theorem perm_heads_tails (all : List (List α)) :
    all.flatten.Perm (heads all ++ (tails all).flatten) := by
  induction all with
  | nil => exact .refl _
  | cons l rest ih =>
    cases l with
    | nil => exact ih
    | cons x xs =>
      rw [heads_cons_cons, tails_cons_cons, List.flatten_cons, List.flatten_cons, List.cons_append,
        List.cons_append]
      refine .cons x ((ih.append_left xs).trans ?_)
      rw [← List.append_assoc, ← List.append_assoc]
      exact List.perm_append_comm.append_right _

theorem length_heads_tails (all : List (List α)) :
    (heads all).length + items (tails all) = items all := by
  rw [items, items, (perm_heads_tails all).length_eq, List.length_append]

theorem heads_tails_nil (h : items all = 0) : heads all = [] ∧ tails all = [] := by
  induction all with
  | nil => exact ⟨rfl, rfl⟩
  | cons l rest ih =>
    cases l with
    | nil => exact ih h
    | cons x xs => simp [items] at h

theorem items_tails_lt (h : items all ≠ 0) : items (tails all) < items all := by
  have hlen := length_heads_tails all
  have hpos : heads all ≠ [] := fun hnil => by
    induction all with
    | nil => exact h rfl
    | cons l rest ih =>
      cases l with
      | nil => exact ih h (length_heads_tails rest) hnil
      | cons x xs => simp at hnil
  have := List.length_pos_iff.2 hpos
  omega

/-! The closed form, round by round. -/

theorem longest_cons (l : List α) (rest : List (List α)) :
    longest (l :: rest) = max l.length (longest rest) := rfl

theorem length_le_longest (hl : l ∈ all) : l.length ≤ longest all := by
  induction all with
  | nil => simp at hl
  | cons l' rest ih =>
    rw [longest_cons]
    rcases List.mem_cons.1 hl with rfl | hl
    · exact Nat.le_max_left _ _
    · exact (ih hl).trans (Nat.le_max_right _ _)

theorem longest_tails (all : List (List α)) : longest (tails all) = longest all - 1 := by
  induction all with
  | nil => rfl
  | cons l rest ih =>
    cases l with
    | nil => rw [tails_cons_nil, ih, longest_cons, List.length_nil, Nat.zero_max]
    | cons x xs =>
      rw [tails_cons_cons, longest_cons, longest_cons, ih, List.length_cons]
      omega

theorem filterMap_tails (all : List (List α)) (k : ℕ) :
    (tails all).filterMap (·[k]?) = all.filterMap (·[k + 1]?) := by
  induction all with
  | nil => rfl
  | cons l rest ih =>
    cases l with
    | nil => exact ih
    | cons x xs =>
      rw [tails_cons_cons, List.filterMap_cons, List.filterMap_cons, List.getElem?_cons_succ, ih]

theorem roundRobin_nil : roundRobin ([] : List (List α)) = [] := rfl

theorem roundRobin_eq (all : List (List α)) :
    roundRobin all = heads all ++ roundRobin (tails all) := by
  have hheads : heads all = all.filterMap (·[0]?) := by
    simp only [heads, List.head?_eq_getElem?]
  unfold roundRobin
  simp only [longest_tails, filterMap_tails]
  rw [hheads]
  cases hn : longest all with
  | zero =>
    have hnone : all.filterMap (·[0]?) = [] := List.filterMap_eq_nil_iff.2 fun l hl => by
      rw [List.getElem?_eq_none (hn ▸ length_le_longest hl)]
    rw [hnone]
    rfl
  | succ n =>
    rw [List.range_succ_eq_map, List.flatMap_cons, List.flatMap_map]
    rfl

theorem roundRobin_of_items_zero (h : items all = 0) : roundRobin all = [] := by
  obtain ⟨hheads, htails⟩ := heads_tails_nil h
  rw [roundRobin_eq, hheads, htails]
  rfl

theorem roundRobin_perm (all : List (List α)) : (roundRobin all).Perm all.flatten := by
  by_cases h : items all = 0
  · rw [roundRobin_of_items_zero h, List.length_eq_zero_iff.1 h]
  · rw [roundRobin_eq]
    exact ((roundRobin_perm (tails all)).append_left _).trans (perm_heads_tails all).symm
termination_by items all
decreasing_by exact items_tails_lt h

theorem roundRobin_map (f : α → β) (all : List (List α)) :
    roundRobin (all.map (List.map f)) = (roundRobin all).map f := by
  have hlongest : longest (all.map (List.map f)) = longest all := by
    unfold longest
    rw [List.map_map]
    congr 1
    exact List.map_congr_left fun l _ => List.length_map f
  unfold roundRobin
  rw [hlongest, List.map_flatMap]
  refine List.flatMap_congr fun k _ => ?_
  rw [List.filterMap_map, List.map_filterMap]
  refine List.filterMap_congr fun l _ => ?_
  rw [Function.comp_apply, List.getElem?_map]

/-! What a queue gives. -/

theorem collect_pop_nil (all : List (List α)) (fuel : ℕ) :
    collect pop fuel ([] :: all) = collect pop fuel all := by
  cases fuel <;> rfl

theorem collect_pop_cons (x : α) (xs : List α) (all : List (List α)) (fuel : ℕ) :
    collect pop (fuel + 1) ((x :: xs) :: all) = (collect pop fuel (all ++ [xs])).map (x :: ·) := rfl

/-- The lists at the front give their heads, and what is left of them comes behind the others. -/
theorem collect_front (front back : List (List α)) (fuel : ℕ) :
    collect pop (fuel + (heads front).length) (front ++ back) =
      (collect pop fuel (back ++ tails front)).map (heads front ++ ·) := by
  induction front generalizing back fuel with
  | nil => simp
  | cons l front ih =>
    cases l with
    | nil =>
      rw [List.cons_append, collect_pop_nil, heads_cons_nil, tails_cons_nil]
      exact ih back fuel
    | cons x xs =>
      rw [heads_cons_cons, tails_cons_cons, List.length_cons, ← Nat.add_assoc, List.cons_append,
        collect_pop_cons, List.append_assoc, ih (back ++ [xs]) fuel, Option.map_map]
      simp [Function.comp_def]

/-- A queue comes to an end, and gives the round robin of its lists. -/
theorem collect_eq (all : List (List α)) {fuel : ℕ} (h : items all < fuel) :
    collect pop fuel all = some (roundRobin all) := by
  obtain ⟨rest, rfl⟩ : ∃ rest, fuel = rest + (heads all).length :=
    ⟨fuel - (heads all).length, by have := length_heads_tails all; omega⟩
  have hround := collect_front all [] rest
  rw [List.append_nil, List.nil_append] at hround
  rw [hround]
  have hlen := length_heads_tails all
  by_cases hzero : items all = 0
  · obtain ⟨hheads, htails⟩ := heads_tails_nil hzero
    obtain ⟨fuel, rfl⟩ : ∃ fuel, rest = fuel + 1 := ⟨rest - 1, by omega⟩
    rw [roundRobin_of_items_zero hzero, htails, hheads]
    rfl
  · rw [collect_eq (tails all) (by omega), Option.map_some, ← roundRobin_eq]
termination_by items all
decreasing_by exact items_tails_lt hzero

theorem collect_mono {S : Type*} {next : S → Option (α × S)} {fuel fuel' : ℕ} {s : S}
    (h : collect next fuel s = some l) (hle : fuel ≤ fuel') : collect next fuel' s = some l := by
  induction fuel generalizing s l fuel' with
  | zero => simp [collect] at h
  | succ fuel ih =>
    obtain ⟨fuel', rfl⟩ : ∃ n, fuel' = n + 1 := ⟨fuel' - 1, by omega⟩
    simp only [collect] at h ⊢
    cases hnext : next s with
    | none => rwa [hnext] at h
    | some r =>
      simp only [hnext, Option.map_eq_some_iff] at h ⊢
      obtain ⟨l', hl', rfl⟩ := h
      exact ⟨l', ih hl' (by omega), rfl⟩

/-- What a queue gives does not depend on how long it is asked. -/
theorem eq_roundRobin_of_collect {fuel : ℕ} (h : collect pop fuel all = some l) :
    l = roundRobin all := by
  have hlong := collect_mono h (Nat.le_max_left fuel (items all + 1))
  rw [collect_eq all (Nat.le_max_right _ _)] at hlong
  exact (Option.some.inj hlong).symm

theorem roundRobin_front (front back : List (List α)) :
    roundRobin (front ++ back) = heads front ++ roundRobin (back ++ tails front) := by
  have hlen : (heads front).length + items (back ++ tails front) = items (front ++ back) := by
    have := length_heads_tails front
    simp only [items, List.flatten_append, List.length_append] at this ⊢
    omega
  have h := collect_front front back (items (back ++ tails front) + 1)
  rw [collect_eq _ (by omega), collect_eq _ (by omega)] at h
  exact Option.some.inj h

theorem roundRobin_cons_nil (rest : List (List α)) : roundRobin ([] :: rest) = roundRobin rest := by
  have h := roundRobin_front [[]] rest
  simpa using h

theorem roundRobin_cons_cons (x : α) (xs : List α) (rest : List (List α)) :
    roundRobin ((x :: xs) :: rest) = x :: roundRobin (rest ++ [xs]) := by
  have h := roundRobin_front [x :: xs] rest
  simpa using h

/-! Items of one list among those of all. -/

theorem flatMap_getElem? (l : List α) (n : ℕ) :
    ((List.range n).flatMap fun k => l[k]?.toList) = l.take n := by
  induction n with
  | zero => rfl
  | succ n ih =>
    rw [List.range_succ, List.flatMap_append, ih, List.flatMap_singleton, List.take_add_one]

/-- The round robin has the items of a list in their order. -/
theorem filter_roundRobin {P : α → Bool} (hl : ∀ x ∈ l, P x = true)
    (hfront : ∀ m ∈ front, ∀ x ∈ m, P x = false) (hback : ∀ m ∈ back, ∀ x ∈ m, P x = false) :
    (roundRobin (front ++ l :: back)).filter P = l := by
  have hnone : ∀ side : List (List α), (∀ m ∈ side, ∀ x ∈ m, P x = false) → ∀ k : ℕ,
      (side.filterMap (·[k]?)).filter P = [] := fun side hside k => by
    rw [List.filter_eq_nil_iff]
    intro x hx
    obtain ⟨m, hm, hget⟩ := List.mem_filterMap.1 hx
    simp [hside m hm x (List.mem_of_getElem? hget)]
  have hround : ∀ k, ((front ++ l :: back).filterMap (·[k]?)).filter P = l[k]?.toList := fun k => by
    rw [List.filterMap_append, List.filter_append, hnone front hfront, List.nil_append,
      List.filterMap_cons]
    cases hget : l[k]? with
    | none => exact hnone back hback k
    | some x =>
      simp [hl x (List.mem_of_getElem? hget), hnone back hback k]
  unfold roundRobin
  rw [List.filter_flatMap]
  simp only [hround]
  rw [flatMap_getElem?, List.take_of_length_le (length_le_longest (by simp))]

section

variable {ι : Type*} (owner : α → ι)

/-- The items of a list have one owner, and those of two lists two. -/
def Owned (all : List (List α)) : Prop :=
  (∀ l ∈ all, ∀ x ∈ l, ∀ y ∈ l, owner x = owner y) ∧
    all.Pairwise fun a b => ∀ x ∈ a, ∀ y ∈ b, owner x ≠ owner y

variable {owner}

theorem Owned.sublist (h : Owned owner all) (hsub : rest.Sublist all) : Owned owner rest :=
  ⟨fun l hl => h.1 l (hsub.subset hl), h.2.sublist hsub⟩

/-- The owners of the heads are distinct. -/
theorem Owned.heads (h : Owned owner all) : ((heads all).map owner).Nodup := by
  induction all with
  | nil => exact List.nodup_nil
  | cons l rest ih =>
    have hrest := ih (h.sublist (List.sublist_cons_self _ _))
    cases l with
    | nil => exact hrest
    | cons x xs =>
      rw [heads_cons_cons, List.map_cons, List.nodup_cons]
      refine ⟨fun hmem => ?_, hrest⟩
      obtain ⟨y, hy, hxy⟩ := List.mem_map.1 hmem
      obtain ⟨m, hm, hhead⟩ := List.mem_filterMap.1 hy
      exact (List.pairwise_cons.1 h.2).1 m hm x List.mem_cons_self y (List.mem_of_head? hhead) hxy.symm

theorem Owned.next {x : α} {xs : List α} (h : Owned owner ((x :: xs) :: rest)) :
    Owned owner (rest ++ [xs]) := by
  obtain ⟨hone, htwo⟩ := h
  rw [List.pairwise_cons] at htwo
  refine ⟨fun l hl => ?_, List.pairwise_append.2 ⟨htwo.2, List.pairwise_singleton _ _, ?_⟩⟩
  · rcases List.mem_append.1 hl with hl | hl
    · exact hone l (List.mem_cons_of_mem _ hl)
    · obtain rfl := List.mem_singleton.1 hl
      exact fun a ha b hb => hone _ List.mem_cons_self a (List.mem_cons_of_mem _ ha) b
        (List.mem_cons_of_mem _ hb)
  · intro a ha b hb y hy z hz
    obtain rfl := List.mem_singleton.1 hb
    exact (htwo.1 a ha z (List.mem_cons_of_mem _ hz) y hy).symm

theorem mem_roundRobin {z : α} : z ∈ roundRobin all ↔ ∃ l ∈ all, z ∈ l := by
  rw [(roundRobin_perm all).mem_iff, List.mem_flatten]

/-- What stands before the first item of an owner. -/
theorem takeWhile_owner [DecidableEq ι] {i : ι} {before after : List α} {z : α}
    (hbefore : ∀ w ∈ before, owner w ≠ i) (hz : owner z = i) :
    (before ++ z :: after).takeWhile (fun w => owner w ≠ i) = before := by
  rw [List.takeWhile_append_of_pos fun w hw => by simpa using hbefore w hw,
    List.takeWhile_cons_of_neg (by simpa using hz), List.append_nil]

/-- After the first item the other lists give their heads, up to the next item of its list. -/
theorem Owned.fair_first [DecidableEq ι] {x y : α} {xs B C : List α}
    (h : Owned owner ((x :: xs) :: rest)) (hall : roundRobin (rest ++ [xs]) = B ++ y :: C)
    (hxy : owner y = owner x) (hB : ∀ z ∈ B, owner z ≠ owner x) {j : ι} (hj : j ≠ owner x) :
    (B.map owner).count j = if j ∈ (B ++ C).map owner then 1 else 0 := by
  have hrest : Owned owner rest := h.sublist (List.sublist_cons_self _ _)
  have hother : ∀ m ∈ rest, ∀ z ∈ m, owner z ≠ owner x := fun m hm z hz =>
    ((List.pairwise_cons.1 h.2).1 m hm x List.mem_cons_self z hz).symm
  have hhead : ∀ {z}, z ∈ Lib.heads rest → ∃ m ∈ rest, z ∈ m := fun hz => by
    obtain ⟨m, hm, hmz⟩ := List.mem_filterMap.1 hz
    exact ⟨m, hm, List.mem_of_head? hmz⟩
  -- the list of the first item has another one
  obtain ⟨x', xs', rfl⟩ : ∃ x' xs', xs = x' :: xs' := by
    refine List.exists_cons_of_ne_nil fun hnil => ?_
    have hy : y ∈ roundRobin (rest ++ [xs]) := by simp [hall]
    obtain ⟨m, hm, hym⟩ := mem_roundRobin.1 hy
    rw [hnil] at hm
    rcases List.mem_append.1 hm with hm | hm
    · exact hother m hm y hym hxy
    · simp [List.mem_singleton.1 hm] at hym
  have hx' : owner x' = owner x := h.1 _ List.mem_cons_self x' (by simp) x List.mem_cons_self
  have hround : roundRobin (rest ++ [x' :: xs']) =
      Lib.heads rest ++ x' :: roundRobin (tails rest ++ [xs']) := by
    rw [roundRobin_front, List.singleton_append, roundRobin_cons_cons]
  have hbefore : B = Lib.heads rest := by
    have htake := @takeWhile_owner α ι owner _ _ B C y hB hxy
    rw [← hall, hround, takeWhile_owner (fun w hw => ?_) hx'] at htake
    · exact htake.symm
    · obtain ⟨m, hm, hw⟩ := hhead hw
      exact hother m hm w hw
  subst hbefore
  rw [hrest.heads.count]
  refine if_congr ?_ rfl rfl
  rw [List.map_append, List.mem_append]
  refine ⟨.inl, fun hmem => hmem.elim id fun hC => ?_⟩
  obtain ⟨z, hz, rfl⟩ := List.mem_map.1 hC
  obtain ⟨m, hm, hzm⟩ := mem_roundRobin.1 (show z ∈ roundRobin (rest ++ [x' :: xs']) by simp [hall, hz])
  rcases List.mem_append.1 hm with hm | hm
  · -- the head of that list has the same owner
    obtain ⟨w, m', rfl⟩ := List.exists_cons_of_ne_nil (List.ne_nil_of_mem hzm)
    refine List.mem_map.2 ⟨w, List.mem_filterMap.2 ⟨_, hm, rfl⟩, ?_⟩
    exact hrest.1 _ hm w List.mem_cons_self z hzm
  · rw [List.mem_singleton.1 hm] at hzm
    exact absurd (h.1 _ List.mem_cons_self z (List.mem_cons_of_mem _ hzm) x List.mem_cons_self) hj

/-- Between an item and the next one of its list, every other list that has an item left gets one. -/
theorem roundRobin_fair [DecidableEq ι] (h : Owned owner all) {A B C : List α} {x y : α}
    (hall : roundRobin all = A ++ x :: (B ++ y :: C)) (hxy : owner y = owner x)
    (hB : ∀ z ∈ B, owner z ≠ owner x) {j : ι} (hj : j ≠ owner x) :
    (B.map owner).count j = if j ∈ (B ++ C).map owner then 1 else 0 := by
  obtain ⟨n, hn⟩ : ∃ n, items all + all.length = n := ⟨_, rfl⟩
  induction n using Nat.strong_induction_on generalizing all A with
  | _ n ih =>
    cases all with
    | nil => simp [roundRobin_nil] at hall
    | cons l rest =>
      cases l with
      | nil =>
        rw [roundRobin_cons_nil] at hall
        exact ih _ (by simp [items] at hn ⊢; omega) (h.sublist (List.sublist_cons_self _ _)) hall rfl
      | cons x₀ xs =>
        rw [roundRobin_cons_cons] at hall
        cases A with
        | nil =>
          obtain ⟨rfl, hnext⟩ := List.cons.inj hall
          exact h.fair_first hnext hxy hB hj
        | cons a A =>
          rw [List.cons_append, List.cons.injEq] at hall
          exact ih _ (by simp [items] at hn ⊢; omega) h.next hall.2 rfl

end

/-! Lists with their owners. -/

section

variable {ι : Type*}

/-- Each item with the key of its list. -/
def tag (all : List (ι × List α)) : List (List (ι × α)) := all.map fun l => l.2.map (Prod.mk l.1)

theorem tag_untag (all : List (ι × List α)) : (tag all).map (List.map Prod.snd) = all.map Prod.snd := by
  rw [tag, List.map_map]
  refine List.map_congr_left fun l _ => ?_
  simp [Function.comp_def]

variable {all : List (ι × List α)}

theorem tag_owned (h : (all.map Prod.fst).Nodup) : Owned Prod.fst (tag all) := by
  have hkey : ∀ {l : ι × List α} {x}, x ∈ l.2.map (Prod.mk l.1) → x.1 = l.1 := fun hx => by
    obtain ⟨y, -, rfl⟩ := List.mem_map.1 hx
    rfl
  refine ⟨fun m hm x hx y hy => ?_, ?_⟩
  · obtain ⟨l, -, rfl⟩ := List.mem_map.1 hm
    rw [hkey hx, hkey hy]
  · refine List.pairwise_map.2 ((List.pairwise_map.1 h).imp fun hne x hx y hy => ?_)
    rwa [hkey hx, hkey hy]

/-- The list of a key is what the round robin has under it. -/
theorem filter_tag [DecidableEq ι] (h : (all.map Prod.fst).Nodup) {i : ι} {l : List α}
    (hl : (i, l) ∈ all) : (roundRobin (tag all)).filter (fun x => x.1 = i) = l.map (Prod.mk i) := by
  obtain ⟨front, back, rfl⟩ := List.append_of_mem hl
  have hside : ∀ m ∈ front ++ back, ∀ x ∈ m.2.map (Prod.mk m.1), decide (x.1 = i) = false := by
    intro m hm x hx
    obtain ⟨y, -, rfl⟩ := List.mem_map.1 hx
    rw [List.map_append, List.map_cons, List.nodup_middle, ← List.map_append, List.nodup_cons] at h
    exact decide_eq_false fun he => h.1 (List.mem_map.2 ⟨m, hm, he⟩)
  rw [tag, List.map_append, List.map_cons]
  refine filter_roundRobin (fun x hx => ?_) (fun m hm => ?_) (fun m hm => ?_)
  · obtain ⟨y, -, rfl⟩ := List.mem_map.1 hx
    exact decide_eq_true rfl
  · obtain ⟨k, hk, rfl⟩ := List.mem_map.1 hm
    exact hside k (List.mem_append_left _ hk)
  · obtain ⟨k, hk, rfl⟩ := List.mem_map.1 hm
    exact hside k (List.mem_append_right _ hk)

end

end Lib
