import Mathlib.Tactic

/-! A tree whose nodes stand in one list, each with the index of its parent and the indices of its
children. A node is pushed at the end of the list and added to the children of its parent. -/

namespace Lib

class TreeNode (N : Type) (L : outParam Type) where
  label : N → L
  parent : N → Option ℕ
  children : N → List ℕ
  addChild : N → ℕ → N
  label_addChild : ∀ n i, label (addChild n i) = label n
  parent_addChild : ∀ n i, parent (addChild n i) = parent n
  children_addChild : ∀ n i, children (addChild n i) = children n ++ [i]

open TreeNode

variable {N L : Type} [TreeNode N L]

/-- Pushes a node below `p`, if that is a node. -/
def pushNode (nodes : List N) (p : ℕ) (node : N) : Option (List N) :=
  ((nodes ++ [node])[p]?).map fun parent =>
    (nodes ++ [node]).set p (addChild parent nodes.length)

def labelAt (nodes : List N) (i : ℕ) : Option L := nodes[i]?.map label

def parentAt (nodes : List N) (i : ℕ) : Option ℕ := nodes[i]?.bind parent

def childrenAt (nodes : List N) (i : ℕ) : List ℕ := (nodes[i]?.map children).getD []

/-- Every node but the root has a parent before it, and stands once among its children and nowhere
else. -/
structure Linked (nodes : List N) : Prop where
  nonempty : 0 < nodes.length
  root : parentAt nodes 0 = none
  parent_lt : ∀ i, 0 < i → i < nodes.length → ∃ p, parentAt nodes i = some p ∧ p < i
  listed : ∀ i j, (childrenAt nodes i).count j = if parentAt nodes j = some i then 1 else 0

/-- The labels on the path from below the root to a node. -/
inductive PathTo (nodes : List N) : ℕ → List L → Prop where
  | root : PathTo nodes 0 []
  | child {p i : ℕ} {path : List L} {l : L} (h : PathTo nodes p path)
      (hp : parentAt nodes i = some p) (hl : labelAt nodes i = some l) : PathTo nodes i (path ++ [l])

variable {nodes nodes' : List N} {node : N} {p i j : ℕ} {path : List L} {l : L}

/-- What is above the end of a path is the node it is below, and what is above that. -/
theorem prefix_concat_ne_iff {path' : List L} :
    path' <+: path ++ [l] ∧ path' ≠ path ++ [l] ↔ path' <+: path := by
  rw [List.prefix_concat_iff]
  constructor
  · rintro ⟨rfl | h, hne⟩
    · exact absurd rfl hne
    · exact h
  · intro h
    refine ⟨.inr h, fun he => ?_⟩
    have hle := h.length_le
    simp [he] at hle

/-! One push. -/

theorem pushNode_isSome (node : N) (hp : p < nodes.length) :
    ∃ nodes', pushNode nodes p node = some nodes' := by
  unfold pushNode
  rw [List.getElem?_append_left hp, List.getElem?_eq_getElem hp]
  exact ⟨_, rfl⟩

theorem length_pushNode (h : pushNode nodes p node = some nodes') :
    nodes'.length = nodes.length + 1 := by
  obtain ⟨parent, -, rfl⟩ := Option.map_eq_some_iff.1 h
  simp

section

variable (hp : p < nodes.length) (h : pushNode nodes p node = some nodes')

include hp h

theorem getElem?_pushNode (i : ℕ) :
    nodes'[i]? = if i = p then nodes[p]?.map (addChild · nodes.length)
      else if i = nodes.length then some node else nodes[i]? := by
  obtain ⟨parent, hparent, rfl⟩ := Option.map_eq_some_iff.1 h
  rw [List.getElem?_append_left hp] at hparent
  rw [List.getElem?_set]
  by_cases hi : i = p
  · subst hi
    rw [if_pos rfl, if_pos (by simp; omega), if_pos rfl, hparent]
    rfl
  · rw [if_neg (Ne.symm hi), if_neg hi]
    split_ifs with hlen
    · rw [hlen, List.getElem?_concat_length]
    · rcases Nat.lt_or_ge i nodes.length with hlt | hge
      · exact List.getElem?_append_left hlt
      · rw [List.getElem?_eq_none (by simp; omega), List.getElem?_eq_none hge]

/-- What a new child does not change is as it was. -/
theorem bind_pushNode {β : Type} (f : N → Option β) (hf : ∀ n i, f (addChild n i) = f n) (i : ℕ) :
    nodes'[i]?.bind f = if i = nodes.length then f node else nodes[i]?.bind f := by
  rw [getElem?_pushNode hp h]
  by_cases hi : i = p
  · subst hi
    rw [if_pos rfl, if_neg (by omega)]
    cases nodes[i]? with
    | none => rfl
    | some n => exact hf n _
  · rw [if_neg hi]
    split_ifs <;> rfl

theorem map_pushNode {β : Type} (f : N → β) (hf : ∀ n i, f (addChild n i) = f n) (i : ℕ) :
    nodes'[i]?.map f = if i = nodes.length then some (f node) else nodes[i]?.map f := by
  simp only [Option.map_eq_bind]
  exact bind_pushNode hp h (some ∘ f) (fun n i => congrArg some (hf n i)) i

theorem labelAt_pushNode (i : ℕ) :
    labelAt nodes' i = if i = nodes.length then some (label node) else labelAt nodes i :=
  map_pushNode hp h label label_addChild i

theorem parentAt_pushNode (i : ℕ) :
    parentAt nodes' i = if i = nodes.length then parent node else parentAt nodes i :=
  bind_pushNode hp h parent parent_addChild i

theorem childrenAt_pushNode (hnode : children node = []) (i : ℕ) :
    childrenAt nodes' i =
      if i = p then childrenAt nodes p ++ [nodes.length] else childrenAt nodes i := by
  unfold childrenAt
  rw [getElem?_pushNode hp h]
  split_ifs with hi hlen
  · rw [List.getElem?_eq_getElem hp]
    exact children_addChild _ _
  · subst hlen
    rw [List.getElem?_eq_none (Nat.le_refl _)]
    exact hnode
  · rfl

end

theorem parentAt_eq_none (h : nodes.length ≤ i) : parentAt nodes i = none := by
  rw [parentAt, List.getElem?_eq_none h]
  rfl

theorem Linked.lt (hl : Linked nodes) (h : parentAt nodes i = some p) : p < i ∧ i < nodes.length := by
  have hlen : i < nodes.length := Nat.lt_of_not_le fun hge => by
    simp [parentAt_eq_none hge] at h
  have hpos : 0 < i := Nat.pos_of_ne_zero fun h0 => by
    simp [h0, hl.root] at h
  obtain ⟨q, hq, hlt⟩ := hl.parent_lt i hpos hlen
  cases h.symm.trans hq
  exact ⟨hlt, hlen⟩

/-- A push keeps the links. -/
theorem Linked.push (hl : Linked nodes) (hp : p < nodes.length)
    (hparent : parent node = some p) (hnode : children node = [])
    (h : pushNode nodes p node = some nodes') : Linked nodes' := by
  have hlen := length_pushNode h
  have hpar := parentAt_pushNode hp h
  refine ⟨by omega, ?_, fun i hpos hi => ?_, fun i j => ?_⟩
  · rw [hpar, if_neg (by have := hl.nonempty; omega), hl.root]
  · rw [hpar]
    split_ifs with hnew
    · exact ⟨p, hparent, by omega⟩
    · exact hl.parent_lt i hpos (by omega)
  · rw [hpar, childrenAt_pushNode hp h hnode]
    by_cases hj : j = nodes.length
    · -- the new node stood nowhere
      have hnone : ∀ k, (childrenAt nodes k).count j = 0 := fun k => by
        rw [hl.listed, parentAt_eq_none (by omega)]
        rfl
      rw [if_pos hj, hparent]
      by_cases hi : i = p
      · rw [if_pos hi, List.count_append, hnone, hj, hi, if_pos rfl]
        simp
      · rw [if_neg hi, hnone, if_neg fun he => hi (Option.some.inj he).symm]
    · rw [if_neg hj, ← hl.listed]
      split_ifs with hi
      · rw [List.count_append, List.count_singleton, hi]
        simp [Ne.symm hj]
      · rfl

/-! Paths. -/

theorem PathTo.lt (hl : Linked nodes) (h : PathTo nodes i path) : i < nodes.length := by
  cases h with
  | root => exact hl.nonempty
  | child h hp hl' => exact (hl.lt hp).2

theorem Linked.exists_path (hl : Linked nodes) (hi : i < nodes.length) :
    ∃ path, PathTo nodes i path := by
  induction i using Nat.strong_induction_on with
  | _ i ih =>
    rcases Nat.eq_zero_or_pos i with rfl | hpos
    · exact ⟨[], .root⟩
    · obtain ⟨p, hp, hlt⟩ := hl.parent_lt i hpos hi
      obtain ⟨path, hpath⟩ := ih p hlt (by omega)
      have hlabel : labelAt nodes i = some (label nodes[i]) := by
        rw [labelAt, List.getElem?_eq_getElem hi]
        rfl
      exact ⟨_, hpath.child hp hlabel⟩

theorem PathTo.child_inv (h : PathTo nodes i (path ++ [l])) :
    ∃ p, PathTo nodes p path ∧ parentAt nodes i = some p ∧ labelAt nodes i = some l := by
  generalize hfull : path ++ [l] = full at h
  cases h with
  | root => simp at hfull
  | @child p _ path' l' h hp hl =>
    obtain ⟨rfl, hlabel⟩ := List.append_inj' hfull rfl
    cases hlabel
    exact ⟨p, h, hp, hl⟩

theorem PathTo.nil_inv (h : PathTo nodes i []) : i = 0 := by
  generalize hfull : ([] : List L) = full at h
  cases h with
  | root => rfl
  | child h hp hl => simp at hfull

/-- A node has one path. -/
theorem PathTo.unique (hl : Linked nodes) {path' : List L} (h : PathTo nodes i path)
    (h' : PathTo nodes i path') : path = path' := by
  induction h generalizing path' with
  | root =>
    cases h' with
    | root => rfl
    | child _ hp _ => simp [hl.root] at hp
  | child h hp hlabel ih =>
    cases h' with
    | root => simp [hl.root] at hp
    | child h' hp' hlabel' =>
      cases hp.symm.trans hp'
      cases hlabel.symm.trans hlabel'
      rw [ih h']

theorem PathTo.push (hp : p < nodes.length) (hl : Linked nodes)
    (hpush : pushNode nodes p node = some nodes') (h : PathTo nodes i path) :
    PathTo nodes' i path := by
  induction h with
  | root => exact .root
  | child h hparent hlabel ih =>
    have hne := (hl.lt hparent).2.ne
    refine .child ih ?_ ?_
    · rwa [parentAt_pushNode hp hpush, if_neg hne]
    · rwa [labelAt_pushNode hp hpush, if_neg hne]

/-- A node that was there has the path that it had. -/
theorem PathTo.of_push (hp : p < nodes.length) (hl : Linked nodes)
    (hpush : pushNode nodes p node = some nodes') (hi : i < nodes.length)
    (h : PathTo nodes' i path) : PathTo nodes i path := by
  induction h with
  | root => exact .root
  | child h hparent hlabel ih =>
    rw [parentAt_pushNode hp hpush, if_neg hi.ne] at hparent
    rw [labelAt_pushNode hp hpush, if_neg hi.ne] at hlabel
    have hlt := hl.lt hparent
    exact .child (ih (by omega)) hparent hlabel

/-- The paths after a push below a node: those that were there, and that of the new node. -/
theorem pathTo_push_iff (hp : p < nodes.length) (hl : Linked nodes) (hparent : parent node = some p)
    (hnode : children node = []) (hpush : pushNode nodes p node = some nodes')
    (h : PathTo nodes p path) {path' : List L} :
    PathTo nodes' i path' ↔
      PathTo nodes i path' ∨ i = nodes.length ∧ path' = path ++ [label node] := by
  have hl' := hl.push hp hparent hnode hpush
  have hnew : PathTo nodes' nodes.length (path ++ [label node]) := by
    refine .child (h.push hp hl hpush) ?_ ?_
    · rw [parentAt_pushNode hp hpush, if_pos rfl, hparent]
    · rw [labelAt_pushNode hp hpush, if_pos rfl]
  constructor
  · intro hi
    have hlt := hi.lt hl'
    rw [length_pushNode hpush] at hlt
    rcases Nat.lt_succ_iff_lt_or_eq.1 hlt with hlt | rfl
    · exact .inl (hi.of_push hp hl hpush hlt)
    · exact .inr ⟨rfl, hi.unique hl' hnew⟩
  · rintro (hi | ⟨rfl, rfl⟩)
    · exact hi.push hp hl hpush
    · exact hnew

end Lib
