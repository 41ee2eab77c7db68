import Mathlib.Tactic

/-! Files. A name refers to an inode and a handle is the inode it was opened with: renaming
moves the name only, so that a handle may come to write to what another name refers to. -/

namespace Lib

structure Files (N : Type) where
  /-- The bytes of each inode. -/
  inodes : List (List UInt8)
  names : N → Option ℕ

namespace Files

variable {N : Type} [DecidableEq N]

def data (fs : Files N) (i : ℕ) : List UInt8 := fs.inodes.getD i []

def read (fs : Files N) (n : N) : Option (List UInt8) := (fs.names n).map fs.data

/-- Opens the file to write it from its start; it is created if it is missing and truncated if it
is not. -/
def openTruncate (fs : Files N) (n : N) : ℕ × Files N :=
  match fs.names n with
  | some i => (i, { fs with inodes := fs.inodes.set i [] })
  | none =>
    (fs.inodes.length, ⟨fs.inodes ++ [[]], Function.update fs.names n (some fs.inodes.length)⟩)

/-- Writes at the start of the inode. -/
def write (fs : Files N) (i : ℕ) (bytes : List UInt8) : Files N :=
  { fs with inodes := fs.inodes.set i (bytes ++ (fs.data i).drop bytes.length) }

/-- Writes at an offset; a gap before it is filled with zeros. -/
def writeAt (fs : Files N) (i offset : ℕ) (bytes : List UInt8) : Files N :=
  { fs with
    inodes := fs.inodes.set i
      ((fs.data i).takeD offset 0 ++ bytes ++ (fs.data i).drop (offset + bytes.length)) }

/-- `none` if there is no such file. -/
def rename (fs : Files N) (source target : N) : Option (Files N) :=
  (fs.names source).map fun i =>
    { fs with names := Function.update (Function.update fs.names source none) target (some i) }

def remove (fs : Files N) (n : N) : Files N :=
  { fs with names := Function.update fs.names n none }

/-- The names refer to inodes that exist, each to its own. -/
structure Wf (fs : Files N) : Prop where
  lt : ∀ n i, fs.names n = some i → i < fs.inodes.length
  inj : ∀ m n i, fs.names m = some i → fs.names n = some i → m = n

variable {fs fs' : Files N} {m n : N} {i j : ℕ} {bytes : List UInt8}

omit [DecidableEq N] in
theorem read_eq (h : fs.names n = some i) : fs.read n = some (fs.data i) := by
  rw [read, h, Option.map_some]

/-! Writing. -/

omit [DecidableEq N] in
@[simp] theorem names_write : (fs.write i bytes).names = fs.names := rfl

omit [DecidableEq N] in
@[simp] theorem length_write : (fs.write i bytes).inodes.length = fs.inodes.length := by
  simp [write]

omit [DecidableEq N] in
theorem data_write_self (h : i < fs.inodes.length) :
    (fs.write i bytes).data i = bytes ++ (fs.data i).drop bytes.length := by
  simp [write, data, List.getD_eq_getElem?_getD, h]

omit [DecidableEq N] in
theorem data_write_ne (h : j ≠ i) : (fs.write i bytes).data j = fs.data j := by
  simp [write, data, List.getD_eq_getElem?_getD, List.getElem?_set_ne h.symm]

omit [DecidableEq N] in
theorem Wf.write (h : fs.Wf) : (fs.write i bytes).Wf where
  lt n j hn := by
    rw [length_write]
    exact h.lt n j hn
  inj := h.inj

/-! Opening. -/

theorem openTruncate_cases (fs : Files N) (n : N) :
    (∃ i, fs.names n = some i ∧
      fs.openTruncate n = (i, { fs with inodes := fs.inodes.set i [] })) ∨
    fs.names n = none ∧ fs.openTruncate n =
      (fs.inodes.length, ⟨fs.inodes ++ [[]], Function.update fs.names n (some fs.inodes.length)⟩) := by
  unfold openTruncate
  cases h : fs.names n with
  | some i => exact Or.inl ⟨i, rfl, rfl⟩
  | none => exact Or.inr ⟨rfl, rfl⟩

theorem names_openTruncate (h : fs.openTruncate n = (i, fs')) :
    fs'.names n = some i ∧ ∀ m, m ≠ n → fs'.names m = fs.names m := by
  obtain ⟨j, hn, ho⟩ | ⟨hn, ho⟩ := openTruncate_cases fs n
  · rw [ho, Prod.mk.injEq] at h
    obtain ⟨rfl, rfl⟩ := h
    exact ⟨hn, fun _ _ => rfl⟩
  · rw [ho, Prod.mk.injEq] at h
    obtain ⟨rfl, rfl⟩ := h
    exact ⟨Function.update_self .., fun m hm => Function.update_of_ne hm ..⟩

theorem length_openTruncate (h : fs.openTruncate n = (i, fs')) :
    fs.inodes.length ≤ fs'.inodes.length := by
  obtain ⟨j, hn, ho⟩ | ⟨hn, ho⟩ := openTruncate_cases fs n
  · rw [ho, Prod.mk.injEq] at h
    rw [← h.2, List.length_set]
  · rw [ho, Prod.mk.injEq] at h
    rw [← h.2, List.length_append]
    omega

/-- The handle is for the inode of that name, or for a new one. -/
theorem openTruncate_inode (h : fs.openTruncate n = (i, fs')) :
    fs.names n = some i ∨ i = fs.inodes.length := by
  obtain ⟨j, hn, ho⟩ | ⟨hn, ho⟩ := openTruncate_cases fs n
  · rw [ho, Prod.mk.injEq] at h
    rw [← h.1]
    exact Or.inl hn
  · rw [ho, Prod.mk.injEq] at h
    exact Or.inr h.1.symm

theorem data_openTruncate (h : fs.openTruncate n = (i, fs')) :
    fs'.data i = [] ∧ ∀ j, j ≠ i → fs'.data j = fs.data j := by
  obtain ⟨k, hn, ho⟩ | ⟨hn, ho⟩ := openTruncate_cases fs n
  · rw [ho, Prod.mk.injEq] at h
    obtain ⟨rfl, rfl⟩ := h
    constructor
    · simp [data, List.getD_eq_getElem?_getD, List.getElem?_set]
      split_ifs <;> rfl
    · intro j hj
      simp [data, List.getD_eq_getElem?_getD, List.getElem?_set_ne hj.symm]
  · rw [ho, Prod.mk.injEq] at h
    obtain ⟨rfl, rfl⟩ := h
    constructor
    · simp [data, List.getD_eq_getElem?_getD]
    · intro j hj
      rcases Nat.lt_or_ge j fs.inodes.length with hlt | hge
      · simp [data, List.getD_eq_getElem?_getD, List.getElem?_append_left hlt]
      · simp only [data, List.getD_eq_getElem?_getD]
        rw [List.getElem?_eq_none hge, List.getElem?_eq_none (by simp; omega)]

theorem Wf.openTruncate_lt (h : fs.Wf) (ho : fs.openTruncate n = (i, fs')) :
    i < fs'.inodes.length := by
  obtain ⟨j, hn, he⟩ | ⟨hn, he⟩ := openTruncate_cases fs n
  · rw [he, Prod.mk.injEq] at ho
    rw [← ho.1, ← ho.2, List.length_set]
    exact h.lt n j hn
  · rw [he, Prod.mk.injEq] at ho
    rw [← ho.1, ← ho.2, List.length_append, List.length_singleton]
    omega

/-- No other name refers to the inode. -/
theorem Wf.openTruncate_ne (h : fs.Wf) (ho : fs.openTruncate n = (i, fs')) (hm : m ≠ n) :
    fs.names m ≠ some i := by
  intro hi
  rcases openTruncate_inode ho with hn | hn
  · exact hm (h.inj m n i hi hn)
  · have := h.lt m i hi
    omega

theorem Wf.openTruncate (h : fs.Wf) (ho : fs.openTruncate n = (i, fs')) : fs'.Wf := by
  obtain ⟨hself, hother⟩ := names_openTruncate ho
  have hlen := length_openTruncate ho
  refine ⟨?_, ?_⟩
  · intro m j hm
    by_cases hmn : m = n
    · rw [hmn, hself, Option.some.injEq] at hm
      rw [← hm]
      exact h.openTruncate_lt ho
    · rw [hother m hmn] at hm
      exact (h.lt m j hm).trans_le hlen
  · intro m m' j hm hm'
    by_cases hmn : m = n <;> by_cases hmn' : m' = n
    · rw [hmn, hmn']
    · rw [hmn, hself, Option.some.injEq] at hm
      rw [hother m' hmn', ← hm] at hm'
      exact absurd hm' (h.openTruncate_ne ho hmn')
    · rw [hmn', hself, Option.some.injEq] at hm'
      rw [hother m hmn, ← hm'] at hm
      exact absurd hm (h.openTruncate_ne ho hmn)
    · rw [hother m hmn] at hm
      rw [hother m' hmn'] at hm'
      exact h.inj m m' j hm hm'

/-! Renaming and removing. -/

theorem rename_eq_some (h : fs.rename m n = some fs') :
    ∃ i, fs.names m = some i ∧ fs'.inodes = fs.inodes ∧
      fs'.names = Function.update (Function.update fs.names m none) n (some i) := by
  obtain ⟨i, hi, rfl⟩ := Option.map_eq_some_iff.1 h
  exact ⟨i, hi, rfl, rfl⟩

/-- A name after another one has been removed. -/
theorem update_none {names : N → Option ℕ} {l : N}
    (h : Function.update names m none l = some i) : l ≠ m ∧ names l = some i := by
  by_cases hl : l = m
  · rw [hl, Function.update_self] at h
    cases h
  · rw [Function.update_of_ne hl] at h
    exact ⟨hl, h⟩

theorem Wf.remove (h : fs.Wf) : (fs.remove n).Wf where
  lt m i hm := h.lt m i (update_none hm).2
  inj m m' i hm hm' := h.inj m m' i (update_none hm).2 (update_none hm').2

theorem Wf.rename (h : fs.Wf) (hr : fs.rename m n = some fs') : fs'.Wf := by
  obtain ⟨i, hi, hinodes, hnames⟩ := rename_eq_some hr
  have hcases : ∀ l j, fs'.names l = some j → l = n ∧ j = i ∨ l ≠ m ∧ fs.names l = some j := by
    intro l j hl
    rw [hnames] at hl
    by_cases hln : l = n
    · rw [hln, Function.update_self, Option.some.injEq] at hl
      exact Or.inl ⟨hln, hl.symm⟩
    · rw [Function.update_of_ne hln] at hl
      exact Or.inr (update_none hl)
  refine ⟨?_, ?_⟩
  · intro l j hl
    rw [hinodes]
    rcases hcases l j hl with ⟨-, rfl⟩ | ⟨-, hl⟩
    · exact h.lt m j hi
    · exact h.lt l j hl
  · intro l l' j hl hl'
    rcases hcases l j hl with ⟨rfl, rfl⟩ | ⟨hlm, hl⟩ <;>
      rcases hcases l' _ hl' with ⟨rfl, hj⟩ | ⟨hlm', hl'⟩
    · rfl
    · exact absurd (h.inj l' m _ hl' hi) hlm'
    · subst hj
      exact absurd (h.inj l m _ hl hi) hlm
    · exact h.inj l l' j hl hl'

/-! What an operation leaves as it was. -/

/-- What is not called by a name in `P` has not changed. -/
structure Frame (P : N → Prop) (fs fs' : Files N) : Prop where
  length : fs.inodes.length ≤ fs'.inodes.length
  names : ∀ n, ¬P n → fs'.names n = fs.names n
  data : ∀ i, i < fs.inodes.length → (∀ n, P n → fs.names n ≠ some i) → fs'.data i = fs.data i
  /-- The names in `P` call what another of them did, or something new. -/
  old : ∀ n i, P n → fs'.names n = some i → (∃ m, P m ∧ fs.names m = some i) ∨ fs.inodes.length ≤ i

omit [DecidableEq N] in
theorem Frame.mono {P Q : N → Prop} (hf : Frame P fs fs') (h : ∀ n, P n → Q n) : Frame Q fs fs' where
  length := hf.length
  names n hn := hf.names n fun hp => hn (h n hp)
  data i hi hn := hf.data i hi fun n hp => hn n (h n hp)
  old n i hn hi := by
    by_cases hp : P n
    · exact (hf.old n i hp hi).imp_left fun ⟨m, hm, hmi⟩ => ⟨m, h m hm, hmi⟩
    · exact Or.inl ⟨n, hn, hf.names n hp ▸ hi⟩

omit [DecidableEq N] in
theorem Frame.data_of_name {P : N → Prop} (hf : Frame P fs fs') (h : fs.Wf) (hn : ¬P n)
    (hi : fs.names n = some i) : fs'.data i = fs.data i := by
  refine hf.data i (h.lt n i hi) fun m hm hmi => ?_
  rw [h.inj m n i hmi hi] at hm
  exact hn hm

omit [DecidableEq N] in
theorem Frame.read {P : N → Prop} (hf : Frame P fs fs') (h : fs.Wf) (hn : ¬P n) :
    fs'.read n = fs.read n := by
  rw [Files.read, Files.read, hf.names n hn]
  cases hi : fs.names n with
  | none => rfl
  | some i => rw [Option.map_some, Option.map_some, hf.data_of_name h hn hi]

theorem Frame.openTruncate (ho : fs.openTruncate n = (i, fs')) : Frame (· = n) fs fs' := by
  obtain ⟨hself, hother⟩ := names_openTruncate ho
  constructor
  case length => exact length_openTruncate ho
  case names => exact fun m hm => hother m hm
  case data =>
    intro j hj hn
    refine (data_openTruncate ho).2 j fun hji => ?_
    rcases openTruncate_inode ho with hi | hi
    · exact hn n rfl (hji ▸ hi)
    · omega
  case old =>
    rintro m j rfl hj
    rw [hself, Option.some.injEq] at hj
    subst hj
    rcases openTruncate_inode ho with hi | hi
    · exact Or.inl ⟨m, rfl, hi⟩
    · exact Or.inr hi.ge

theorem Frame.rename (h : fs.rename m n = some fs') : Frame (fun l => l = m ∨ l = n) fs fs' := by
  obtain ⟨i, hi, hinodes, hnames⟩ := rename_eq_some h
  constructor
  case length => rw [hinodes]
  case names =>
    intro l hl
    rw [hnames, Function.update_of_ne fun he => hl (Or.inr he),
      Function.update_of_ne fun he => hl (Or.inl he)]
  case data =>
    intro j _ _
    rw [Files.data, Files.data, hinodes]
  case old =>
    intro l j hl hj
    rw [hnames] at hj
    by_cases hln : l = n
    · rw [hln, Function.update_self, Option.some.injEq] at hj
      exact Or.inl ⟨m, Or.inl rfl, hj ▸ hi⟩
    · rw [Function.update_of_ne hln] at hj
      exact Or.inl ⟨l, hl, (update_none hj).2⟩

theorem Frame.remove : Frame (· = n) fs (fs.remove n) where
  length := le_rfl
  names m hm := Function.update_of_ne hm ..
  data _ _ _ := rfl
  old m i hm hi := by
    rw [hm] at hi
    exact absurd rfl (update_none hi).1

/-! Writing at an offset. -/

omit [DecidableEq N] in
@[simp] theorem names_writeAt {k : ℕ} : (fs.writeAt i k bytes).names = fs.names := rfl

omit [DecidableEq N] in
theorem Wf.writeAt {k : ℕ} (h : fs.Wf) : (fs.writeAt i k bytes).Wf where
  lt n j hn := by
    rw [Files.writeAt, List.length_set]
    exact h.lt n j hn
  inj := h.inj

omit [DecidableEq N] in
theorem data_writeAt_ne {k : ℕ} (h : j ≠ i) : (fs.writeAt i k bytes).data j = fs.data j := by
  simp [writeAt, data, List.getD_eq_getElem?_getD, List.getElem?_set_ne h.symm]

omit [DecidableEq N] in
/-- At the end of the inode. -/
theorem data_writeAt_end {k : ℕ} (h : i < fs.inodes.length) (hk : (fs.data i).length = k) :
    (fs.writeAt i k bytes).data i = fs.data i ++ bytes := by
  have hset : (fs.writeAt i k bytes).data i =
      (fs.data i).takeD k 0 ++ bytes ++ (fs.data i).drop (k + bytes.length) := by
    simp [writeAt, data, List.getD_eq_getElem?_getD, h]
  rw [hset, List.drop_of_length_le (by omega), List.append_nil, ← hk, List.takeD_eq_take _ le_rfl,
    List.take_length]

omit [DecidableEq N] in
theorem Frame.writeAt {k : ℕ} (h : fs.names n = some i) : Frame (· = n) fs (fs.writeAt i k bytes) where
  length := (List.length_set ..).ge
  names _ _ := rfl
  data _ _ hn := data_writeAt_ne fun hji => hn n rfl (hji ▸ h)
  old m _ hm hj := Or.inl ⟨m, hm, hj⟩

end Files

end Lib
