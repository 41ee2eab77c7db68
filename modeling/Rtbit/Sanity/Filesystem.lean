import Rtbit.Spec.Filesystem

/-! What the loops over the system calls do. A loop that ends well has transferred the whole
buffer: each of its calls has moved a piece of it, next to the one before. A single call may have
stopped before the end. -/

namespace Rtbit

namespace Filesystem

variable {os : Os} {d d₁ d₂ : Disk} {f : File} {off : ℕ} {buf x y : List UInt8}

/-- The call has transferred the byte `b` at `k` of the file. -/
def SysCall.Moves (c : SysCall) (kind : Transfer) (f : File) (k : ℕ) (b : UInt8) : Prop :=
  c.kind = kind ∧ c.file = f ∧ c.offset ≤ k ∧ c.moved[k - c.offset]? = some b

/-- Every byte of `buf` has been transferred, at `off`. -/
def Moved (calls : List SysCall) (kind : Transfer) (f : File) (off : ℕ) (buf : List UInt8) : Prop :=
  ∀ k b, buf[k]? = some b → ∃ c ∈ calls, c.Moves kind f (off + k) b

theorem moved_nil (calls : List SysCall) (kind : Transfer) (f : File) (off : ℕ) :
    Moved calls kind f off [] := by
  rintro k b ⟨⟩

theorem moved_single (kind : Transfer) (f : File) (off len : ℕ) (buf : List UInt8) :
    Moved [⟨kind, f, off, len, buf⟩] kind f off buf := by
  intro k b hk
  refine ⟨_, List.mem_singleton_self _, rfl, rfl, Nat.le_add_right off k, ?_⟩
  rw [Nat.add_sub_cancel_left]
  exact hk

theorem Moved.append {new₁ new₂ : List SysCall} {kind : Transfer} (h1 : Moved new₁ kind f off x)
    (h2 : Moved new₂ kind f (off + x.length) y) : Moved (new₁ ++ new₂) kind f off (x ++ y) := by
  intro k b hk
  rcases Nat.lt_or_ge k x.length with hlt | hge
  · rw [List.getElem?_append_left hlt] at hk
    obtain ⟨c, hc, hm⟩ := h1 k b hk
    exact ⟨c, List.mem_append_left _ hc, hm⟩
  · rw [List.getElem?_append_right hge] at hk
    obtain ⟨c, hc, hm⟩ := h2 _ b hk
    have hpos : off + x.length + (k - x.length) = off + k := by omega
    rw [hpos] at hm
    exact ⟨c, List.mem_append_right _ hc, hm⟩

/-- A call that has stopped early has left the byte behind its end. -/
theorem not_moved_short {kind : Transfer} {len : ℕ} (h : x.length < buf.length) :
    ¬Moved [⟨kind, f, off, len, x⟩] kind f off buf := by
  intro hm
  obtain ⟨c, hc, -, -, -, hget⟩ := hm x.length _ (List.getElem?_eq_getElem h)
  obtain rfl := List.mem_singleton.1 hc
  rw [Nat.add_sub_cancel_left, List.getElem?_eq_none le_rfl] at hget
  cases hget

theorem overwrite_append (bytes : List UInt8) (off : ℕ) (x y : List UInt8) :
    Storage.overwrite (Storage.overwrite bytes off x) (off + x.length) y =
      Storage.overwrite bytes off (x ++ y) := by
  set pre := bytes.take off ++ List.replicate (off - bytes.length) 0 with hpre
  have hlen : (pre ++ x).length = off + x.length := by
    simp only [hpre, List.length_append, List.length_take, List.length_replicate]
    omega
  have hx : Storage.overwrite bytes off x = pre ++ x ++ bytes.drop (off + x.length) := rfl
  have htake : (Storage.overwrite bytes off x).take (off + x.length) = pre ++ x := by
    rw [hx, ← hlen, List.take_left]
  have hdrop : (Storage.overwrite bytes off x).drop (off + x.length + y.length) =
      bytes.drop (off + (x ++ y).length) := by
    rw [hx, ← hlen, ← List.drop_drop, List.drop_left, List.drop_drop, hlen, List.length_append,
      Nat.add_assoc]
  have hzero : off + x.length - (Storage.overwrite bytes off x).length = 0 := by
    rw [hx, List.length_append, hlen]
    omega
  rw [Storage.overwrite, htake, hdrop, hzero, List.replicate_zero, List.append_nil,
    List.append_assoc pre]
  rfl

theorem stored_append (bytes : File → List UInt8) (f : File) (off : ℕ) (x y : List UInt8) :
    stored (stored bytes f off x) f (off + x.length) y = stored bytes f off (x ++ y) := by
  unfold stored
  by_cases hx : x = []
  · subst hx
    simp
  by_cases hy : y = []
  · subst hy
    simp
  · rw [if_neg hx, if_neg hy, if_neg (List.append_ne_nil_of_left_ne_nil hx y), Function.update_self,
      Function.update_idem, overwrite_append]

/-- From `d` to `d₁` all of `buf` is written at `off`. -/
structure Wrote (d d₁ : Disk) (f : File) (off : ℕ) (buf : List UInt8) : Prop where
  calls : ∃ new, d₁.calls = d.calls ++ new ∧ Moved new .write f off buf
  bytes : d₁.bytes = stored d.bytes f off buf

theorem Wrote.nil (d : Disk) (f : File) (off : ℕ) : Wrote d d f off [] :=
  ⟨⟨[], (List.append_nil _).symm, moved_nil _ _ _ _⟩, rfl⟩

theorem Wrote.append (h1 : Wrote d d₁ f off x) (h2 : Wrote d₁ d₂ f (off + x.length) y) :
    Wrote d d₂ f off (x ++ y) := by
  obtain ⟨⟨new₁, hc₁, hm₁⟩, hb₁⟩ := h1
  obtain ⟨⟨new₂, hc₂, hm₂⟩, hb₂⟩ := h2
  refine ⟨⟨new₁ ++ new₂, ?_, hm₁.append hm₂⟩, ?_⟩
  · rw [hc₂, hc₁, List.append_assoc]
  · rw [hb₂, hb₁, stored_append]

/-- From `d` to `d₁` all of `buf` is read from `off`. -/
structure Filled (d d₁ : Disk) (f : File) (off : ℕ) (buf : List UInt8) : Prop where
  calls : ∃ new, d₁.calls = d.calls ++ new ∧ Moved new .read f off buf
  bytes : d₁.bytes = d.bytes
  content : buf = ((d.bytes f).drop off).take buf.length

theorem Filled.nil (d : Disk) (f : File) (off : ℕ) : Filled d d f off [] :=
  ⟨⟨[], (List.append_nil _).symm, moved_nil _ _ _ _⟩, rfl, rfl⟩

theorem Filled.append (h1 : Filled d d₁ f off x) (h2 : Filled d₁ d₂ f (off + x.length) y) :
    Filled d d₂ f off (x ++ y) := by
  obtain ⟨⟨new₁, hc₁, hm₁⟩, hb₁, hx⟩ := h1
  obtain ⟨⟨new₂, hc₂, hm₂⟩, hb₂, hy⟩ := h2
  refine ⟨⟨new₁ ++ new₂, ?_, hm₁.append hm₂⟩, hb₂.trans hb₁, ?_⟩
  · rw [hc₂, hc₁, List.append_assoc]
  · rw [hb₁, ← List.drop_drop] at hy
    rw [List.length_append, List.take_add, ← hx, ← hy]

theorem FilesystemStorage.lockRead_eq_ok {s : FilesystemStorage} {i : ℕ} :
    s.lockRead i = .ok f ↔ s.openedFiles[i]? = some (some f) := by
  unfold lockRead
  rcases s.openedFiles[i]? with _ | _ | g
  · exact iff_of_false nofun nofun
  · exact iff_of_false nofun fun h => by cases h
  · simp

/-! One call. -/

theorem writeAt_some {n : ℕ} (h : writeAt os d f off buf = (d₁, some n)) :
    os.answer d.calls .write f off buf.length = some n ∧ Wrote d d₁ f off (buf.take n) ∧
      d₁.calls = d.calls ++ [⟨.write, f, off, buf.length, buf.take n⟩] := by
  unfold writeAt at h
  cases ha : os.answer d.calls .write f off buf.length with
  | none =>
    rw [ha] at h
    cases h
  | some m =>
    rw [ha] at h
    obtain ⟨rfl, ⟨rfl⟩⟩ := Prod.mk.inj h
    exact ⟨rfl, ⟨⟨_, rfl, moved_single _ _ _ _ _⟩, rfl⟩, rfl⟩

theorem readAt_some {len : ℕ} {b : List UInt8} (h : readAt os d f off len = (d₁, some b)) :
    (∃ n, os.answer d.calls .read f off len = some n ∧ b = ((d.bytes f).drop off).take n) ∧
      Filled d d₁ f off b ∧ d₁.calls = d.calls ++ [⟨.read, f, off, len, b⟩] := by
  unfold readAt at h
  cases ha : os.answer d.calls .read f off len with
  | none =>
    rw [ha] at h
    cases h
  | some n =>
    rw [ha] at h
    obtain ⟨rfl, ⟨rfl⟩⟩ := Prod.mk.inj h
    refine ⟨⟨n, rfl, rfl⟩, ⟨⟨_, rfl, moved_single _ _ _ _ _⟩, rfl, ?_⟩, rfl⟩
    rw [List.length_take, ← List.take_take, List.take_length]

/-! The loops. -/

theorem writeAllLoop_wrote {rounds : ℕ} (hlen : buf.length ≤ rounds)
    (h : writeAllLoop os rounds d f off buf = (d₁, .ok ())) : Wrote d d₁ f off buf := by
  induction rounds generalizing d off buf with
  | zero =>
    obtain rfl := List.length_eq_zero_iff.1 (Nat.le_zero.1 hlen)
    cases h
    exact Wrote.nil _ f off
  | succ rounds ih =>
    rw [writeAllLoop] at h
    by_cases hb : buf = []
    · rw [if_pos hb] at h
      cases h
      rw [hb]
      exact Wrote.nil _ f off
    rw [if_neg hb] at h
    cases hw : writeAt os d f off buf with
    | mk d' r =>
      rw [hw] at h
      cases r with
      | none => cases h
      | some n =>
        obtain ⟨ha, hwrote, -⟩ := writeAt_some hw
        have hle := os.le _ _ _ _ _ _ ha
        have hpos := os.pos _ _ _ _ _ _ ha (List.length_pos_iff.2 hb)
        have htake : (buf.take n).length = n := List.length_take_of_le hle
        have hrest : Wrote d' d₁ f (off + (buf.take n).length) (buf.drop n) := by
          rw [htake]
          exact ih (by rw [List.length_drop]; omega) h
        have happ := hwrote.append hrest
        rwa [List.take_append_drop] at happ

theorem readExactLoop_filled {rounds len : ℕ} {b : List UInt8} (hlen : len ≤ rounds)
    (h : readExactLoop os rounds d f off len = (d₁, b, .ok ())) :
    b.length = len ∧ Filled d d₁ f off b := by
  induction rounds generalizing d off len b with
  | zero =>
    obtain rfl := Nat.le_zero.1 hlen
    cases h
    exact ⟨rfl, Filled.nil _ f off⟩
  | succ rounds ih =>
    rw [readExactLoop] at h
    by_cases hz : len = 0
    · rw [if_pos hz] at h
      cases h
      exact ⟨hz.symm, Filled.nil _ f off⟩
    rw [if_neg hz] at h
    cases hr : readAt os d f off len with
    | mk d' r =>
      rw [hr] at h
      cases r with
      | none => cases h
      | some c =>
        dsimp only at h
        by_cases hc : c = []
        · rw [if_pos hc] at h
          cases h
        rw [if_neg hc] at h
        obtain ⟨⟨n, ha, hcn⟩, hfilled, -⟩ := readAt_some hr
        have hle := os.le _ _ _ _ _ _ ha
        have hcpos := List.length_pos_iff.2 hc
        have hclen : c.length ≤ n := by
          rw [hcn]
          exact List.length_take_le _ _
        cases hl : readExactLoop os rounds d' f (off + c.length) (len - c.length) with
        | mk d'' r =>
          obtain ⟨rest, r⟩ := r
          rw [hl] at h
          cases h
          obtain ⟨hrest, hf⟩ := ih (by omega) hl
          refine ⟨?_, hfilled.append hf⟩
          change (c ++ rest).length = len
          rw [List.length_append, hrest]
          omega

end Filesystem

end Rtbit
