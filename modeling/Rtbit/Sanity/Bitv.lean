import Rtbit.Spec.Bitv

/-! What a flusher does in one step, the round trip of the file format, and the order of
bitfields. -/

namespace Rtbit

open Lib

/-! Bitfields. -/

namespace BitField

/-- Every bit of `a` is a bit of `b`. -/
def Subset (a b : BitField) : Prop := ∀ i, a.get i = true → b.get i = true

instance : Std.Refl Subset := ⟨fun _ _ h => h⟩

instance : IsTrans BitField Subset := ⟨fun _ _ _ hab hbc i h => hbc i (hab i h)⟩

theorem subset_setBit (b : BitField) (i : ℕ) : Subset b (b.setBit i) := by
  intro j h
  by_cases hij : i / 8 = j / 8
  · by_cases hlt : j / 8 < b.length
    · simp only [get, setBit, List.getD_eq_getElem?_getD, List.getElem?_modify, hij, if_true,
        List.getElem?_eq_getElem hlt, Option.getD_some] at h ⊢
      simp [h]
    · simp [get, List.getD_eq_getElem?_getD, List.getElem?_eq_none (Nat.le_of_not_lt hlt)] at h
  · simpa [get, setBit, List.getD_eq_getElem?_getD, List.getElem?_modify, hij] using h

end BitField

/-! The file. -/

section Format

variable {crc : List UInt8 → UInt32} {fs : BitvFiles}

@[simp] theorem length_toLeBytes (x : UInt32) : (toLeBytes x).length = 4 := rfl

theorem readBitvFile_bitvWithHeader (payload : BitField) :
    readBitvFile crc (bitvWithHeader crc payload) = ⟨payload, true, true⟩ := by
  have hlen : bitvHeaderLen ≤ (bitvWithHeader crc payload).length := by
    simp [bitvWithHeader, bitvMagic, bitvHeaderLen]
  have hmagic : (bitvWithHeader crc payload).take 4 = bitvMagic := by
    simp [bitvWithHeader, bitvMagic, toLeBytes]
  have hpayload : (bitvWithHeader crc payload).drop bitvHeaderLen = payload := by
    simp [bitvWithHeader, bitvMagic, toLeBytes, bitvHeaderLen]
  have hcrc : ((bitvWithHeader crc payload).drop 4).take 4 = toLeBytes (crc payload) := by
    simp [bitvWithHeader, bitvMagic, toLeBytes]
  rw [readBitvFile, if_pos ⟨hlen, hmagic⟩]
  simp only [hpayload, hcrc, beq_self_eq_true]

theorem loadBitv_eq {payload : BitField} (h : fs.read .bitv = some (bitvWithHeader crc payload)) :
    loadBitv crc fs = some payload := by
  rw [loadBitv, h]
  simp [readBitvFile_bitvWithHeader]

theorem loadBitv_congr {fs' : BitvFiles} (h : fs'.read .bitv = fs.read .bitv) :
    loadBitv crc fs' = loadBitv crc fs := by
  rw [loadBitv, loadBitv, h]

/-- The files of a torrent whose bitfield is on disk. -/
def storedBitfield (crc : List UInt8 → UInt32) (payload : BitField) : BitvFiles :=
  ⟨[bitvWithHeader crc payload], fun n => if n = .bitv then some 0 else none⟩

theorem storedBitfield_wf (payload : BitField) : (storedBitfield crc payload).Wf := by
  have hnames : ∀ n i, (storedBitfield crc payload).names n = some i → n = .bitv ∧ i = 0 := by
    intro n i h
    simp only [storedBitfield] at h
    split_ifs at h with hn
    exact ⟨hn, (Option.some.inj h).symm⟩
  refine ⟨?_, ?_⟩
  · intro n i h
    rw [(hnames n i h).2]
    exact Nat.zero_lt_one
  · intro m n i hm hn
    rw [(hnames m i hm).1, (hnames n i hn).1]

theorem loadBitv_storedBitfield (payload : BitField) :
    loadBitv crc (storedBitfield crc payload) = some payload :=
  loadBitv_eq rfl

end Format

/-! The flusher. -/

/-- The steps of a flusher, with what they do to the files. -/
inductive FlushStep (crc : List UInt8 → UInt32) :
    BitvFiles → Flusher → BitvFiles → Flusher → Prop
  | recv {fs x q} : FlushStep crc fs ⟨x :: q, .idle⟩ fs ⟨q, .holding x⟩
  | tryRecv {fs x y q} : FlushStep crc fs ⟨y :: q, .holding x⟩ fs ⟨q, .holding y⟩
  | tryRecvEmpty {fs x} : FlushStep crc fs ⟨[], .holding x⟩ fs ⟨[], .ready x⟩
  | openTmp {fs fs' x q i} : fs.openTruncate .bitvTmp = (i, fs') →
      FlushStep crc fs ⟨q, .ready x⟩ fs' ⟨q, .opened x i⟩
  | writeTmp {fs x q i} :
      FlushStep crc fs ⟨q, .opened x i⟩ (fs.write i (bitvWithHeader crc x)) ⟨q, .written x i⟩
  | rename {fs fs' x q i} : fs.rename .bitvTmp .bitv = some fs' →
      FlushStep crc fs ⟨q, .written x i⟩ fs' ⟨q, .idle⟩
  | renameFails {fs x q i} : fs.names .bitvTmp = none →
      FlushStep crc fs ⟨q, .written x i⟩ fs ⟨q, .removeTmp⟩
  | ioError {fs q p} : (∃ x, p = .ready x ∨ ∃ i, p = .opened x i ∨ p = .written x i) →
      FlushStep crc fs ⟨q, p⟩ fs ⟨q, .removeTmp⟩
  | removeTmp {fs q} : FlushStep crc fs ⟨q, .removeTmp⟩ (fs.remove .bitvTmp) ⟨q, .removeFile⟩
  | removeFile {fs q} : FlushStep crc fs ⟨q, .removeFile⟩ (fs.remove .bitv) ⟨q, .ended⟩

theorem Flusher.step_cases {crc : List UInt8 → UInt32} {fs fs' : BitvFiles} {f f' : Flusher}
    {e : FlushEvent} (h : f.step crc fs e = some (fs', f')) : FlushStep crc fs f fs' f' := by
  obtain ⟨queue, phase⟩ := f
  cases e with
  | recv =>
    cases phase <;> cases queue <;> simp only [step, reduceCtorEq, Option.some.injEq,
      Prod.mk.injEq] at h
    obtain ⟨rfl, rfl⟩ := h
    exact .recv
  | tryRecv =>
    cases phase <;> cases queue <;> simp only [step, reduceCtorEq, Option.some.injEq,
      Prod.mk.injEq] at h
    obtain ⟨rfl, rfl⟩ := h
    exact .tryRecv
  | tryRecvEmpty =>
    cases phase <;> cases queue <;> simp only [step, reduceCtorEq, Option.some.injEq,
      Prod.mk.injEq] at h
    obtain ⟨rfl, rfl⟩ := h
    exact .tryRecvEmpty
  | openTmp =>
    cases phase <;> simp only [step, reduceCtorEq, Option.some.injEq, Prod.mk.injEq] at h
    obtain ⟨rfl, rfl⟩ := h
    exact .openTmp rfl
  | writeTmp =>
    cases phase <;> simp only [step, reduceCtorEq, Option.some.injEq, Prod.mk.injEq] at h
    obtain ⟨rfl, rfl⟩ := h
    exact .writeTmp
  | rename =>
    cases phase <;> simp only [step, reduceCtorEq] at h
    cases hr : fs.rename .bitvTmp .bitv with
    | some fs₁ =>
      simp only [hr, Option.some.injEq, Prod.mk.injEq] at h
      obtain ⟨rfl, rfl⟩ := h
      exact .rename hr
    | none =>
      simp only [hr, Option.some.injEq, Prod.mk.injEq] at h
      obtain ⟨rfl, rfl⟩ := h
      exact .renameFails (Option.map_eq_none_iff.1 hr)
  | ioError =>
    cases phase <;> simp only [step, reduceCtorEq, Option.some.injEq, Prod.mk.injEq] at h
    all_goals obtain ⟨rfl, rfl⟩ := h
    · exact .ioError ⟨_, Or.inl rfl⟩
    · exact .ioError ⟨_, Or.inr ⟨_, Or.inl rfl⟩⟩
    · exact .ioError ⟨_, Or.inr ⟨_, Or.inr rfl⟩⟩
  | removeTmp =>
    cases phase <;> simp only [step, reduceCtorEq, Option.some.injEq, Prod.mk.injEq] at h
    obtain ⟨rfl, rfl⟩ := h
    exact .removeTmp
  | removeFile =>
    cases phase <;> simp only [step, reduceCtorEq, Option.some.injEq, Prod.mk.injEq] at h
    obtain ⟨rfl, rfl⟩ := h
    exact .removeFile

@[simp] theorem Flusher.send_phase (f : Flusher) (x : BitField) : (f.send x).phase = f.phase := by
  unfold Flusher.send
  split_ifs <;> rfl

theorem Flusher.send_queue {f : Flusher} {x : BitField} (h : f.phase ≠ .ended) :
    (f.send x).queue = f.queue ++ [x] := by
  rw [Flusher.send, if_neg h]

theorem DiskBackedBitV.step_cases {crc : List UInt8 → UInt32} {fs fs' : BitvFiles}
    {b b' : DiskBackedBitV} {e : BitvEvent} (h : b.step crc fs e = some (fs', b')) :
    (∃ i, e = .setBit i ∧ b.dropped = false ∧ fs' = fs ∧ b' = { b with bv := b.bv.setBit i }) ∨
    (e = .flush ∧ b.dropped = false ∧ fs' = fs ∧
      b' = { b with flusher := b.flusher.send b.bv }) ∨
    (e = .drop ∧ b.dropped = false ∧ fs' = fs ∧ b' = b.drop) ∨
    ∃ ev f', e = .flusher ev ∧ FlushStep crc fs b.flusher fs' f' ∧
      b' = { b with flusher := f' } := by
  cases e with
  | setBit i =>
    rw [DiskBackedBitV.step, Option.ite_none_left_eq_some, Option.some.injEq, Prod.mk.injEq] at h
    exact Or.inl ⟨i, rfl, by simpa using h.1, h.2.1.symm, h.2.2.symm⟩
  | flush =>
    rw [DiskBackedBitV.step, Option.ite_none_left_eq_some, Option.some.injEq, Prod.mk.injEq] at h
    exact Or.inr (Or.inl ⟨rfl, by simpa using h.1, h.2.1.symm, h.2.2.symm⟩)
  | drop =>
    rw [DiskBackedBitV.step, Option.ite_none_left_eq_some, Option.some.injEq, Prod.mk.injEq] at h
    exact Or.inr (Or.inr (Or.inl ⟨rfl, by simpa using h.1, h.2.1.symm, h.2.2.symm⟩))
  | flusher ev =>
    rw [DiskBackedBitV.step] at h
    obtain ⟨⟨fs₁, f'⟩, hs, he⟩ := Option.map_eq_some_iff.1 h
    rw [Prod.mk.injEq] at he
    obtain ⟨rfl, rfl⟩ := he
    exact Or.inr (Or.inr (Or.inr ⟨ev, f', rfl, Flusher.step_cases hs, rfl⟩))

theorem PgBitfield.step_cases {b b' : PgBitfield} {e : PgEvent} (h : b.step e = some b') :
    (∃ i, e = .setBit i ∧ b' = { b with inmem := b.inmem.setBit i }) ∨
    (e = .flush ∧ b' = { b with tasks := b.tasks ++ [b.inmem] }) ∨
    (∃ k x, e = .update k ∧ b.tasks[k]? = some x ∧
      b' = { b with tasks := b.tasks.eraseIdx k, haveBitfield := some x }) ∨
    ∃ k, e = .updateError k ∧ b' = { b with tasks := b.tasks.eraseIdx k, failed := true } := by
  cases e with
  | setBit i => exact Or.inl ⟨i, rfl, (Option.some.inj h).symm⟩
  | flush => exact Or.inr (Or.inl ⟨rfl, (Option.some.inj h).symm⟩)
  | update k =>
    rw [PgBitfield.step] at h
    cases hx : b.tasks[k]? with
    | none => simp [hx] at h
    | some x =>
      rw [hx] at h
      exact Or.inr (Or.inr (Or.inl ⟨k, x, rfl, hx, (Option.some.inj h).symm⟩))
  | updateError k =>
    rw [PgBitfield.step, Option.ite_none_right_eq_some] at h
    exact Or.inr (Or.inr (Or.inr ⟨k, rfl, (Option.some.inj h.2).symm⟩))

end Rtbit
