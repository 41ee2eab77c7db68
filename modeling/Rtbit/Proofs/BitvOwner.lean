import Rtbit.Lib.Runs
import Rtbit.Sanity.Bitv
import Rtbit.Spec.BitvFactory

/-! Every `DiskBackedBitV` that a torrent has had keeps a flusher that renames its snapshots over
the same file, one more of which is queued when the instance is dropped. The file belongs to the
newest instance only if the older ones are done with it when a new one is made. -/

namespace Rtbit

open Lib

/-- Dropped, with no snapshot queued or being written. -/
structure DiskBackedBitV.Quiet (b : DiskBackedBitV) : Prop where
  dropped : b.dropped = true
  queue : b.flusher.queue = []
  phase : b.flusher.phase = .idle ∨ b.flusher.phase = .ended

instance (b : DiskBackedBitV) : Decidable b.Quiet :=
  decidable_of_iff (b.dropped = true ∧ b.flusher.queue = [] ∧
    (b.flusher.phase = .idle ∨ b.flusher.phase = .ended))
    ⟨fun ⟨h₁, h₂, h₃⟩ => ⟨h₁, h₂, h₃⟩, fun ⟨h₁, h₂, h₃⟩ => ⟨h₁, h₂, h₃⟩⟩

/-- The file that the flusher has open. -/
def FlushPhase.inode : FlushPhase → Option ℕ
  | .opened _ i | .written _ i => some i
  | .idle | .holding _ | .ready _ | .removeTmp | .removeFile | .ended => none

variable {crc : List UInt8 → UInt32} {fs fs' : BitvFiles} {f f' : Flusher}

theorem DiskBackedBitV.Quiet.step {b : DiskBackedBitV} (h : b.Quiet) (e : BitvEvent) :
    b.step crc fs e = none := by
  obtain ⟨hd, hq, hp⟩ := h
  refine Option.eq_none_iff_forall_ne_some.2 ?_
  rintro ⟨fs', b'⟩ hs
  obtain ⟨i, -, hd', -⟩ | ⟨-, hd', -⟩ | ⟨-, hd', -⟩ | ⟨ev, f', -, hstep, -⟩ := step_cases hs
  · rw [hd] at hd'
    cases hd'
  · rw [hd] at hd'
    cases hd'
  · rw [hd] at hd'
    cases hd'
  · generalize b.flusher = f at hq hp hstep
    cases hstep with
    | recv => cases hq
    | ioError hx => rcases hp with rfl | rfl <;> simp at hx
    | _ => rcases hp with hp | hp <;> cases hp

/-- A flusher stays away from the temporary file of `store_initial_check`. -/
theorem FlushStep.initTmp (hwf : fs.Wf)
    (hfd : ∀ i, f.phase.inode = some i → fs.names .initTmp ≠ some i ∧ i < fs.inodes.length)
    (h : FlushStep crc fs f fs' f') :
    fs'.Wf ∧ fs'.names .initTmp = fs.names .initTmp ∧ fs.inodes.length ≤ fs'.inodes.length ∧
      (∀ j, fs.names .initTmp = some j → fs'.data j = fs.data j) ∧
      ∀ i, f'.phase.inode = some i → fs'.names .initTmp ≠ some i ∧ i < fs'.inodes.length := by
  induction h with
  | recv | tryRecv | tryRecvEmpty | renameFails | ioError =>
    exact ⟨hwf, rfl, le_rfl, fun _ _ => rfl, fun _ h => by cases h⟩
  | @openTmp fs' x q i ho =>
    obtain ⟨-, hother⟩ := Files.names_openTruncate ho
    have hinit := hother .initTmp (by decide)
    have hne := hwf.openTruncate_ne ho (m := .initTmp) (by decide)
    refine ⟨hwf.openTruncate ho, hinit, Files.length_openTruncate ho, ?_, ?_⟩
    · intro j hj
      refine (Files.data_openTruncate ho).2 j ?_
      rintro rfl
      exact hne hj
    · intro j hj
      obtain rfl : i = j := Option.some.inj hj
      exact ⟨by rw [hinit]; exact hne, hwf.openTruncate_lt ho⟩
  | @writeTmp x q i =>
    have hi := hfd i rfl
    refine ⟨hwf.write, rfl, Files.length_write.ge, ?_, ?_⟩
    · intro j hj
      refine Files.data_write_ne ?_
      rintro rfl
      exact hi.1 hj
    · intro j hj
      obtain rfl : i = j := Option.some.inj hj
      exact ⟨hi.1, by rw [Files.length_write]; exact hi.2⟩
  | @rename fs' x q i hr =>
    obtain ⟨j, hj, hinodes, hnames⟩ := Files.rename_eq_some hr
    refine ⟨hwf.rename hr, ?_, by rw [hinodes], ?_, fun _ h => by cases h⟩
    · rw [hnames, Function.update_of_ne (by decide), Function.update_of_ne (by decide)]
    · intro k _
      rw [Files.data, hinodes, Files.data]
  | removeTmp | removeFile =>
    exact ⟨hwf.remove, by simp [Files.remove], le_rfl, fun _ _ => rfl, fun _ h => by cases h⟩

namespace BitvOwners

/-- When `load` finds a bitfield, and when `store_initial_check` renames its file, all the
instances so far are done; and its write is done when the file is read back. -/
def Quiesced (crc : List UInt8 → UInt32) (s : BitvOwners) : OwnerEvent → Prop
  | .start previouslyErrored => previouslyErrored = false → (loadBitv crc s.fs).isSome = true →
      ∀ b ∈ s.instances, b.Quiet
  | .renameInit => ∀ b ∈ s.instances, b.Quiet
  | .readBack => s.initWrites = []
  | _ => True

instance (crc : List UInt8 → UInt32) (s : BitvOwners) (e : OwnerEvent) :
    Decidable (Quiesced crc s e) := by
  cases e <;> unfold Quiesced <;> infer_instance

/-- The write of `store_initial_check` to the file `i`, before or after it is done. -/
def InitWrite (crc : List UInt8 → UInt32) (s : BitvOwners) (i : ℕ) (r : BitField) : Prop :=
  s.initWrites = [(i, bitvWithHeader crc r)] ∧ s.fs.data i = [] ∨
  s.initWrites = [] ∧ s.fs.data i = bitvWithHeader crc r

/-- What `check()` relies on where it is. -/
def PhaseOk (crc : List UInt8 → UInt32) (s : BitvOwners) : CheckPhase → Prop
  | .validating k | .cleared k => k + 1 = s.instances.length ∧ s.initWrites = []
  | .opened _ i => s.fs.names .initTmp = some i ∧ s.fs.data i = [] ∧ s.initWrites = []
  | .written r i => s.fs.names .initTmp = some i ∧ InitWrite crc s i r
  | .renamed r => (∃ i, s.fs.names .bitv = some i ∧ InitWrite crc s i r) ∧
      ∀ b ∈ s.instances, b.Quiet
  | .built checked bv => s.initWrites = [] ∧ ∀ r, checked = some r → bv = r
  | .idle | .checking | .storing _ => s.initWrites = []

structure Inv (crc : List UInt8 → UInt32) (s : BitvOwners) : Prop where
  wf : s.fs.Wf
  older : ∀ k b, s.instances[k]? = some b → k + 1 < s.instances.length → b.Quiet
  handles : ∀ b ∈ s.instances, ∀ i, b.flusher.phase.inode = some i →
    s.fs.names .initTmp ≠ some i ∧ i < s.fs.inodes.length
  phase : PhaseOk crc s s.phase

/-- The steps, with the state that each needs. -/
inductive OwnerStep (crc : List UInt8 → UInt32) (s : BitvOwners) : OwnerEvent → BitvOwners → Prop
  | clear : s.phase = .idle →
      OwnerStep crc s (.start true) { s with fs := s.fs.remove .bitv, phase := .checking }
  | loadNone : s.phase = .idle → OwnerStep crc s (.start false) { s with phase := .checking }
  | loadSome {bv} : s.phase = .idle → loadBitv crc s.fs = some bv →
      OwnerStep crc s (.start false) { s with
        instances := s.instances ++ [.new bv], phase := .validating s.instances.length }
  | validated {k b v} : s.phase = .validating k → s.instances[k]? = some b →
      OwnerStep crc s (.validate v) { s with phase := .built none b.bv }
  | broken {k b v} : s.phase = .validating k → s.instances[k]? = some b →
      OwnerStep crc s (.validate v) { s with fs := s.fs.remove .bitv, phase := .cleared k }
  | dropped {k e phase} : (∃ v, e = .validate v) ∨ e = .discard →
      s.phase = .validating k ∨ s.phase = .cleared k → phase = .checking ∨ phase = .idle →
      OwnerStep crc s e (s.dropHeld k phase)
  | checked {r} : s.phase = .checking →
      OwnerStep crc s (.initialCheck (some r)) { s with phase := .storing r }
  | openInit {r i fs'} : s.phase = .storing r → s.fs.openTruncate .initTmp = (i, fs') →
      OwnerStep crc s .openInit { s with fs := fs', phase := .opened r i }
  | writeInit {r i} : s.phase = .opened r i →
      OwnerStep crc s .writeInit { s with
        initWrites := s.initWrites ++ [(i, bitvWithHeader crc r)], phase := .written r i }
  | renameInit {r i fs'} : s.phase = .written r i → s.fs.rename .initTmp .bitv = some fs' →
      OwnerStep crc s .renameInit { s with fs := fs', phase := .renamed r }
  | renameInitFails {r i} : s.phase = .written r i → s.fs.rename .initTmp .bitv = none →
      OwnerStep crc s .renameInit { s with phase := .idle }
  | readBack {r bv} : s.phase = .renamed r → loadBitv crc s.fs = some bv →
      OwnerStep crc s .readBack { s with
        instances := s.instances ++ [.new bv], phase := .built (some r) bv }
  | readBackFails {r} : s.phase = .renamed r →
      OwnerStep crc s .readBack { s with phase := .idle }
  | ended {e} : (∃ r, e = .initialCheck r) ∨ e = .finish →
      s.phase = .checking ∨ (∃ r bv, s.phase = .built r bv) →
      OwnerStep crc s e { s with phase := .idle }
  | initWrite {k i data} : s.initWrites[k]? = some (i, data) →
      OwnerStep crc s (.initWrite k) { s with
        fs := s.fs.write i data, initWrites := s.initWrites.eraseIdx k }
  | bitv {k e b fs' b'} : s.instances[k]? = some b → b.step crc s.fs e = some (fs', b') →
      (s.phase.held = some k → e.byOwner = false) →
      OwnerStep crc s (.bitv k e) { s with fs := fs', instances := s.instances.set k b' }

variable {bytes : ℕ} {s s' : BitvOwners}

theorem step_cases {e : OwnerEvent} (h : step crc bytes s e = some s') : OwnerStep crc s e s' := by
  cases e with
  | start previouslyErrored =>
    rw [step, Option.ite_none_left_eq_some, not_not] at h
    obtain ⟨hp, h⟩ := h
    cases previouslyErrored with
    | true =>
      obtain rfl := Option.some.inj h
      exact .clear hp
    | false =>
      rw [if_neg (by decide)] at h
      cases hl : loadBitv crc s.fs with
      | none =>
        rw [hl] at h
        obtain rfl := Option.some.inj h
        exact .loadNone hp
      | some bv =>
        rw [hl] at h
        obtain rfl := Option.some.inj h
        exact .loadSome hp hl
  | validate v =>
    rw [step] at h
    cases hp : s.phase with
    | validating k =>
      simp only [hp] at h
      cases hb : s.instances[k]? with
      | none => simp [hb] at h
      | some b =>
        simp only [hb] at h
        by_cases hlen : b.bv.length ≠ bytes
        · rw [if_pos hlen] at h
          obtain rfl := Option.some.inj h
          exact .dropped (Or.inl ⟨_, rfl⟩) (Or.inl hp) (Or.inl rfl)
        · rw [if_neg hlen] at h
          cases v with
          | valid =>
            obtain rfl := Option.some.inj h
            exact .validated hp hb
          | broken =>
            obtain rfl := Option.some.inj h
            exact .broken hp hb
          | cancelled =>
            obtain rfl := Option.some.inj h
            exact .dropped (Or.inl ⟨_, rfl⟩) (Or.inl hp) (Or.inr rfl)
    | _ => simp [hp] at h
  | discard =>
    rw [step] at h
    cases hp : s.phase with
    | cleared k =>
      simp only [hp, Option.some.injEq] at h
      subst h
      exact .dropped (Or.inr rfl) (Or.inr hp) (Or.inl rfl)
    | _ => simp [hp] at h
  | initialCheck checked =>
    cases hp : s.phase with
    | checking =>
      cases checked with
      | none =>
        simp only [step, hp, Option.some.injEq] at h
        subst h
        exact .ended (Or.inl ⟨_, rfl⟩) (Or.inl hp)
      | some r =>
        simp only [step, hp, Option.some.injEq] at h
        subst h
        exact .checked hp
    | _ => simp [step, hp] at h
  | openInit =>
    rw [step] at h
    cases hp : s.phase with
    | storing r =>
      simp only [hp, Option.some.injEq] at h
      subst h
      exact .openInit hp rfl
    | _ => simp [hp] at h
  | writeInit =>
    rw [step] at h
    cases hp : s.phase with
    | opened r i =>
      simp only [hp, Option.some.injEq] at h
      subst h
      exact .writeInit hp
    | _ => simp [hp] at h
  | renameInit =>
    rw [step] at h
    cases hp : s.phase with
    | written r i =>
      cases hr : s.fs.rename .initTmp .bitv with
      | none =>
        simp only [hp, hr, Option.some.injEq] at h
        subst h
        exact .renameInitFails hp hr
      | some fs' =>
        simp only [hp, hr, Option.some.injEq] at h
        subst h
        exact .renameInit hp hr
    | _ => simp [hp] at h
  | readBack =>
    rw [step] at h
    cases hp : s.phase with
    | renamed r =>
      cases hl : loadBitv crc s.fs with
      | none =>
        simp only [hp, hl, Option.some.injEq] at h
        subst h
        exact .readBackFails hp
      | some bv =>
        simp only [hp, hl, Option.some.injEq] at h
        subst h
        exact .readBack hp hl
    | _ => simp [hp] at h
  | finish =>
    rw [step] at h
    cases hp : s.phase with
    | built r bv =>
      simp only [hp, Option.some.injEq] at h
      subst h
      exact .ended (Or.inr rfl) (Or.inr ⟨r, bv, hp⟩)
    | _ => simp [hp] at h
  | initWrite k =>
    rw [step] at h
    cases hw : s.initWrites[k]? with
    | none => simp [hw] at h
    | some w =>
      obtain ⟨i, data⟩ := w
      simp only [hw, Option.some.injEq] at h
      subst h
      exact .initWrite hw
  | bitv k e =>
    rw [step, Option.ite_none_left_eq_some] at h
    obtain ⟨hheld, h⟩ := h
    cases hb : s.instances[k]? with
    | none => simp [hb] at h
    | some b =>
      simp only [hb] at h
      cases hs : b.step crc s.fs e with
      | none => simp [hs] at h
      | some r =>
        obtain ⟨fs', b'⟩ := r
        simp only [hs, Option.some.injEq] at h
        subst h
        exact .bitv hb hs fun hk => by simpa using fun he => hheld ⟨hk, he⟩

theorem inv_init (hwf : fs.Wf) : Inv crc (init fs) where
  wf := hwf
  older k b hb := by simp [init] at hb
  handles b hb := by simp [init] at hb
  phase := rfl

/-- A new instance, when all the others are done. -/
theorem Inv.add (h : Inv crc s) (hquiet : ∀ b ∈ s.instances, b.Quiet) (bv : BitField)
    (phase : CheckPhase)
    (hphase : PhaseOk crc { s with instances := s.instances ++ [.new bv], phase } phase) :
    Inv crc { s with instances := s.instances ++ [.new bv], phase } where
  wf := h.wf
  older k b hb hlt := by
    rcases get_append hb with hb | ⟨hk, -⟩
    · exact hquiet b (List.mem_of_getElem? hb)
    · rw [List.length_append, List.length_singleton] at hlt
      omega
  handles b hb i hi := by
    rw [List.mem_append, List.mem_singleton] at hb
    rcases hb with hb | rfl
    · exact h.handles b hb i hi
    · cases hi
  phase := hphase

/-- `check()` goes on, and the files change except for the temporary one. -/
theorem Inv.move (h : Inv crc s) (fs' : BitvFiles) (phase : CheckPhase) (hwf : fs'.Wf)
    (hinit : fs'.names .initTmp = s.fs.names .initTmp)
    (hlen : s.fs.inodes.length ≤ fs'.inodes.length)
    (hphase : PhaseOk crc { s with fs := fs', phase } phase) :
    Inv crc { s with fs := fs', phase } where
  wf := hwf
  older := h.older
  handles b hb i hi := by
    obtain ⟨hne, hlt⟩ := h.handles b hb i hi
    exact ⟨by rw [hinit]; exact hne, hlt.trans_le hlen⟩
  phase := hphase

/-- The newest instance changes. -/
theorem Inv.set (h : Inv crc s) {k : ℕ} (hk : ¬ k + 1 < s.instances.length) (b' : DiskBackedBitV)
    (fs' : BitvFiles) (phase : CheckPhase) (hwf : fs'.Wf)
    (hinit : fs'.names .initTmp = s.fs.names .initTmp)
    (hlen : s.fs.inodes.length ≤ fs'.inodes.length)
    (hfd : ∀ i, b'.flusher.phase.inode = some i →
      fs'.names .initTmp ≠ some i ∧ i < fs'.inodes.length)
    (hphase : PhaseOk crc { s with fs := fs', instances := s.instances.set k b', phase } phase) :
    Inv crc { s with fs := fs', instances := s.instances.set k b', phase } where
  wf := hwf
  older j c hc hlt := by
    rw [List.length_set] at hlt
    rcases get_set hc with ⟨rfl, -⟩ | ⟨-, hc⟩
    · exact absurd hlt hk
    · exact h.older j c hc hlt
  handles c hc i hi := by
    rcases List.mem_or_eq_of_mem_set hc with hc | rfl
    · obtain ⟨hne, hlt⟩ := h.handles c hc i hi
      exact ⟨by rw [hinit]; exact hne, hlt.trans_le hlen⟩
    · exact hfd i hi
  phase := hphase

/-- A step of an instance changes nothing that `check()` relies on. -/
theorem PhaseOk.set (h : PhaseOk crc s s.phase) {k : ℕ} {b : DiskBackedBitV}
    (hb : s.instances[k]? = some b) (hq : ¬ b.Quiet) (b' : DiskBackedBitV) (fs' : BitvFiles)
    (hinit : fs'.names .initTmp = s.fs.names .initTmp)
    (hdata : ∀ j, s.fs.names .initTmp = some j → fs'.data j = s.fs.data j) :
    PhaseOk crc { s with fs := fs', instances := s.instances.set k b' } s.phase := by
  cases hp : s.phase with
  | validating j | cleared j =>
    rw [hp] at h
    exact ⟨by rw [List.length_set]; exact h.1, h.2⟩
  | opened r i =>
    rw [hp] at h
    obtain ⟨hi, hempty, hw⟩ := h
    exact ⟨hinit.trans hi, (hdata i hi).trans hempty, hw⟩
  | written r i =>
    rw [hp] at h
    obtain ⟨hi, hw⟩ := h
    refine ⟨hinit.trans hi, ?_⟩
    simp only [InitWrite, hdata i hi]
    exact hw
  | renamed r =>
    rw [hp] at h
    exact absurd (h.2 b (List.mem_of_getElem? hb)) hq
  | built checked bv =>
    rw [hp] at h
    exact h
  | idle | checking | storing r =>
    rw [hp] at h
    exact h

/-- One step of an instance. -/
theorem Inv.bitv (h : Inv crc s) {k : ℕ} {b b' : DiskBackedBitV} {e : BitvEvent}
    (hb : s.instances[k]? = some b) (hs : b.step crc s.fs e = some (fs', b')) :
    Inv crc { s with fs := fs', instances := s.instances.set k b' } := by
  have hq : ¬ b.Quiet := by
    intro hq
    rw [hq.step] at hs
    cases hs
  have hk : ¬ k + 1 < s.instances.length := fun hlt => hq (h.older k b hb hlt)
  have hfd := h.handles b (List.mem_of_getElem? hb)
  have hframe : fs'.Wf ∧ fs'.names .initTmp = s.fs.names .initTmp ∧
      s.fs.inodes.length ≤ fs'.inodes.length ∧
      (∀ j, s.fs.names .initTmp = some j → fs'.data j = s.fs.data j) ∧
      ∀ i, b'.flusher.phase.inode = some i →
        fs'.names .initTmp ≠ some i ∧ i < fs'.inodes.length := by
    obtain ⟨i, -, -, rfl, rfl⟩ | ⟨-, -, rfl, rfl⟩ | ⟨-, -, rfl, rfl⟩ | ⟨ev, f', -, hstep, rfl⟩ :=
      DiskBackedBitV.step_cases hs
    · exact ⟨h.wf, rfl, le_rfl, fun _ _ => rfl, hfd⟩
    · refine ⟨h.wf, rfl, le_rfl, fun _ _ => rfl, ?_⟩
      rw [Flusher.send_phase]
      exact hfd
    · refine ⟨h.wf, rfl, le_rfl, fun _ _ => rfl, ?_⟩
      rw [DiskBackedBitV.drop, Flusher.send_phase]
      exact hfd
    · exact hstep.initTmp h.wf hfd
  obtain ⟨hwf, hinit, hlen, hdata, hfd'⟩ := hframe
  exact h.set hk b' fs' s.phase hwf hinit hlen hfd' (h.phase.set hb hq b' fs' hinit hdata)

/-- `check()` drops the instance it holds. -/
theorem Inv.dropHeld (h : Inv crc s) {k : ℕ} (hk : k + 1 = s.instances.length)
    (hw : s.initWrites = []) {phase : CheckPhase} (hp : phase = .checking ∨ phase = .idle) :
    Inv crc (s.dropHeld k phase) := by
  have hlt : k < s.instances.length := by omega
  have hb : s.instances[k]? = some s.instances[k] := List.getElem?_eq_getElem hlt
  have hset : s.instances.modify k DiskBackedBitV.drop =
      s.instances.set k s.instances[k].drop := by
    refine List.ext_getElem? fun j => ?_
    rw [List.getElem?_modify, List.getElem?_set]
    split_ifs with hj
    · subst hj
      rw [hb]
      rfl
    · cases s.instances[j]? <;> rfl
  rw [BitvOwners.dropHeld, hset]
  refine h.set (by omega) _ s.fs phase h.wf rfl le_rfl ?_ ?_
  · rw [DiskBackedBitV.drop, Flusher.send_phase]
    exact h.handles _ (List.getElem_mem hlt)
  · rcases hp with rfl | rfl <;> exact hw

/-- The accepted write of `store_initial_check` is done. -/
theorem InitWrite.done {k i j : ℕ} {r : BitField} {data : List UInt8}
    (h : InitWrite crc s i r) (hlt : i < s.fs.inodes.length)
    (hw : s.initWrites[k]? = some (j, data)) :
    j = i ∧ InitWrite crc { s with
      fs := s.fs.write j data, initWrites := s.initWrites.eraseIdx k } i r := by
  obtain ⟨hws, hempty⟩ | ⟨hws, -⟩ := h
  · cases k with
    | zero =>
      rw [hws, List.getElem?_cons_zero, Option.some.injEq, Prod.mk.injEq] at hw
      obtain ⟨rfl, rfl⟩ := hw
      refine ⟨rfl, Or.inr ⟨by simp [hws], ?_⟩⟩
      rw [Files.data_write_self hlt, hempty, List.drop_nil, List.append_nil]
    | succ k => simp [hws] at hw
  · simp [hws] at hw

theorem Inv.initWrite (h : Inv crc s) {k i : ℕ} {data : List UInt8}
    (hw : s.initWrites[k]? = some (i, data)) :
    Inv crc { s with fs := s.fs.write i data, initWrites := s.initWrites.eraseIdx k } := by
  have hne : s.initWrites ≠ [] := by
    intro he
    simp [he] at hw
  refine ⟨h.wf.write, h.older, ?_, ?_⟩
  · intro b hb j hj
    rw [Files.length_write]
    exact h.handles b hb j hj
  · have hp := h.phase
    cases hs : s.phase with
    | written r j =>
      rw [hs] at hp
      obtain ⟨hj, hwrite⟩ := hp
      exact ⟨hj, (hwrite.done (h.wf.lt _ _ hj) hw).2⟩
    | renamed r =>
      rw [hs] at hp
      obtain ⟨⟨j, hj, hwrite⟩, hq⟩ := hp
      exact ⟨⟨j, hj, (hwrite.done (h.wf.lt _ _ hj) hw).2⟩, hq⟩
    | validating j | cleared j =>
      rw [hs] at hp
      exact absurd hp.2 hne
    | opened r j =>
      rw [hs] at hp
      exact absurd hp.2.2 hne
    | built checked bv =>
      rw [hs] at hp
      exact absurd hp.1 hne
    | idle | checking | storing r =>
      rw [hs] at hp
      exact absurd hp hne

theorem Inv.openInit (h : Inv crc s) {r : BitField} {i : ℕ} (hp : s.phase = .storing r)
    (ho : s.fs.openTruncate .initTmp = (i, fs')) :
    Inv crc { s with fs := fs', phase := .opened r i } := by
  obtain ⟨hself, -⟩ := Files.names_openTruncate ho
  have hph := h.phase
  rw [hp] at hph
  refine ⟨h.wf.openTruncate ho, h.older, ?_, hself, (Files.data_openTruncate ho).1, hph⟩
  intro b hb j hj
  obtain ⟨hne, hlt⟩ := h.handles b hb j hj
  refine ⟨?_, hlt.trans_le (Files.length_openTruncate ho)⟩
  rw [hself]
  rintro ⟨rfl⟩
  rcases Files.openTruncate_inode ho with hi | hi
  · exact hne hi
  · omega

theorem Inv.renameInit (h : Inv crc s) {r : BitField} {i : ℕ} (hp : s.phase = .written r i)
    (hq : ∀ b ∈ s.instances, b.Quiet) (hr : s.fs.rename .initTmp .bitv = some fs') :
    Inv crc { s with fs := fs', phase := .renamed r } := by
  obtain ⟨j, hj, hinodes, hnames⟩ := Files.rename_eq_some hr
  have hph := h.phase
  rw [hp] at hph
  obtain ⟨hi, hwrite⟩ := hph
  rw [hi, Option.some.injEq] at hj
  subst hj
  refine ⟨h.wf.rename hr, h.older, ?_, ⟨i, ?_, ?_⟩, hq⟩
  · intro b hb k hk
    rcases (hq b hb).phase with hphase | hphase <;> rw [hphase] at hk <;> cases hk
  · rw [hnames, Function.update_self]
  · simp only [InitWrite, Files.data, hinodes]
    exact hwrite

theorem Inv.step {e : OwnerEvent} (h : Inv crc s) (hok : Quiesced crc s e)
    (hstep : OwnerStep crc s e s') : Inv crc s' := by
  have hp := h.phase
  have hremove : (s.fs.remove .bitv).Wf ∧
      (s.fs.remove .bitv).names .initTmp = s.fs.names .initTmp :=
    ⟨h.wf.remove, by simp [Files.remove]⟩
  induction hstep with
  | clear hs =>
    rw [hs] at hp
    exact h.move _ .checking hremove.1 hremove.2 le_rfl hp
  | loadNone hs =>
    rw [hs] at hp
    exact h.move _ .checking h.wf rfl le_rfl hp
  | loadSome hs hl =>
    rw [hs] at hp
    have hq := hok rfl (by rw [hl]; rfl)
    exact h.add hq _ _ ⟨by rw [List.length_append]; rfl, hp⟩
  | validated hs hb =>
    rw [hs] at hp
    exact h.move _ _ h.wf rfl le_rfl ⟨hp.2, fun _ he => by cases he⟩
  | broken hs hb =>
    rw [hs] at hp
    exact h.move _ _ hremove.1 hremove.2 le_rfl hp
  | dropped _ hs hphase =>
    rcases hs with hs | hs
    · rw [hs] at hp
      exact h.dropHeld hp.1 hp.2 hphase
    · rw [hs] at hp
      exact h.dropHeld hp.1 hp.2 hphase
  | checked hs =>
    rw [hs] at hp
    exact h.move _ _ h.wf rfl le_rfl hp
  | openInit hs ho => exact h.openInit hs ho
  | writeInit hs =>
    rw [hs] at hp
    obtain ⟨hi, hempty, hw⟩ := hp
    refine ⟨h.wf, h.older, h.handles, hi, Or.inl ⟨?_, hempty⟩⟩
    simp only [hw, List.nil_append]
  | renameInit hs hr => exact h.renameInit hs hok hr
  | renameInitFails hs hr =>
    rw [hs] at hp
    simp [Files.rename, hp.1] at hr
  | readBack hs hl =>
    rw [hs] at hp
    obtain ⟨⟨i, hi, hwrite⟩, hq⟩ := hp
    have hw : s.initWrites = [] := hok
    refine h.add hq _ _ ⟨hw, ?_⟩
    rintro r' ⟨rfl⟩
    obtain ⟨hws, -⟩ | ⟨-, hdata⟩ := hwrite
    · rw [hw] at hws
      cases hws
    · rw [loadBitv_eq (by rw [Files.read_eq hi, hdata]), Option.some.injEq] at hl
      exact hl.symm
  | readBackFails hs =>
    have hw : s.initWrites = [] := hok
    exact h.move _ .idle h.wf rfl le_rfl hw
  | ended _ hs =>
    refine h.move _ .idle h.wf rfl le_rfl ?_
    obtain hs | ⟨r, bv, hs⟩ := hs
    · rw [hs] at hp
      exact hp
    · rw [hs] at hp
      exact hp.1
  | initWrite hw => exact h.initWrite hw
  | bitv hb hs => exact h.bitv hb hs

theorem run_inv (hwf : fs.Wf) {evs : List OwnerEvent}
    (h : Run (BitvOwners.step crc bytes) (Quiesced crc) (init fs) evs s) : Inv crc s :=
  h.inv (Inv crc) (inv_init hwf) fun _ _ _ hi hok hs => hi.step hok (step_cases hs)

/-- In a run in which the older instances are done whenever a new one is made, the bitfield that
`check()` goes on with after a full check is the result of that check, and no older instance
changes the file. -/
theorem bitv_file_owned (crc : List UInt8 → UInt32) (bytes : ℕ) (fs : BitvFiles) (hwf : fs.Wf)
    {evs : List OwnerEvent} {s : BitvOwners}
    (h : Run (BitvOwners.step crc bytes) (Quiesced crc) (init fs) evs s) :
    (∀ r bv, s.phase = .built (some r) bv → bv = r) ∧
    ∀ k e s', k + 1 < s.instances.length → BitvOwners.step crc bytes s (.bitv k e) = some s' →
      s'.fs.read .bitv = s.fs.read .bitv := by
  have hinv := run_inv hwf h
  refine ⟨?_, ?_⟩
  · intro r bv hp
    have hph := hinv.phase
    rw [hp] at hph
    exact hph.2 r rfl
  · intro k e s' hk hs
    cases step_cases hs with
    | bitv hb hstep =>
      rw [(hinv.older _ _ hb hk).step] at hstep
      cases hstep
    | dropped he => simp at he
    | ended he => simp at he

/-! One piece: the stored bitfield has it, and the full check finds that it is not there. -/

def claimed : BitvFiles := storedBitfield (fun _ => 0) [255]

/-- The stored bitfield is discarded, and the full check runs. -/
def discardEvents : List OwnerEvent :=
  [.start false, .validate .broken, .discard, .initialCheck (some [0])]

/-- `store_initial_check`, up to its rename. -/
def storeEvents : List OwnerEvent := [.openInit, .writeInit, .initWrite 0, .renameInit]

/-- The flusher of the discarded instance gets to its rename. -/
def flushEvents : List OwnerEvent :=
  [.bitv 0 (.flusher .recv), .bitv 0 (.flusher .tryRecvEmpty), .bitv 0 (.flusher .openTmp),
    .bitv 0 (.flusher .writeTmp)]

def lateRename : OwnerEvent := .bitv 0 (.flusher .rename)

/-- The flusher is done before the result is stored. -/
theorem flushBeforeStore_owned :
    ∃ s, Run (BitvOwners.step (fun _ => 0) 1) (Quiesced fun _ => 0) (init claimed)
        (discardEvents ++ flushEvents ++ [lateRename] ++ storeEvents ++ [.readBack]) s ∧
      ∃ bv, s.phase = .built (some [0]) bv ∧ bv = [0] := by
  have hex : (exec (BitvOwners.step (fun _ => 0) 1) (Quiesced fun _ => 0) (init claimed)
      (discardEvents ++ flushEvents ++ [lateRename] ++ storeEvents ++ [.readBack])).any
      (fun s => decide (s.phase = .built (some [0]) [0])) = true := by
    decide +kernel
  obtain ⟨s, hr, hq⟩ := Run.exists_of_exec hex
  have hp := of_decide_eq_true hq
  have howned := bitv_file_owned (fun _ => 0) 1 claimed (storedBitfield_wf [255]) hr
  exact ⟨s, hr, [0], hp, howned.1 [0] [0] hp⟩

/-- The rename of the flusher comes between the rename of `store_initial_check` and its read, or
after it. -/
theorem lateRename_replaces :
    (∃ s, Run (BitvOwners.step (fun _ => 0) 1) Any (init claimed)
        (discardEvents ++ storeEvents ++ flushEvents ++ [lateRename, .readBack]) s ∧
      s.phase = .built (some [0]) [255]) ∧
    ∃ s s', Run (BitvOwners.step (fun _ => 0) 1) Any (init claimed)
        (discardEvents ++ storeEvents ++ flushEvents ++ [.readBack]) s ∧
      0 + 1 < s.instances.length ∧
      BitvOwners.step (fun _ => 0) 1 s lateRename = some s' ∧
      s.fs.read .bitv = some (bitvWithHeader (fun _ => 0) [0]) ∧
      s'.fs.read .bitv = some (bitvWithHeader (fun _ => 0) [255]) := by
  constructor
  · have hex : (exec (BitvOwners.step (fun _ => 0) 1) Any (init claimed)
        (discardEvents ++ storeEvents ++ flushEvents ++ [lateRename, .readBack])).any
        (fun s => decide (s.phase = .built (some [0]) [255])) = true := by
      decide +kernel
    obtain ⟨s, hr, hq⟩ := Run.exists_of_exec hex
    exact ⟨s, hr, of_decide_eq_true hq⟩
  · have hex : (exec (BitvOwners.step (fun _ => 0) 1) Any (init claimed)
        (discardEvents ++ storeEvents ++ flushEvents ++ [.readBack])).any
        (fun s => decide (0 + 1 < s.instances.length ∧
            s.fs.read .bitv = some (bitvWithHeader (fun _ => 0) [0])) &&
          (BitvOwners.step (fun _ => 0) 1 s lateRename).any fun s' =>
            decide (s'.fs.read .bitv = some (bitvWithHeader (fun _ => 0) [255]))) = true := by
      decide +kernel
    obtain ⟨s, hr, hq⟩ := Run.exists_of_exec hex
    rw [Bool.and_eq_true, decide_eq_true_eq] at hq
    obtain ⟨⟨hlen, hread⟩, hnext⟩ := hq
    obtain ⟨s', hs', hread'⟩ := (Option.any_eq_true _ _).1 hnext
    exact ⟨s, s', hr, hlen, hs', hread, of_decide_eq_true hread'⟩

end BitvOwners

end Rtbit
