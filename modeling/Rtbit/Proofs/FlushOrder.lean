import Rtbit.Lib.Runs
import Rtbit.Lib.WriteQueue
import Rtbit.Sanity.Bitv

/-! In which order the snapshots of one bitfield are persisted. The flusher of a `DiskBackedBitV`
writes them in the order of the `flush` calls and leaves some out; the tasks that `flush` of a
`PgBitfield` spawns run in any order, and an old snapshot may come last. -/

namespace Rtbit

open Lib

/-- The calls of the owner of a bitfield. -/
inductive BitvCall where
  | setBit (i : ℕ)
  | flush
  deriving DecidableEq, Repr

/-- The bitfield in memory after the calls. -/
def BitField.after (bv : BitField) : List BitvCall → BitField
  | [] => bv
  | .setBit i :: calls => BitField.after (bv.setBit i) calls
  | .flush :: calls => bv.after calls

/-- The snapshots that the calls take. -/
def BitField.snapshots (bv : BitField) : List BitvCall → List BitField
  | [] => []
  | .setBit i :: calls => BitField.snapshots (bv.setBit i) calls
  | .flush :: calls => bv :: bv.snapshots calls

theorem BitField.after_append (bv : BitField) (cs ds : List BitvCall) :
    bv.after (cs ++ ds) = (bv.after cs).after ds := by
  induction cs generalizing bv with
  | nil => rfl
  | cons c cs ih => cases c <;> exact ih _

theorem BitField.snapshots_append (bv : BitField) (cs ds : List BitvCall) :
    bv.snapshots (cs ++ ds) = bv.snapshots cs ++ (bv.after cs).snapshots ds := by
  induction cs generalizing bv with
  | nil => rfl
  | cons c cs ih =>
    cases c with
    | setBit i => exact ih _
    | flush => exact congrArg (bv :: ·) (ih bv)

/-- A store of one bitfield. -/
structure BitvStore (S E : Type) where
  step : S → E → Option S
  ok : S → E → Prop
  call : E → Option BitvCall
  persisted : S → Option BitField
  /-- All the writes have completed. -/
  done : S → Prop
  /-- A write has failed. -/
  failed : S → Prop

namespace BitvStore

variable {S E : Type} (st : BitvStore S E)

/-- Of a bitfield that is `bv` at first: when all the writes have completed, the snapshot of the
last `flush` is persisted; and as long as no write fails, a bit that is persisted stays so. -/
def KeepsOrder (bv : BitField) (s₀ : S) : Prop :=
  ∀ evs s, Run st.step st.ok s₀ evs s →
    (st.done s → ∀ x, (bv.snapshots (evs.filterMap st.call)).getLast? = some x →
      st.persisted s = some x) ∧
    ∀ e s', st.ok s e → st.step s e = some s' → ¬ st.failed s' → ∀ x, st.persisted s = some x →
      ∃ y, st.persisted s' = some y ∧ x.Subset y

/-- What makes a store keep the order: seen as a queue, every step of it is one of an ordered
writer. -/
structure Writer (view : S → WriteQueue BitField) (mem : S → BitField) (I : S → Prop) : Prop where
  persisted_eq : ∀ s, (view s).persisted = st.persisted s
  done_pending : ∀ s, st.done s → ¬ st.failed s ∧ (view s).pending = []
  failed_step : ∀ s e s', st.step s e = some s' → st.failed s → st.failed s'
  inv : ∀ s e s', I s → st.ok s e → st.step s e = some s' → ¬ st.failed s' → I s'
  setBit : ∀ s e s' i, I s → st.ok s e → st.step s e = some s' → ¬ st.failed s' →
    st.call e = some (.setBit i) → view s' = view s ∧ mem s' = (mem s).setBit i
  flush : ∀ s e s', I s → st.ok s e → st.step s e = some s' → ¬ st.failed s' →
    st.call e = some .flush → view s' = (view s).push (mem s) ∧ mem s' = mem s
  write : ∀ s e s', I s → st.ok s e → st.step s e = some s' → ¬ st.failed s' →
    st.call e = none → WriteQueue.Step (view s) (view s') ∧ mem s' = mem s

variable {st} {view : S → WriteQueue BitField} {mem : S → BitField} {I : S → Prop}

/-- What a run keeps, as long as no write has failed. -/
structure Kept (view : S → WriteQueue BitField) (mem : S → BitField) (I : S → Prop)
    (bv : BitField) (calls : List BitvCall) (s : S) : Prop where
  inv : I s
  mem_eq : mem s = bv.after calls
  ordered : (view s).Ordered BitField.Subset (mem s)
  last : ∀ x, (bv.snapshots calls).getLast? = some x → (view s).values.getLast? = some x

theorem Writer.kept_step (hw : st.Writer view mem I) {bv : BitField} {calls : List BitvCall}
    {s s' : S} {e : E} (h : Kept view mem I bv calls s) (hok : st.ok s e)
    (hs : st.step s e = some s') (hf : ¬ st.failed s') :
    Kept view mem I bv (calls ++ (st.call e).toList) s' := by
  have hi := hw.inv s e s' h.inv hok hs hf
  cases hc : st.call e with
  | none =>
    obtain ⟨hstep, hmem⟩ := hw.write s e s' h.inv hok hs hf hc
    rw [Option.toList_none, List.append_nil]
    refine ⟨hi, hmem.trans h.mem_eq, ?_, ?_⟩
    · rw [hmem]
      exact h.ordered.sublist hstep.sublist
    · intro x hx
      rw [hstep.getLast_values]
      exact h.last x hx
  | some c =>
    rw [Option.toList_some]
    cases c with
    | setBit i =>
      obtain ⟨hview, hmem⟩ := hw.setBit s e s' i h.inv hok hs hf hc
      refine ⟨hi, ?_, ?_, ?_⟩
      · rw [hmem, h.mem_eq, BitField.after_append]
        rfl
      · rw [hview, hmem]
        exact h.ordered.raise (BitField.subset_setBit _ i)
      · intro x hx
        rw [BitField.snapshots_append, BitField.snapshots, BitField.snapshots,
          List.append_nil] at hx
        rw [hview]
        exact h.last x hx
    | flush =>
      obtain ⟨hview, hmem⟩ := hw.flush s e s' h.inv hok hs hf hc
      refine ⟨hi, ?_, ?_, ?_⟩
      · rw [hmem, h.mem_eq, BitField.after_append]
        rfl
      · rw [hview, hmem]
        exact h.ordered.push
      · intro x hx
        rw [BitField.snapshots_append, BitField.snapshots, BitField.snapshots, ← h.mem_eq,
          List.getLast?_concat] at hx
        rw [hview, WriteQueue.values_push, List.getLast?_concat, hx]

theorem Writer.kept_run (hw : st.Writer view mem I) {bv : BitField} {s₀ s : S} {evs : List E}
    (h₀ : Kept view mem I bv [] s₀) (h : Run st.step st.ok s₀ evs s) (hf : ¬ st.failed s) :
    Kept view mem I bv (evs.filterMap st.call) s := by
  induction h with
  | nil => exact h₀
  | @snoc evs s₁ e s₂ _ hok hs ih =>
    have hf₁ : ¬ st.failed s₁ := fun h => hf (hw.failed_step s₁ e s₂ hs h)
    have hcalls : (evs ++ [e]).filterMap st.call =
        evs.filterMap st.call ++ (st.call e).toList := by
      rw [List.filterMap_append]
      cases hc : st.call e <;> simp [hc]
    rw [hcalls]
    exact hw.kept_step (ih hf₁) hok hs hf

theorem Writer.keepsOrder (hw : st.Writer view mem I) (s₀ : S) (hI : I s₀)
    (hpending : (view s₀).pending = [])
    (hpersisted : ∀ x, st.persisted s₀ = some x → x.Subset (mem s₀)) :
    st.KeepsOrder (mem s₀) s₀ := by
  have hvalues : (view s₀).values = (st.persisted s₀).toList := by
    rw [WriteQueue.values, hpending, List.append_nil, hw.persisted_eq]
  have h₀ : Kept view mem I (mem s₀) [] s₀ := by
    refine ⟨hI, rfl, ⟨?_, ?_⟩, by simp [BitField.snapshots]⟩
    · rw [hvalues]
      cases st.persisted s₀ <;> simp
    · intro x hx
      rw [hvalues, Option.mem_toList] at hx
      exact hpersisted x hx
  intro evs s hrun
  refine ⟨?_, ?_⟩
  · intro hdone x hx
    obtain ⟨hf, hp⟩ := hw.done_pending s hdone
    have hlast := (hw.kept_run h₀ hrun hf).last x hx
    rw [WriteQueue.values, hp, List.append_nil, hw.persisted_eq] at hlast
    cases hs : st.persisted s with
    | none => simp [hs] at hlast
    | some y => simpa [hs] using hlast
  · intro e s' hok hs hf x hx
    have hf₁ : ¬ st.failed s := fun h => hf (hw.failed_step s e s' hs h)
    have hk := hw.kept_run h₀ hrun hf₁
    have hstay : view s' = view s → ∃ y, st.persisted s' = some y ∧ x.Subset y := by
      intro hv
      refine ⟨x, ?_, fun _ h => h⟩
      rw [← hw.persisted_eq, hv, hw.persisted_eq, hx]
    cases hc : st.call e with
    | none =>
      obtain ⟨y, hy, hle⟩ := hk.ordered.persisted_le (hw.write s e s' hk.inv hok hs hf hc).1
        (by rw [hw.persisted_eq, hx])
      exact ⟨y, by rw [← hw.persisted_eq, hy], hle⟩
    | some c =>
      cases c with
      | setBit i => exact hstay (hw.setBit s e s' i hk.inv hok hs hf hc).1
      | flush =>
        refine ⟨x, ?_, fun _ h => h⟩
        rw [← hw.persisted_eq, (hw.flush s e s' hk.inv hok hs hf hc).1, WriteQueue.push,
          hw.persisted_eq, hx]

end BitvStore

/-! The disk-backed store. -/

/-- The snapshot that is being written. -/
def FlushPhase.snapshot : FlushPhase → List BitField
  | .holding x | .ready x | .opened x _ | .written x _ => [x]
  | .idle | .removeTmp | .removeFile | .ended => []

def FlushPhase.failed : FlushPhase → Bool
  | .removeTmp | .removeFile | .ended => true
  | .idle | .holding _ | .ready _ | .opened _ _ | .written _ _ => false

def diskStore (crc : List UInt8 → UInt32) : BitvStore (BitvFiles × DiskBackedBitV) BitvEvent where
  step s e := s.2.step crc s.1 e
  ok _ e := e ≠ .drop
  call
    | .setBit i => some (.setBit i)
    | .flush => some .flush
    | .drop | .flusher _ => none
  persisted s := loadBitv crc s.1
  done s := s.2.flusher.queue = [] ∧ s.2.flusher.phase = .idle
  failed s := s.2.flusher.phase.failed

namespace DiskStore

variable {crc : List UInt8 → UInt32} {fs fs' : BitvFiles} {f f' : Flusher}

def view (crc : List UInt8 → UInt32) (fs : BitvFiles) (f : Flusher) : WriteQueue BitField :=
  ⟨loadBitv crc fs, f.phase.snapshot ++ f.queue⟩

/-- The temporary file is the flusher's own. -/
def TmpOk (crc : List UInt8 → UInt32) (fs : BitvFiles) : FlushPhase → Prop
  | .opened _ i => fs.names .bitvTmp = some i ∧ fs.data i = []
  | .written x i => fs.names .bitvTmp = some i ∧ fs.data i = bitvWithHeader crc x
  | .idle | .holding _ | .ready _ | .removeTmp | .removeFile | .ended => True

/-- Only the rename changes what is persisted. -/
theorem flushStep_write (hwf : fs.Wf) (htmp : TmpOk crc fs f.phase)
    (h : FlushStep crc fs f fs' f') (hf : f'.phase.failed = false) :
    fs'.Wf ∧ TmpOk crc fs' f'.phase ∧ WriteQueue.Step (view crc fs f) (view crc fs' f') := by
  have hload (hread : fs'.read .bitv = fs.read .bitv) :
      loadBitv crc fs' = loadBitv crc fs := loadBitv_congr hread
  induction h with
  | recv => exact ⟨hwf, trivial, .stay⟩
  | tryRecv => exact ⟨hwf, trivial, .skip⟩
  | tryRecvEmpty => exact ⟨hwf, trivial, .stay⟩
  | @openTmp fs' x q i ho =>
    obtain ⟨hself, hother⟩ := Files.names_openTruncate ho
    obtain ⟨hempty, hdata⟩ := Files.data_openTruncate ho
    have hne := hwf.openTruncate_ne ho (m := .bitv) (by decide)
    have hread : fs'.read .bitv = fs.read .bitv := by
      rw [Files.read, Files.read, hother _ (by decide)]
      cases hb : fs.names .bitv with
      | none => rfl
      | some j =>
        rw [Option.map_some, Option.map_some, hdata j (fun hj => hne (hj ▸ hb))]
    refine ⟨hwf.openTruncate ho, ⟨hself, hempty⟩, ?_⟩
    rw [view, view, hload hread]
    exact .stay
  | @writeTmp x q i =>
    obtain ⟨hname, hempty⟩ := htmp
    have hread : (fs.write i (bitvWithHeader crc x)).read .bitv = fs.read .bitv := by
      rw [Files.read, Files.read, Files.names_write]
      cases hb : fs.names .bitv with
      | none => rfl
      | some j =>
        rw [Option.map_some, Option.map_some, Files.data_write_ne]
        rintro rfl
        cases hwf.inj _ _ _ hb hname
    refine ⟨hwf.write, ⟨hname, ?_⟩, ?_⟩
    · rw [Files.data_write_self (hwf.lt _ _ hname), hempty, List.drop_nil, List.append_nil]
    · rw [view, view, hload hread]
      exact .stay
  | @rename fs' x q i hr =>
    obtain ⟨hname, hdata⟩ := htmp
    obtain ⟨j, hj, hinodes, hnames⟩ := Files.rename_eq_some hr
    rw [hname, Option.some.injEq] at hj
    subst hj
    have hread : fs'.read .bitv = some (bitvWithHeader crc x) := by
      rw [Files.read_eq (by rw [hnames, Function.update_self]), Files.data, hinodes]
      exact congrArg some hdata
    refine ⟨hwf.rename hr, trivial, ?_⟩
    rw [view, view, loadBitv_eq hread]
    exact .write
  | renameFails => cases hf
  | ioError => cases hf
  | removeTmp => cases hf
  | removeFile => cases hf

theorem failed_flushStep (h : FlushStep crc fs f fs' f') (hf : f.phase.failed = true) :
    f'.phase.failed = true := by
  induction h with
  | recv | tryRecv | tryRecvEmpty | openTmp | writeTmp | rename => cases hf
  | renameFails | ioError | removeTmp | removeFile => rfl

end DiskStore

open DiskStore in
/-- A flusher is an ordered writer, however its steps and the calls are interleaved. -/
theorem diskStore_writer (crc : List UInt8 → UInt32) :
    (diskStore crc).Writer (fun s => view crc s.1 s.2.flusher) (fun s => s.2.bv)
      (fun s => s.1.Wf ∧ TmpOk crc s.1 s.2.flusher.phase) where
  persisted_eq _ := rfl
  done_pending := by
    rintro ⟨fs, b⟩ ⟨hq, hp⟩
    simp only at hq hp
    simp [diskStore, view, hp, hq, FlushPhase.failed, FlushPhase.snapshot]
  failed_step := by
    rintro ⟨fs, b⟩ e ⟨fs', b'⟩ hs hf
    simp only [diskStore] at hs hf ⊢
    obtain ⟨i, -, -, -, rfl⟩ | ⟨-, -, -, rfl⟩ | ⟨-, -, -, rfl⟩ | ⟨ev, f', -, hstep, rfl⟩ :=
      DiskBackedBitV.step_cases hs
    · exact hf
    · rw [Flusher.send_phase]
      exact hf
    · rw [DiskBackedBitV.drop, Flusher.send_phase]
      exact hf
    · exact failed_flushStep hstep hf
  inv := by
    rintro ⟨fs, b⟩ e ⟨fs', b'⟩ ⟨hwf, htmp⟩ hok hs hf
    simp only [diskStore, Bool.not_eq_true] at hok hs hf htmp hwf ⊢
    obtain ⟨i, -, -, rfl, rfl⟩ | ⟨-, -, rfl, rfl⟩ | ⟨rfl, -⟩ | ⟨ev, f', -, hstep, rfl⟩ :=
      DiskBackedBitV.step_cases hs
    · exact ⟨hwf, htmp⟩
    · rw [Flusher.send_phase]
      exact ⟨hwf, htmp⟩
    · exact absurd rfl hok
    · obtain ⟨hwf', htmp', -⟩ := flushStep_write hwf htmp hstep hf
      exact ⟨hwf', htmp'⟩
  setBit := by
    rintro ⟨fs, b⟩ e ⟨fs', b'⟩ i - - hs - hc
    simp only [diskStore] at hs hc ⊢
    obtain ⟨j, rfl, -, rfl, rfl⟩ | ⟨rfl, -⟩ | ⟨rfl, -⟩ | ⟨ev, f', rfl, -⟩ :=
      DiskBackedBitV.step_cases hs
    · simp only [Option.some.injEq, BitvCall.setBit.injEq] at hc
      rw [hc]
      exact ⟨rfl, rfl⟩
    · cases hc
    · cases hc
    · cases hc
  flush := by
    rintro ⟨fs, b⟩ e ⟨fs', b'⟩ - - hs hf hc
    simp only [diskStore, Bool.not_eq_true] at hs hf hc ⊢
    obtain ⟨j, rfl, -⟩ | ⟨rfl, -, rfl, rfl⟩ | ⟨rfl, -⟩ | ⟨ev, f', rfl, -⟩ :=
      DiskBackedBitV.step_cases hs
    · cases hc
    · have hne : b.flusher.phase ≠ .ended := by
        intro he
        rw [Flusher.send_phase, he] at hf
        cases hf
      refine ⟨?_, rfl⟩
      rw [view, view, WriteQueue.push, Flusher.send_phase, Flusher.send_queue hne,
        List.append_assoc]
    · cases hc
    · cases hc
  write := by
    rintro ⟨fs, b⟩ e ⟨fs', b'⟩ ⟨hwf, htmp⟩ hok hs hf hc
    simp only [diskStore, Bool.not_eq_true] at hok hs hf hc htmp hwf ⊢
    obtain ⟨j, rfl, -⟩ | ⟨rfl, -⟩ | ⟨rfl, -⟩ | ⟨ev, f', rfl, hstep, rfl⟩ :=
      DiskBackedBitV.step_cases hs
    · cases hc
    · cases hc
    · exact absurd rfl hok
    · exact ⟨(flushStep_write hwf htmp hstep hf).2.2, rfl⟩

/-! The Postgres store. -/

def pgStore (ok : PgBitfield → PgEvent → Prop) : BitvStore PgBitfield PgEvent where
  step := PgBitfield.step
  ok
  call
    | .setBit i => some (.setBit i)
    | .flush => some .flush
    | .update _ | .updateError _ => none
  persisted b := b.haveBitfield
  done b := b.tasks = [] ∧ b.failed = false
  failed b := b.failed = true

/-- The updates are executed in the order of the `flush` calls. -/
def UpdatesInOrder (_ : PgBitfield) : PgEvent → Prop
  | .update k => k = 0
  | .setBit _ | .flush | .updateError _ => True

theorem pgStore_writer :
    (pgStore UpdatesInOrder).Writer (fun b => ⟨b.haveBitfield, b.tasks⟩) (fun b => b.inmem)
      (fun _ => True) where
  persisted_eq _ := rfl
  done_pending b h := by
    obtain ⟨ht, hf⟩ := h
    exact ⟨by simp [pgStore, hf], ht⟩
  failed_step b e b' hs hf := by
    simp only [pgStore] at hs hf ⊢
    obtain ⟨i, -, rfl⟩ | ⟨-, rfl⟩ | ⟨k, x, -, -, rfl⟩ | ⟨k, -, rfl⟩ := PgBitfield.step_cases hs
    · exact hf
    · exact hf
    · exact hf
    · rfl
  inv _ _ _ _ _ _ _ := trivial
  setBit b e b' i _ _ hs _ hc := by
    obtain ⟨j, rfl, rfl⟩ | ⟨rfl, -⟩ | ⟨k, x, rfl, -⟩ | ⟨k, rfl, -⟩ := PgBitfield.step_cases hs
    · simp only [pgStore, Option.some.injEq, BitvCall.setBit.injEq] at hc
      rw [hc]
      exact ⟨rfl, rfl⟩
    · cases hc
    · cases hc
    · cases hc
  flush b e b' _ _ hs _ hc := by
    obtain ⟨j, rfl, -⟩ | ⟨rfl, rfl⟩ | ⟨k, x, rfl, -⟩ | ⟨k, rfl, -⟩ := PgBitfield.step_cases hs
    · cases hc
    · exact ⟨rfl, rfl⟩
    · cases hc
    · cases hc
  write b e b' _ hok hs hf hc := by
    obtain ⟨j, rfl, -⟩ | ⟨rfl, -⟩ | ⟨k, x, rfl, hx, rfl⟩ | ⟨k, rfl, rfl⟩ := PgBitfield.step_cases hs
    · cases hc
    · cases hc
    · obtain rfl : k = 0 := hok
      refine ⟨?_, rfl⟩
      cases ht : b.tasks with
      | nil => simp [ht] at hx
      | cons y rest =>
        obtain rfl : y = x := by simpa [ht] using hx
        exact .write
    · exact absurd rfl hf

/-- The last snapshot is what is persisted in the end, and no persisted bit is lost on the way:
for the disk-backed store in every run, for the Postgres store when its updates are executed in
the order of the `flush` calls. -/
theorem flushes_persist_in_order (crc : List UInt8 → UInt32) :
    (∀ fs bv, fs.Wf → loadBitv crc fs = some bv →
      (diskStore crc).KeepsOrder bv (fs, .new bv)) ∧
    ∀ bv row, row = none ∨ row = some bv →
      (pgStore UpdatesInOrder).KeepsOrder bv ⟨bv, [], row, false⟩ := by
  constructor
  · intro fs bv hwf hload
    refine (diskStore_writer crc).keepsOrder (fs, .new bv) ⟨hwf, trivial⟩ rfl ?_
    intro x hx
    rw [show loadBitv crc fs = some x from hx, Option.some.injEq] at hload
    rw [hload]
    exact fun _ h => h
  · intro bv row hrow
    refine pgStore_writer.keepsOrder ⟨bv, [], row, false⟩ trivial rfl ?_
    intro x hx
    rcases hrow with rfl | rfl
    · cases hx
    · obtain rfl := Option.some.inj hx
      exact fun _ h => h

theorem emptyBitfield_keepsOrder :
    (diskStore fun _ => 0).KeepsOrder [0] (storedBitfield (fun _ => 0) [0], .new [0]) ∧
    (pgStore UpdatesInOrder).KeepsOrder [0] ⟨[0], [], none, false⟩ :=
  ⟨(flushes_persist_in_order _).1 _ [0] (storedBitfield_wf [0]) (loadBitv_storedBitfield [0]),
    (flushes_persist_in_order fun _ => 0).2 [0] none (Or.inl rfl)⟩

/-- Two flushes, the first of which is executed last: the bit that was set between them is lost. -/
theorem updates_out_of_order :
    ¬ (pgStore Any).KeepsOrder [0] ⟨[0], [], none, false⟩ := by
  intro h
  have hrun : Run PgBitfield.step Any (⟨[0], [], none, false⟩ : PgBitfield)
      [.flush, .setBit 0, .flush, .update 1, .update 0] ⟨[128], [], some [0], false⟩ :=
    Run.of_exec (by decide)
  have hlast := (h _ _ hrun).1 ⟨rfl, rfl⟩ [128] (by decide)
  revert hlast
  decide

end Rtbit
