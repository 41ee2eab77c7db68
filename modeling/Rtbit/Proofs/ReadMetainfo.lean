import Rtbit.Proofs.MetadataReader
import Rtbit.Spec.ReadMetainfo

/-! The loop over the peers of a magnet. A token is given back with each read that fails, so no
more than 128 connections are open, and none that waits is left without one for good. Every address
of the stream is read from once, and what is returned has the info hash. -/

namespace Rtbit

open Lib

namespace Metadata

variable {A E I H : Type}

namespace ReadMetainfo

variable {lastElementSize : ℕ → ℕ → ℕ} {sha1 : List UInt8 → H} {infoHash : H}
  {parse : List UInt8 → Except E I} {s s' : ReadMetainfo A E I} {e : ReadEvent A}
  {events : List (ReadEvent A)} {initial : List A}

/-! The futures as a pool. -/

def isReading : A × ReadInfo E I → Bool := fun r =>
  match r.2 with
  | .waiting => false
  | .reading _ => true

theorem reading_eq (s : ReadMetainfo A E I) : s.reading = s.unordered.countP isReading := rfl

theorem pool_perm {l : List (A × ReadInfo E I)} {i : ℕ} {r : A × ReadInfo E I}
    (h : l[i]? = some r) : l.Perm (r :: l.eraseIdx i) := by
  obtain ⟨hi, rfl⟩ := List.getElem?_eq_some_iff.1 h
  exact (List.getElem_cons_eraseIdx_perm hi).symm

/-- A future that goes on keeps its address. -/
theorem pool_set {l : List (A × ReadInfo E I)} {i : ℕ} {r : A × ReadInfo E I}
    (h : l[i]? = some r) (r' : A × ReadInfo E I) : (l.set i r').Perm (r' :: l.eraseIdx i) :=
  List.set_perm_cons_eraseIdx (List.getElem?_eq_some_iff.1 h).1 r'

theorem pool_map_fst {l : List (A × ReadInfo E I)} {i : ℕ} {a : A} {r : ReadInfo E I}
    (h : l[i]? = some (a, r)) (r' : ReadInfo E I) :
    ((l.set i (a, r')).map Prod.fst).Perm (l.map Prod.fst) := by
  have hset := (pool_set h (a, r')).map Prod.fst
  have hall := (pool_perm h).map Prod.fst
  exact hset.trans hall.symm

/-- The check on top of the loop changes the result only. -/
theorem loopTop_cases (s : ReadMetainfo A E I) : s.loopTop = s ∧
      (s.addrsCompleted = true → s.unordered ≠ []) ∨
    s.addrsCompleted = true ∧ s.unordered = [] ∧
      s.loopTop = { s with result := some (.channelClosed s.seen) } := by
  rw [loopTop]
  split_ifs with h
  · rw [Bool.and_eq_true, List.isEmpty_iff] at h
    exact Or.inr ⟨h.1, h.2, rfl⟩
  · refine Or.inl ⟨rfl, fun hc hnil => h ?_⟩
    rw [hc, hnil]
    rfl

/-! The accounts. -/

/-- The addresses of the futures, those that have failed among them, are the initial ones and each
new one of the stream, once. -/
def EachOnce (initial : List A) (events : List (ReadEvent A)) (s : ReadMetainfo A E I) : Prop :=
  ∃ new : List A, new.Nodup ∧ (∀ a, a ∈ new ↔ a ∈ taken events ∧ a ∉ initial) ∧
    (s.unordered.map Prod.fst ++ s.errors).Perm (initial ++ new)

/-- What holds of the result. -/
def Returned (sha1 : List UInt8 → H) (infoHash : H) (parse : List UInt8 → Except E I)
    (s : ReadMetainfo A E I) : Option (ReadMetainfoResult A I) → Prop
  -- the `select!` has a branch that is enabled
  | none => s.unordered ≠ [] ∨ s.addrsCompleted = false
  | some (.found info infoBytes seen) =>
    sha1 infoBytes = infoHash ∧ parse infoBytes = .ok info ∧ seen = s.seen
  | some (.channelClosed seen) => s.addrsCompleted = true ∧ s.unordered = [] ∧ seen = s.seen

structure Accounts (sha1 : List UInt8 → H) (infoHash : H) (parse : List UInt8 → Except E I)
    (initial : List A) (events : List (ReadEvent A)) (s : ReadMetainfo A E I) : Prop where
  permits : s.permits + s.reading = maxReads
  eachOnce : EachOnce initial events s
  seen : ∀ a, a ∈ s.seen ↔ a ∈ initial ∨ a ∈ taken events
  completed : s.addrsCompleted = true ↔ .nextAddr none ∈ events
  returned : Returned sha1 infoHash parse s s.result

structure Inv (sha1 : List UInt8 → H) (infoHash : H) (parse : List UInt8 → Except E I)
    (initial : List A) (events : List (ReadEvent A)) (s : ReadMetainfo A E I) : Prop where
  permits : s.permits + s.reading = maxReads
  readers : ∀ r ∈ s.unordered, ∀ h, r.2 = .reading h → ReaderInv sha1 infoHash parse h
  eachOnce : EachOnce initial events s
  seen : ∀ a, a ∈ s.seen ↔ a ∈ initial ∨ a ∈ taken events
  completed : s.addrsCompleted = true ↔ .nextAddr none ∈ events
  returned : Returned sha1 infoHash parse s s.result

theorem taken_append (e : ReadEvent A) :
    taken (events ++ [e]) = taken events ++ taken [e] := List.filterMap_append

/-- An event that the stream has no part in. -/
theorem taken_other (events : List (ReadEvent A)) (h : ∀ a, e ≠ .nextAddr a) :
    taken (events ++ [e]) = taken events := by
  rw [taken_append]
  cases e with
  | nextAddr a => exact absurd rfl (h a)
  | acquire i | call i c | result i | connectionEnded i => exact List.append_nil _

theorem completed_other (h : ∀ a, e ≠ .nextAddr a) :
    .nextAddr none ∈ events ++ [e] ↔ .nextAddr none ∈ events := by
  rw [List.mem_append, List.mem_singleton]
  exact or_iff_left fun he => h none he.symm

/-- The check on top of the loop finds what the accounts of the state allow. -/
theorem Inv.loopTop
    (permits : s.permits + s.reading = maxReads)
    (readers : ∀ r ∈ s.unordered, ∀ h, r.2 = .reading h → ReaderInv sha1 infoHash parse h)
    (eachOnce : EachOnce initial events s)
    (seen : ∀ a, a ∈ s.seen ↔ a ∈ initial ∨ a ∈ taken events)
    (completed : s.addrsCompleted = true ↔ .nextAddr none ∈ events) (running : s.result = none) :
    Inv sha1 infoHash parse initial events s.loopTop := by
  rcases s.loopTop_cases with ⟨htop, hne⟩ | ⟨hc, hnil, htop⟩
  · rw [htop]
    refine ⟨permits, readers, eachOnce, seen, completed, ?_⟩
    rw [running]
    cases hc : s.addrsCompleted with
    | false => exact Or.inr hc
    | true => exact Or.inl (hne hc)
  · rw [htop]
    exact ⟨permits, readers, eachOnce, seen, completed, hc, hnil, rfl⟩

/-- A future that goes on. -/
theorem Inv.goesOn (h : Inv sha1 infoHash parse initial events s) (hnone : s.result = none)
    (he : ∀ x, e ≠ .nextAddr x) {i : ℕ} {a : A} {r : ReadInfo E I} {hd : Handler E I} {p : ℕ}
    (hi : s.unordered[i]? = some (a, r))
    (hp : p + 1 + (s.unordered.eraseIdx i).countP isReading = maxReads)
    (hreader : ReaderInv sha1 infoHash parse hd) :
    Inv sha1 infoHash parse initial (events ++ [e])
      { s with permits := p, unordered := s.unordered.set i (a, .reading hd) } := by
  have ht := taken_other events he
  constructor
  case permits =>
    have hafter := (pool_set hi (a, .reading hd)).countP_eq isReading
    rw [reading_eq, hafter, List.countP_cons]
    simp only [isReading, if_true]
    omega
  case readers =>
    intro r' hr' hd' heq
    rcases List.mem_or_eq_of_mem_set hr' with hr' | rfl
    · exact h.readers r' hr' hd' heq
    · obtain rfl := ReadInfo.reading.inj heq
      exact hreader
  case eachOnce =>
    obtain ⟨new, hnodup, hnew, hperm⟩ := h.eachOnce
    refine ⟨new, hnodup, fun b => ht ▸ hnew b, ?_⟩
    exact ((pool_map_fst hi _).append_right _).trans hperm
  case seen => exact fun b => ht ▸ h.seen b
  case completed => exact h.completed.trans (completed_other he).symm
  case returned =>
    have hrun := h.returned
    rw [hnone] at hrun
    change Returned sha1 infoHash parse _ s.result
    rw [hnone]
    refine hrun.imp_left fun hne hnil => hne ?_
    simpa using hnil

theorem Inv.found (h : Inv sha1 infoHash parse initial events s) (he : ∀ x, e ≠ .nextAddr x)
    {i : ℕ} {a : A} {hd : Handler E I} {info : I} {bytes : List UInt8} {rest : List (ReadResult E I)}
    (hi : s.unordered[i]? = some (a, .reading hd)) (hsent : hd.sent = .ok (info, bytes) :: rest) :
    Inv sha1 infoHash parse initial (events ++ [e])
      { s with result := some (.found info bytes s.seen) } := by
  have ht := taken_other events he
  constructor
  case permits => exact h.permits
  case readers => exact h.readers
  case eachOnce =>
    obtain ⟨new, hnodup, hnew, hperm⟩ := h.eachOnce
    exact ⟨new, hnodup, fun b => ht ▸ hnew b, hperm⟩
  case seen => exact fun b => ht ▸ h.seen b
  case completed => exact h.completed.trans (completed_other he).symm
  case returned =>
    have hinv := h.readers _ (List.mem_of_getElem? hi) hd rfl
    obtain ⟨bytes', hhash, hr⟩ := hinv.once.2 (.ok (info, bytes)) (hsent ▸ List.mem_cons_self)
    cases hparse : parse bytes' with
    | error err =>
      rw [hparse] at hr
      cases hr
    | ok info' =>
      rw [hparse] at hr
      cases hr
      exact ⟨hhash, hparse, rfl⟩

/-- The address of a future that fails goes to the log, and its token back. -/
theorem Inv.failed (h : Inv sha1 infoHash parse initial events s) (hnone : s.result = none)
    (he : ∀ x, e ≠ .nextAddr x) {i : ℕ} {a : A} {hd : Handler E I}
    (hi : s.unordered[i]? = some (a, .reading hd)) :
    Inv sha1 infoHash parse initial (events ++ [e]) (s.readFailed i a) := by
  have ht := taken_other events he
  have hpool := pool_perm hi
  apply Inv.loopTop
  case permits =>
    have hbefore := hpool.countP_eq isReading
    have hsum := h.permits
    rw [reading_eq] at hsum ⊢
    rw [List.countP_cons] at hbefore
    simp only [isReading, if_true] at hbefore hsum ⊢
    omega
  case readers => exact fun r hr => h.readers r (List.mem_of_mem_eraseIdx hr)
  case eachOnce =>
    obtain ⟨new, hnodup, hnew, hperm⟩ := h.eachOnce
    refine ⟨new, hnodup, fun b => ht ▸ hnew b, List.Perm.trans ?_ hperm⟩
    refine List.Perm.trans ?_ ((hpool.map Prod.fst).append_right s.errors).symm
    rw [← List.append_assoc, List.map_cons, List.cons_append]
    exact List.perm_append_singleton a _
  case seen => exact fun b => ht ▸ h.seen b
  case completed => exact h.completed.trans (completed_other he).symm
  case running => exact hnone

theorem Inv.ended (h : Inv sha1 infoHash parse initial events s) (hnone : s.result = none) :
    Inv sha1 infoHash parse initial (events ++ [.nextAddr none])
      (ReadMetainfo.loopTop { s with addrsCompleted := true }) := by
  have ht : taken (events ++ [.nextAddr none]) = taken events :=
    (taken_append _).trans (List.append_nil _)
  apply Inv.loopTop
  case permits => exact h.permits
  case readers => exact h.readers
  case eachOnce =>
    obtain ⟨new, hnodup, hnew, hperm⟩ := h.eachOnce
    exact ⟨new, hnodup, fun b => ht ▸ hnew b, hperm⟩
  case seen => exact fun b => ht ▸ h.seen b
  case completed => simp
  case running => exact hnone

section

variable [DecidableEq A]

theorem inv_start (initial : List A) :
    Inv sha1 infoHash parse initial [] (start initial : ReadMetainfo A E I) := by
  refine Inv.loopTop ?_ ?_ ?_ ?_ ?_ rfl
  · have hzero : (initial.map fun a => ((a, .waiting) : A × ReadInfo E I)).countP isReading = 0 := by
      rw [List.countP_map, List.countP_eq_zero]
      rintro a - hr
      cases hr
    rw [reading_eq, hzero, Nat.add_zero]
  · intro r hr h hh
    obtain ⟨a, -, rfl⟩ := List.mem_map.1 hr
    cases hh
  · refine ⟨[], List.nodup_nil, fun a => ?_, ?_⟩
    · simp [taken]
    · rw [List.append_nil, List.append_nil, List.map_map]
      exact List.Perm.of_eq (List.map_id initial)
  · simp [taken]
  · simp

theorem Inv.addr (h : Inv sha1 infoHash parse initial events s) (hnone : s.result = none)
    (a : A) (hopen : s.addrsCompleted = false) :
    Inv sha1 infoHash parse initial (events ++ [.nextAddr (some a)]) (s.addAddr a) := by
  have ht (b : A) : b ∈ taken (events ++ [.nextAddr (some a)]) ↔ b ∈ taken events ∨ b = a := by
    rw [taken_append, List.mem_append]
    exact or_congr_right List.mem_singleton
  have hcompleted : s.addrsCompleted = true ↔
      ReadEvent.nextAddr none ∈ events ++ [.nextAddr (some a)] := by
    rw [h.completed, List.mem_append, List.mem_singleton]
    exact (or_iff_left nofun).symm
  obtain ⟨new, hnodup, hnew, hperm⟩ := h.eachOnce
  rw [addAddr]
  split_ifs with hmem
  · have hold := (h.seen a).1 hmem
    constructor
    case permits => exact h.permits
    case readers => exact h.readers
    case eachOnce =>
      refine ⟨new, hnodup, fun b => ?_, hperm⟩
      rw [hnew b, ht b]
      constructor
      · exact fun ⟨hb, hni⟩ => ⟨Or.inl hb, hni⟩
      · rintro ⟨hb | rfl, hni⟩
        · exact ⟨hb, hni⟩
        · exact ⟨hold.resolve_left hni, hni⟩
    case seen =>
      intro b
      rw [h.seen b, ht b, ← or_assoc]
      refine ⟨Or.inl, ?_⟩
      rintro (hb | rfl)
      · exact hb
      · exact hold
    case completed => exact hcompleted
    case returned =>
      rw [hnone]
      exact Or.inr hopen
  · obtain ⟨hni, hnt⟩ := not_or.1 fun hor => hmem ((h.seen a).2 hor)
    constructor
    case permits =>
      have hsum := h.permits
      rw [reading_eq] at hsum ⊢
      rw [List.countP_append]
      exact hsum
    case readers =>
      intro r hr hd heq
      rcases List.mem_append.1 hr with hr | hr
      · exact h.readers r hr hd heq
      · rw [List.mem_singleton.1 hr] at heq
        cases heq
    case eachOnce =>
      refine ⟨new ++ [a], ?_, fun b => ?_, ?_⟩
      · refine List.nodup_append_comm.1 (List.nodup_cons.2 ⟨fun ha => hnt ((hnew a).1 ha).1, hnodup⟩)
      · rw [List.mem_append, List.mem_singleton, hnew b, ht b]
        constructor
        · rintro (⟨hb, hi⟩ | rfl)
          · exact ⟨Or.inl hb, hi⟩
          · exact ⟨Or.inr rfl, hni⟩
        · rintro ⟨hb | rfl, hi⟩
          · exact Or.inl ⟨hb, hi⟩
          · exact Or.inr rfl
      · -- the new future stands before the log
        rw [← List.append_assoc, List.map_append, List.append_assoc]
        refine List.Perm.trans (List.Perm.append_left _ List.perm_append_comm) ?_
        rw [← List.append_assoc]
        exact hperm.append_right _
    case seen =>
      intro b
      rw [Finset.mem_insert, h.seen b, ht b, or_comm, or_assoc]
    case completed => exact hcompleted
    case returned =>
      change Returned sha1 infoHash parse _ s.result
      rw [hnone]
      exact Or.inr hopen

variable [DecidableEq H]

/-- The steps of the loop, the events aside that the accounts do not tell apart. -/
inductive Does (lastElementSize : ℕ → ℕ → ℕ) (sha1 : List UInt8 → H) (infoHash : H)
    (parse : List UInt8 → Except E I) (s : ReadMetainfo A E I) :
    ReadEvent A → ReadMetainfo A E I → Prop
  | acquire {i a} : s.unordered[i]? = some (a, .waiting) → 0 < s.permits →
      Does lastElementSize sha1 infoHash parse s (.acquire i)
        { s with permits := s.permits - 1, unordered := s.unordered.set i (a, .reading .new) }
  | call {i a h c h'} : s.unordered[i]? = some (a, .reading h) →
      readerStep lastElementSize sha1 infoHash parse h c = some h' →
      Does lastElementSize sha1 infoHash parse s (.call i c)
        { s with unordered := s.unordered.set i (a, .reading h') }
  | found {i a h info bytes rest} : s.unordered[i]? = some (a, .reading h) →
      h.sent = .ok (info, bytes) :: rest →
      Does lastElementSize sha1 infoHash parse s (.result i)
        { s with result := some (.found info bytes s.seen) }
  | failed {e i a h} : e = .result i ∨ e = .connectionEnded i →
      s.unordered[i]? = some (a, .reading h) →
      Does lastElementSize sha1 infoHash parse s e (s.readFailed i a)
  | addr {a} : s.addrsCompleted = false →
      Does lastElementSize sha1 infoHash parse s (.nextAddr (some a)) (s.addAddr a)
  | ended : s.addrsCompleted = false →
      Does lastElementSize sha1 infoHash parse s (.nextAddr none)
        (loopTop { s with addrsCompleted := true })

theorem step_cases (h : s.step lastElementSize sha1 infoHash parse e = some s') :
    s.result = none ∧ Does lastElementSize sha1 infoHash parse s e s' := by
  rw [step] at h
  split_ifs at h with hresult
  refine ⟨Option.not_isSome_iff_eq_none.1 hresult, ?_⟩
  cases e with
  | acquire i =>
    rw [select] at h
    split at h
    · rename_i a hi
      split_ifs at h with hp
      cases h
      exact .acquire hi hp
    · cases h
  | call i c =>
    rw [select] at h
    split at h
    · rename_i a hd hi
      obtain ⟨h', hstep, rfl⟩ := Option.map_eq_some_iff.1 h
      exact .call hi hstep
    · cases h
  | result i =>
    rw [select] at h
    split at h
    · rename_i a hd hi
      split at h
      · cases h
      · rename_i info bytes rest hsent
        cases h
        exact .found hi hsent
      · cases h
        exact .failed (Or.inl rfl) hi
    · cases h
  | connectionEnded i =>
    rw [select] at h
    split at h
    · rename_i a hd hi
      cases h
      exact .failed (Or.inr rfl) hi
    · cases h
  | nextAddr a =>
    rcases a with _ | a <;> rw [select] at h <;> split_ifs at h with hc <;> cases h
    · exact .ended (by simpa using hc)
    · exact .addr (by simpa using hc)

theorem Inv.step (hlast : LastElementSize lastElementSize)
    (h : Inv sha1 infoHash parse initial events s)
    (hs : s.step lastElementSize sha1 infoHash parse e = some s') :
    Inv sha1 infoHash parse initial (events ++ [e]) s' := by
  obtain ⟨hnone, hd⟩ := step_cases hs
  have hsum := h.permits
  cases hd with
  | @acquire i a hi hp =>
    have hcount := (pool_perm hi).countP_eq isReading
    rw [List.countP_cons] at hcount
    simp only [reading_eq, isReading, Bool.false_eq_true, if_false] at hcount hsum
    exact h.goesOn (e := .acquire i) hnone nofun hi (p := s.permits - 1) (by omega) readerInv_new
  | @call i a hd c hd' hi hstep =>
    have hcount := (pool_perm hi).countP_eq isReading
    rw [List.countP_cons] at hcount
    simp only [reading_eq, isReading, if_true] at hcount hsum
    exact h.goesOn (e := .call i c) hnone nofun hi (p := s.permits) (by omega)
      (step_readerInv hlast (h.readers _ (List.mem_of_getElem? hi) hd rfl) hstep)
  | @found i a hd info bytes rest hi hsent => exact h.found (e := .result i) nofun hi hsent
  | failed he hi =>
    refine h.failed hnone (fun x hx => ?_) hi
    rcases he with he | he <;> rw [he] at hx <;> cases hx
  | addr hopen => exact h.addr hnone _ hopen
  | ended _ => exact h.ended hnone

/-- A run of the loop. -/
def Reads (lastElementSize : ℕ → ℕ → ℕ) (sha1 : List UInt8 → H) (infoHash : H)
    (parse : List UInt8 → Except E I) (s : ReadMetainfo A E I) (events : List (ReadEvent A))
    (t : ReadMetainfo A E I) : Prop :=
  Run (step lastElementSize sha1 infoHash parse) Any s events t

theorem Inv.reads (hlast : LastElementSize lastElementSize) {more : List (ReadEvent A)}
    (h : Inv sha1 infoHash parse initial events s)
    (hr : Reads lastElementSize sha1 infoHash parse s more s') :
    Inv sha1 infoHash parse initial (events ++ more) s' := by
  induction hr with
  | nil => rwa [List.append_nil]
  | snoc _ _ hs ih =>
    rw [← List.append_assoc]
    exact ih.step hlast hs

/-! The loop can always come to its end. -/

/-- What happens when no more peers come and all connections are lost. -/
def Closing : ReadEvent A → Prop
  | .acquire _ => True
  | .connectionEnded _ => True
  | .nextAddr a => a = none
  | _ => False

/-- A run of the loop in which nothing comes from the peers any more. -/
def Closes (lastElementSize : ℕ → ℕ → ℕ) (sha1 : List UInt8 → H) (infoHash : H)
    (parse : List UInt8 → Except E I) (s : ReadMetainfo A E I) (events : List (ReadEvent A))
    (t : ReadMetainfo A E I) : Prop :=
  Run (step lastElementSize sha1 infoHash parse) (fun _ e => Closing e) s events t

section

variable (lastElementSize) (sha1) (infoHash) (parse)

theorem step_end {i : ℕ} {a : A} {hd : Handler E I} (hnone : s.result = none)
    (hi : s.unordered[i]? = some (a, .reading hd)) :
    s.step lastElementSize sha1 infoHash parse (.connectionEnded i) = some (s.readFailed i a) := by
  rw [step, hnone, if_neg (by simp), select, hi]

theorem step_acquire {i : ℕ} {a : A} (hnone : s.result = none)
    (hi : s.unordered[i]? = some (a, .waiting)) (hp : 0 < s.permits) :
    s.step lastElementSize sha1 infoHash parse (.acquire i) = some { s with
      permits := s.permits - 1
      unordered := s.unordered.set i (a, .reading .new) } := by
  rw [step, if_neg (by simp [hnone]), select, hi]
  exact if_pos hp

/-- When no connection is open all tokens are there, and a future that waits gets one. -/
theorem exists_reading (hp : s.permits + s.reading = maxReads) (hne : s.unordered ≠ [])
    (hnone : s.result = none) : ∃ evs s₁, Closes lastElementSize sha1 infoHash parse s evs s₁ ∧
      s₁.result = none ∧ s₁.addrsCompleted = s.addrsCompleted ∧
      s₁.unordered.length = s.unordered.length ∧
      ∃ (i : ℕ) (a : A) (hd : Handler E I), s₁.unordered[i]? = some (a, .reading hd) := by
  by_cases hreading : ∃ r ∈ s.unordered, isReading r = true
  · obtain ⟨⟨a, r⟩, hr, hreads⟩ := hreading
    obtain ⟨i, hi⟩ := List.mem_iff_getElem?.1 hr
    cases r with
    | waiting => cases hreads
    | reading hd => exact ⟨[], s, Run.nil, hnone, rfl, rfl, i, a, hd, hi⟩
  · have hzero : s.unordered.countP isReading = 0 :=
      List.countP_eq_zero.2 fun r hr hreads => hreading ⟨r, hr, hreads⟩
    have htokens : 0 < s.permits := by
      rw [reading_eq, hzero, maxReads] at hp
      omega
    obtain ⟨⟨a, r⟩, rest, hcons⟩ := List.exists_cons_of_ne_nil hne
    have hi : s.unordered[0]? = some (a, r) := by rw [hcons]; rfl
    cases r with
    | reading hd => exact ⟨[], s, Run.nil, hnone, rfl, rfl, 0, a, hd, hi⟩
    | waiting =>
      refine ⟨[.acquire 0], _, Run.single trivial (step_acquire _ _ _ _ hnone hi htokens), hnone, rfl,
        List.length_set, 0, a, .new, ?_⟩
      exact List.getElem?_set_self (List.length_pos_iff.2 hne)

end

theorem Inv.closes (hlast : LastElementSize lastElementSize) (n : ℕ) {events : List (ReadEvent A)}
    {s : ReadMetainfo A E I} (h : Inv sha1 infoHash parse initial events s)
    (hn : s.unordered.length = n) (hc : s.addrsCompleted = true) (hnone : s.result = none) :
    ∃ evs t, Closes lastElementSize sha1 infoHash parse s evs t ∧ t.result.isSome := by
  induction n generalizing events s with
  | zero =>
    have hrun := h.returned
    rw [hnone] at hrun
    rcases hrun with hne | hopen
    · exact absurd (List.length_eq_zero_iff.1 hn) hne
    · rw [hc] at hopen
      cases hopen
  | succ n ih =>
    have hne : s.unordered ≠ [] := List.ne_nil_of_length_eq_add_one hn
    obtain ⟨evs, s₁, hr, hnone₁, hc₁, hlen, i, a, hd, hi⟩ :=
      exists_reading lastElementSize sha1 infoHash parse h.permits hne hnone
    have hstep := step_end lastElementSize sha1 infoHash parse hnone₁ hi
    have hclosing : Closing (.connectionEnded i : ReadEvent A) := trivial
    have hr₂ := hr.snoc hclosing hstep
    have h₂ := h.reads hlast (hr₂.mono fun _ _ _ => trivial)
    cases hresult : (s₁.readFailed i a).result with
    | some r => exact ⟨_, _, hr₂, by rw [hresult]; rfl⟩
    | none =>
      have hshape : (s₁.readFailed i a).unordered = s₁.unordered.eraseIdx i ∧
          (s₁.readFailed i a).addrsCompleted = s₁.addrsCompleted := by
        rw [readFailed, ReadMetainfo.loopTop]
        split_ifs <;> exact ⟨rfl, rfl⟩
      obtain ⟨evs', t, hr₃, ht⟩ := ih h₂
        (by
          rw [hshape.1, List.length_eraseIdx_of_lt (List.getElem?_eq_some_iff.1 hi).1]
          omega)
        (hshape.2.trans (hc₁.trans hc)) hresult
      exact ⟨_, t, hr₂.trans hr₃, ht⟩

/-- Whatever has happened, the loop returns when no more peers come and all connections end. -/
theorem Inv.can_return (hlast : LastElementSize lastElementSize)
    (h : Inv sha1 infoHash parse initial events s) :
    ∃ evs t, Closes lastElementSize sha1 infoHash parse s evs t ∧ t.result.isSome := by
  cases hresult : s.result with
  | some r => exact ⟨[], s, Run.nil, by rw [hresult]; rfl⟩
  | none =>
    cases hc : s.addrsCompleted with
    | true => exact h.closes hlast _ rfl hc hresult
    | false =>
      have hstep : s.step lastElementSize sha1 infoHash parse (.nextAddr none) =
          some (ReadMetainfo.loopTop { s with addrsCompleted := true }) := by
        rw [ReadMetainfo.step, if_neg (by simp [hresult]), select, if_neg (by simp [hc])]
      have hclosing : Closing (.nextAddr none : ReadEvent A) := rfl
      have hr : Closes lastElementSize sha1 infoHash parse s [.nextAddr none] _ :=
        Run.single hclosing hstep
      have h₁ := h.step hlast hstep
      rcases ReadMetainfo.loopTop_cases { s with addrsCompleted := true } with
        ⟨htop, -⟩ | ⟨-, -, htop⟩
      · rw [htop] at h₁ hr
        obtain ⟨evs, t, hr₂, ht⟩ := h₁.closes hlast _ rfl rfl hresult
        exact ⟨_, t, hr.trans hr₂, ht⟩
      · exact ⟨_, _, hr, by rw [htop]; rfl⟩

end

/-- One peer is lost and comes again, in vain; the other has the metadata. -/
def secondPeer : List (ReadEvent ℕ) :=
  [.nextAddr (some 1), .acquire 0, .nextAddr (some 2), .nextAddr (some 1), .connectionEnded 0,
    .acquire 0, .nextAddr (some 1), .call 0 offer, .call 0 (onePiece 7), .result 0]

def foundBytes (s : ReadMetainfo A E I) : Option (List UInt8) :=
  match s.result with
  | some (.found _ bytes _) => some bytes
  | _ => none

end ReadMetainfo

end Metadata

end Rtbit
