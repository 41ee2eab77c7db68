import Rtbit.Lib.Runs
import Rtbit.Sanity.Chunks
import Rtbit.Spec.CredentialStore

/-! The requests to `/auth/setup` and `/auth/change_credentials`, interleaved between their locks
and their calls of the system, with restarts at any point. A setup that has passed its check is the
only one, and finds the store empty to its end; so it is the last one that succeeds, as long as a
restart finds what has been stored. -/

namespace Rtbit

open Lib

namespace CredentialStore

def Request.isSetup : Request → Bool
  | .setup _ _ => true
  | .changeCredentials _ _ _ => false

/-- The request has passed its check, and is in `set_credentials`. -/
def Stage.busy : Stage → Bool
  | .saving _ => true
  | .writing _ _ => true
  | .written _ => true
  | .saved _ => true
  | _ => false

def Stage.isWriting : Stage → Bool
  | .writing _ _ => true
  | _ => false

structure Call where
  request : Request
  stage : Stage
  /-- The process that serves it has not ended. -/
  alive : Bool
  /-- The credentials on disk when it opened the file, and behind its last step on the file. -/
  before : Option StoredCredentials
  after : Option StoredCredentials
  /-- It has changed the credentials in memory. -/
  sets : Bool
  /-- It has changed the credentials in memory or on disk after a request had stored some. -/
  replaced : Bool
  deriving DecidableEq, Repr

namespace Call

def new (r : Request) : Call := ⟨r, .handler r, true, none, none, false, false⟩

def busySetup (c : Call) : Bool := c.alive && c.request.isSetup && c.stage.busy

def busyChange (c : Call) : Bool := c.alive && !c.request.isSetup && c.stage.busy

def hasOpen (c : Call) : Bool := c.alive && c.stage.isWriting

/-- A setup that has succeeded. -/
def setUp (c : Call) : Bool := c.request.isSetup && c.stage == .responded .ok

end Call

structure System where
  store : CredentialStore
  basicAuth : Option StoredCredentials
  calls : List Call
  /-- Some request has stored credentials. -/
  stored : Bool
  deriving DecidableEq, Repr

inductive Event where
  | arrive (r : Request)
  /-- The next step of a call. -/
  | next (i : ℕ) (outcome : Option ℕ)
  /-- The process ends, wherever the calls are, and starts again. -/
  | restart (readFails : Bool) (basicAuth : Option StoredCredentials)
  deriving DecidableEq, Repr

variable (toStringPretty : StoredCredentials → List UInt8)
  (fromStr : List UInt8 → Option StoredCredentials)

/-- What is relied on of `serde_json`: the text of credentials is read back, and a part of it is not
the text of an object. -/
structure Serde : Prop where
  round : ∀ creds, fromStr (toStringPretty creds) = some creds
  torn : ∀ creds n, n < (toStringPretty creds).length →
    fromStr ((toStringPretty creds).take n) = none

/-- Two credentials cannot both have the empty text. -/
theorem Serde.nonempty {toStringPretty : StoredCredentials → List UInt8}
    {fromStr : List UInt8 → Option StoredCredentials} (h : Serde toStringPretty fromStr)
    (creds : StoredCredentials) : 0 < (toStringPretty creds).length := by
  by_contra hempty
  have hnil := List.eq_nil_of_length_eq_zero (Nat.eq_zero_of_not_pos hempty)
  have hnone (other : StoredCredentials) : fromStr [] = some creds ∧
      (0 < (toStringPretty other).length → fromStr [] = none) :=
    ⟨hnil ▸ h.round creds, fun hlt => h.torn other 0 hlt⟩
  have hall (other : StoredCredentials) : other = creds := by
    rcases Nat.eq_zero_or_pos (toStringPretty other).length with hzero | hpos
    · have hround := h.round other
      rw [List.eq_nil_of_length_eq_zero hzero, (hnone other).1] at hround
      exact (Option.some.inj hround).symm
    · have hempty := (hnone other).2 hpos
      rw [(hnone other).1] at hempty
      cases hempty
  exact absurd ((hall ⟨"", ""⟩).trans (hall ⟨"a", ""⟩).symm) (by decide)

namespace System

def start (readFails : Bool) (basicAuth : Option StoredCredentials)
    (file : Option (List UInt8)) : System :=
  ⟨new fromStr readFails file, basicAuth, [], false⟩

/-- The call behind a step. -/
def behind (s : System) (store : CredentialStore) (stage : Stage) (c : Call) : Call where
  request := c.request
  stage := stage
  alive := c.alive
  before :=
    match c.stage with
    | .saving _ => onDisk fromStr s.store.file
    | _ => c.before
  after :=
    match c.stage with
    | .saving _ => onDisk fromStr store.file
    | .writing _ _ => onDisk fromStr store.file
    | _ => c.after
  sets := c.sets || decide (store.credentials ≠ s.store.credentials)
  replaced := c.replaced || s.stored && (decide (store.credentials ≠ s.store.credentials) ||
    decide (onDisk fromStr store.file ≠ onDisk fromStr s.store.file))

def step (s : System) : Event → Option System
  | .arrive r => some { s with calls := s.calls ++ [.new r] }
  | .next i outcome =>
    match s.calls[i]? with
    | none => none
    | some c =>
      if c.alive then
        (s.store.step toStringPretty s.basicAuth outcome c.stage).map fun (store, stage) =>
          ⟨store, s.basicAuth, s.calls.set i (s.behind fromStr store stage c),
            s.stored || stage == .responded .ok⟩
      else none
  | .restart readFails basicAuth =>
    some { s with
      store := new fromStr readFails s.store.file
      basicAuth := basicAuth
      calls := s.calls.map fun c => { c with alive := false } }

/-- Setup succeeds once, no setup replaces credentials that have been stored, and a call that fails
leaves the credentials as they were. -/
structure SetupOnce (s : System) : Prop where
  once : ∀ (i j : ℕ) (c c' : Call), s.calls[i]? = some c → s.calls[j]? = some c' →
    c.setUp = true → c'.setUp = true → i = j
  keeps : ∀ c ∈ s.calls, c.request.isSetup = true → c.replaced = false
  failed : ∀ c ∈ s.calls, c.stage = .responded .internalServerError →
    c.sets = false ∧ c.after = c.before

/-- The conditions on the next step of a call. -/
def MayStep (s : System) (outcome : Option ℕ) (c : Call) : Prop :=
  match c.stage with
  -- no setup passes its check while another one is between its check and its end
  | .handler r => r.isSetup = true → (s.store.check s.basicAuth r).busy = true →
      ∀ c' ∈ s.calls, c'.busySetup = false
  -- no call opens the file while another one writes to it
  | .saving _ => outcome ≠ none → ∀ c' ∈ s.calls, c'.hasOpen = false
  -- a write fails only if there was nothing to lose
  | .writing _ _ => outcome.getD 0 = 0 → c.before = none
  -- nor are the permissions refused where the credentials are new
  | .written creds => outcome = none → c.before = some creds
  | _ => True

/-- And a restart finds credentials if some have been stored. -/
def Careful (s : System) : Event → Prop
  | .arrive _ => True
  | .next i outcome => ∀ c ∈ s.calls[i]?, c.alive = true → s.MayStep outcome c
  | .restart readFails _ =>
    s.stored = true → (new fromStr readFails s.store.file).credentials.isSome = true

/-! Setups. -/

/-- A setup behind its check is alone, and finds nothing to its end. -/
structure Setups (s : System) : Prop where
  stored : s.stored = true → s.store.credentials.isSome = true
  origin : ∀ (i : ℕ) c r, s.calls[i]? = some c → c.stage = .handler r → c.request = r
  setup : ∀ (i : ℕ) c, s.calls[i]? = some c → c.busySetup = true →
    s.store.credentials = none ∧ s.basicAuth = none
  change : ∀ (i : ℕ) c, s.calls[i]? = some c → c.busyChange = true →
    (s.store.credentials.or s.basicAuth).isSome = true
  alone : ∀ (i j : ℕ) c c', s.calls[i]? = some c → s.calls[j]? = some c' → c.busySetup = true →
    c'.busySetup = true → i = j
  done : ∀ (i : ℕ) c, s.calls[i]? = some c → c.setUp = true → s.stored = true
  once : ∀ (i j : ℕ) c c', s.calls[i]? = some c → s.calls[j]? = some c' → c.setUp = true →
    c'.setUp = true → i = j
  keeps : ∀ (i : ℕ) c, s.calls[i]? = some c → c.request.isSetup = true → c.replaced = false

variable {fromStr} {s s' : System} {i : ℕ} {c c' : Call}

/-- A call is at another step, and the credentials in memory are the same. -/
structure Moves (s s' : System) (i : ℕ) (c c' : Call) : Prop where
  get : s.calls[i]? = some c
  calls : s'.calls = s.calls.set i c'
  basicAuth : s'.basicAuth = s.basicAuth
  credentials : s'.store.credentials = s.store.credentials
  stored : s'.stored = s.stored
  request : c'.request = c.request
  setUp : c'.setUp = false
  handler : ∀ r, c'.stage ≠ .handler r
  replaced : s.stored = false → c'.replaced = c.replaced

theorem Setups.oneBusy (h : Setups s) : AtMostOne (fun c : Call => c.busySetup = true) s.calls :=
  h.alone

theorem Setups.oneDone (h : Setups s) : AtMostOne (fun c : Call => c.setUp = true) s.calls := h.once

theorem Setups.moves (h : Setups s) (hm : Moves s s' i c c')
    (hsetup : c'.busySetup = true → c.busySetup = true ∨
      (s.store.credentials = none ∧ s.basicAuth = none) ∧ ∀ d ∈ s.calls, d.busySetup = false)
    (hchange : c'.busyChange = true → (s.store.credentials.or s.basicAuth).isSome = true)
    (hreplaced : s.stored = true → c.request.isSetup = true → c'.replaced = c.replaced) :
    Setups s' := by
  have hkeep : c.request.isSetup = true → c'.replaced = c.replaced := by
    intro hr
    cases hs : s.stored with
    | false => exact hm.replaced hs
    | true => exact hreplaced hs hr
  constructor
  case stored =>
    rw [hm.stored, hm.credentials]
    exact h.stored
  case origin =>
    intro j d r hj hr
    rw [hm.calls] at hj
    rcases get_set hj with ⟨-, rfl⟩ | ⟨-, hj⟩
    · exact absurd hr (hm.handler r)
    · exact h.origin j d r hj hr
  case setup =>
    intro j d hj hd
    rw [hm.credentials, hm.basicAuth]
    rw [hm.calls] at hj
    rcases get_set hj with ⟨-, rfl⟩ | ⟨-, hj⟩
    · rcases hsetup hd with hold | ⟨hnone, -⟩
      · exact h.setup i c hm.get hold
      · exact hnone
    · exact h.setup j d hj hd
  case change =>
    intro j d hj hd
    rw [hm.credentials, hm.basicAuth]
    rw [hm.calls] at hj
    rcases get_set hj with ⟨-, rfl⟩ | ⟨-, hj⟩
    · exact hchange hd
    · exact h.change j d hj hd
  case alone =>
    rw [hm.calls]
    refine h.oneBusy.set ?_
    intro hc' j d hji hj hd
    rcases hsetup hc' with hold | ⟨-, hall⟩
    · exact hji (h.alone j i d c hj hm.get hd hold)
    · rw [hall d (List.mem_of_getElem? hj)] at hd
      cases hd
  case done =>
    intro j d hj hd
    rw [hm.stored]
    rw [hm.calls] at hj
    rcases get_set hj with ⟨-, rfl⟩ | ⟨-, hj⟩
    · rw [hm.setUp] at hd
      cases hd
    · exact h.done j d hj hd
  case once =>
    rw [hm.calls]
    refine h.oneDone.set ?_
    intro hc'
    rw [hm.setUp] at hc'
    cases hc'
  case keeps =>
    intro j d hj hd
    rw [hm.calls] at hj
    rcases get_set hj with ⟨-, rfl⟩ | ⟨-, hj⟩
    · rw [hm.request] at hd
      rw [hkeep hd]
      exact h.keeps i c hm.get hd
    · exact h.keeps j d hj hd

theorem Setups.not_stored (h : Setups s) (hc : s.calls[i]? = some c) (hbusy : c.busySetup = true) :
    s.stored = false := by
  by_contra hs
  have hsome := h.stored (Bool.eq_true_of_not_eq_false hs)
  rw [(h.setup i c hc hbusy).1] at hsome
  cases hsome

/-- The memory is updated: a setup that does so is the first that stores anything. -/
theorem Setups.saved {creds : StoredCredentials} (h : Setups s) (hc : s.calls[i]? = some c)
    (halive : c.alive = true) (hstage : c.stage = .saved creds) :
    Setups ⟨{ s.store with credentials := some creds }, s.basicAuth, s.calls.set i
      (s.behind fromStr { s.store with credentials := some creds } (.responded .ok) c), true⟩ := by
  have hnone {j : ℕ} {d : Call} (hji : j ≠ i) (hj : s.calls[j]? = some d) : d.busySetup = false := by
    by_contra hd
    have hd := Bool.eq_true_of_not_eq_false hd
    cases hr : c.request.isSetup with
    | true => exact hji (h.alone j i d c hj hc hd (by simp [Call.busySetup, halive, hr, hstage, Stage.busy]))
    | false =>
      have hsome := h.change i c hc (by simp [Call.busyChange, halive, hr, hstage, Stage.busy])
      rw [(h.setup j d hj hd).1, (h.setup j d hj hd).2] at hsome
      cases hsome
  have hfirst (hr : c.request.isSetup = true) : s.stored = false :=
    h.not_stored hc (by simp [Call.busySetup, halive, hr, hstage, Stage.busy])
  have hresp {d : Call} (hd : d = s.behind fromStr { s.store with credentials := some creds }
      (.responded .ok) c) : d.busySetup = false ∧ d.request = c.request := by
    subst hd
    exact ⟨by simp [Call.busySetup, behind, Stage.busy], rfl⟩
  refine ⟨fun _ => rfl, ?_, ?_, fun _ _ _ _ => rfl, ?_, fun _ _ _ _ => rfl, ?_, ?_⟩
  · intro j d r hj hr
    rcases get_set hj with ⟨-, rfl⟩ | ⟨-, hj⟩
    · cases hr
    · exact h.origin j d r hj hr
  · intro j d hj hd
    rcases get_set hj with ⟨-, he⟩ | ⟨hji, hj⟩
    · rw [(hresp he).1] at hd
      cases hd
    · rw [hnone hji hj] at hd
      cases hd
  · intro j k d₁ d₂ hj hk h₁ h₂
    rcases get_set hj with ⟨-, he⟩ | ⟨hji, hj⟩
    · rw [(hresp he).1] at h₁
      cases h₁
    · rw [hnone hji hj] at h₁
      cases h₁
  · intro j k d₁ d₂ hj hk h₁ h₂
    have hold {l : ℕ} {d : Call} (hl : s.calls[l]? = some d) (hd : d.setUp = true)
        (hr : c.request.isSetup = true) : False := by
      have hs := h.done l d hl hd
      rw [hfirst hr] at hs
      cases hs
    have hsetup {d : Call} (he : d = s.behind fromStr { s.store with credentials := some creds }
        (.responded .ok) c) (hd : d.setUp = true) : c.request.isSetup = true := by
      rw [← (hresp he).2]
      exact (Bool.and_eq_true_iff.1 hd).1
    rcases get_set hj with ⟨hji, he⟩ | ⟨-, hj⟩
    · rcases get_set hk with ⟨hki, -⟩ | ⟨-, hk⟩
      · rw [hji, hki]
      · exact (hold hk h₂ (hsetup he h₁)).elim
    · rcases get_set hk with ⟨-, he⟩ | ⟨-, hk⟩
      · exact (hold hj h₁ (hsetup he h₂)).elim
      · exact h.once j k d₁ d₂ hj hk h₁ h₂
  · intro j d hj hd
    rcases get_set hj with ⟨-, rfl⟩ | ⟨-, hj⟩
    · have hr : c.request.isSetup = true := hd
      have hold := h.keeps i c hc hr
      simp [behind, hfirst hr, hold]
    · exact h.keeps j d hj hd

/-! The file. -/

/-- One call writes at a time, the text of its credentials from the front. -/
structure Writes (s : System) : Prop where
  alone : ∀ (i j : ℕ) c c', s.calls[i]? = some c → s.calls[j]? = some c' → c.hasOpen = true →
    c'.hasOpen = true → i = j
  content : ∀ (i : ℕ) c creds n, s.calls[i]? = some c → c.alive = true →
    c.stage = .writing creds n →
    s.store.file = some ((toStringPretty creds).take n) ∧ n < (toStringPretty creds).length
  written : ∀ (i : ℕ) c creds, s.calls[i]? = some c → c.stage = .written creds →
    c.after = some creds
  failed : ∀ (i : ℕ) c, s.calls[i]? = some c → c.stage = .responded .internalServerError →
    c.sets = false ∧ c.after = c.before
  sets : ∀ (i : ℕ) c, s.calls[i]? = some c → c.sets = true → c.stage = .responded .ok

variable {toStringPretty}

theorem Writes.oneOpen (h : Writes toStringPretty s) :
    AtMostOne (fun c : Call => c.hasOpen = true) s.calls := h.alone

theorem Writes.moves (h : Writes toStringPretty s) (hc : s.calls[i]? = some c)
    (hcalls : s'.calls = s.calls.set i c')
    (hopen : c'.hasOpen = true → c.hasOpen = true ∨ ∀ d ∈ s.calls, d.hasOpen = false)
    (hfile : s'.store.file = s.store.file ∨
      ∀ (j : ℕ) d, j ≠ i → s.calls[j]? = some d → d.hasOpen = false)
    (hcontent : ∀ creds n, c'.alive = true → c'.stage = .writing creds n →
      s'.store.file = some ((toStringPretty creds).take n) ∧ n < (toStringPretty creds).length)
    (hwritten : ∀ creds, c'.stage = .written creds → c'.after = some creds)
    (hfailed : c'.stage = .responded .internalServerError → c'.sets = false ∧ c'.after = c'.before)
    (hsets : c'.sets = true → c'.stage = .responded .ok) : Writes toStringPretty s' := by
  constructor
  case alone =>
    rw [hcalls]
    refine h.oneOpen.set ?_
    intro hc' j d hji hj hd
    rcases hopen hc' with hold | hall
    · exact hji (h.alone j i d c hj hc hd hold)
    · rw [hall d (List.mem_of_getElem? hj)] at hd
      cases hd
  case content =>
    intro j d creds n hj halive hstage
    rw [hcalls] at hj
    rcases get_set hj with ⟨-, rfl⟩ | ⟨hji, hj⟩
    · exact hcontent creds n halive hstage
    · rcases hfile with hsame | hnone
      · rw [hsame]
        exact h.content j d creds n hj halive hstage
      · have hclosed := hnone j d hji hj
        rw [Call.hasOpen, halive, hstage] at hclosed
        cases hclosed
  case written =>
    intro j d creds hj hstage
    rw [hcalls] at hj
    rcases get_set hj with ⟨-, rfl⟩ | ⟨-, hj⟩
    · exact hwritten creds hstage
    · exact h.written j d creds hj hstage
  case failed =>
    intro j d hj hstage
    rw [hcalls] at hj
    rcases get_set hj with ⟨-, rfl⟩ | ⟨-, hj⟩
    · exact hfailed hstage
    · exact h.failed j d hj hstage
  case sets =>
    intro j d hj hd
    rw [hcalls] at hj
    rcases get_set hj with ⟨-, rfl⟩ | ⟨-, hj⟩
    · exact hsets hd
    · exact h.sets j d hj hd

/-! One step. -/

theorem step_next {outcome : Option ℕ} (hs : s.step toStringPretty fromStr (.next i outcome) = some s') :
    ∃ c store stage, s.calls[i]? = some c ∧ c.alive = true ∧
      s.store.step toStringPretty s.basicAuth outcome c.stage = some (store, stage) ∧
      s' = ⟨store, s.basicAuth, s.calls.set i (s.behind fromStr store stage c),
        s.stored || stage == .responded .ok⟩ := by
  rw [step] at hs
  cases hc : s.calls[i]? with
  | none =>
    rw [hc] at hs
    cases hs
  | some c =>
    rw [hc] at hs
    dsimp only at hs
    split_ifs at hs with halive
    obtain ⟨⟨store, stage⟩, hstep, rfl⟩ := Option.map_eq_some_iff.1 hs
    exact ⟨c, store, stage, rfl, halive, hstep, rfl⟩

/-- The credentials in memory stay, and the call goes on, or ends in another way than with 200. -/
theorem behind_moves {store : CredentialStore} {stage : Stage} (hc : s.calls[i]? = some c)
    (hcreds : store.credentials = s.store.credentials) (hok : stage ≠ .responded .ok)
    (hhandler : ∀ r, stage ≠ .handler r) :
    Moves s ⟨store, s.basicAuth, s.calls.set i (s.behind fromStr store stage c),
      s.stored || stage == .responded .ok⟩ i c (s.behind fromStr store stage c) := by
  have hbeq : (stage == .responded .ok) = false := beq_eq_false_iff_ne.2 hok
  refine ⟨hc, rfl, rfl, hcreds, ?_, rfl, ?_, hhandler, ?_⟩
  · rw [hbeq, Bool.or_false]
  · rw [Call.setUp]
    exact Bool.and_eq_false_iff.2 (Or.inr hbeq)
  · intro hs
    simp [behind, hs]

/-! The checks. -/

/-- What the two checks let through. -/
theorem check_eq {store : CredentialStore} {basicAuth : Option StoredCredentials} (r : Request) :
    (∃ status, store.check basicAuth r = .responded status ∧ status ≠ .ok ∧
        status ≠ .internalServerError) ∨
      ∃ creds, store.check basicAuth r = .saving creds ∧
        (r.isSetup = true → store.credentials = none ∧ basicAuth = none) ∧
        (r.isSetup = false → (store.credentials.or basicAuth).isSome = true) := by
  cases r with
  | setup username password =>
    rw [check]
    split_ifs with hsome hempty
    · exact Or.inl ⟨_, rfl, nofun, nofun⟩
    · exact Or.inl ⟨_, rfl, nofun, nofun⟩
    · refine Or.inr ⟨_, rfl, fun _ => ?_, nofun⟩
      simpa using hsome
  | changeCredentials currentPassword newUsername newPassword =>
    rw [check]
    cases hcurrent : store.credentials.or basicAuth with
    | none => exact Or.inl ⟨_, rfl, nofun, nofun⟩
    | some current =>
      dsimp only
      split_ifs
      · exact Or.inr ⟨_, rfl, nofun, fun _ => rfl⟩
      · exact Or.inl ⟨_, rfl, nofun, nofun⟩

/-! The text. -/

theorem overwrite_take (text : List UInt8) (n k : ℕ) (hn : n ≤ text.length) :
    Storage.overwrite (text.take n) n ((text.drop n).take k) =
      text.take (n + ((text.drop n).take k).length) := by
  have hlen : (text.take n).length = n := by rw [List.length_take, min_eq_left hn]
  have hrest : (text.take n).drop (n + ((text.drop n).take k).length) = [] :=
    List.drop_eq_nil_of_le (by omega)
  rw [Storage.overwrite, hrest, List.append_nil, hlen, Nat.sub_self, List.replicate_zero,
    List.append_nil, List.take_of_length_le hlen.le, List.take_add, List.length_take]
  exact congrArg _ List.take_eq_take_min

section

variable {outcome : Option ℕ}

theorem behind_same (stage : Stage) : (s.behind fromStr s.store stage c).replaced = c.replaced ∧
    (s.behind fromStr s.store stage c).sets = c.sets := by
  simp [behind]

/-- A call in `set_credentials` goes on there, or fails. -/
theorem Setups.next_busy {store : CredentialStore} {stage : Stage} (h : Setups s)
    (hc : s.calls[i]? = some c) (halive : c.alive = true) (hbusy : c.stage.busy = true)
    (hcreds : store.credentials = s.store.credentials) (hok : stage ≠ .responded .ok)
    (hhandler : ∀ r, stage ≠ .handler r) :
    Setups ⟨store, s.basicAuth, s.calls.set i (s.behind fromStr store stage c),
      s.stored || stage == .responded .ok⟩ := by
  have hsetup (hr : c.request.isSetup = true) : c.busySetup = true := by
    rw [Call.busySetup, halive, hr, hbusy]
    rfl
  refine h.moves (behind_moves hc hcreds hok hhandler) ?_ ?_ ?_
  · intro hb
    exact Or.inl (hsetup (Bool.and_eq_true_iff.1 (Bool.and_eq_true_iff.1 hb).1).2)
  · intro hb
    have hr := (Bool.and_eq_true_iff.1 (Bool.and_eq_true_iff.1 hb).1).2
    refine h.change i c hc ?_
    rw [Call.busyChange, halive, hbusy, Bool.and_true, Bool.true_and]
    exact hr
  · intro hs hr
    rw [h.not_stored hc (hsetup hr)] at hs
    cases hs

/-- A step inside `set_credentials`, before the memory is updated. -/
theorem step_busy {store store' : CredentialStore} {basicAuth : Option StoredCredentials}
    {stage stage' : Stage} (hbusy : stage.busy = true) (hsaved : ∀ creds, stage ≠ .saved creds)
    (hstep : store.step toStringPretty basicAuth outcome stage = some (store', stage')) :
    store'.credentials = store.credentials ∧ stage' ≠ .responded .ok ∧ ∀ r, stage' ≠ .handler r := by
  cases stage with
  | handler r => cases hbusy
  | saving creds =>
    cases outcome with
    | none =>
      obtain ⟨rfl, rfl⟩ := Prod.mk.inj (Option.some.inj hstep)
      exact ⟨rfl, nofun, nofun⟩
    | some n =>
      obtain ⟨rfl, rfl⟩ := Prod.mk.inj (Option.some.inj hstep)
      exact ⟨rfl, nofun, nofun⟩
  | writing creds n =>
    rw [CredentialStore.step] at hstep
    dsimp only at hstep
    split_ifs at hstep
    · obtain ⟨rfl, rfl⟩ := Prod.mk.inj (Option.some.inj hstep)
      exact ⟨rfl, nofun, nofun⟩
    · obtain ⟨rfl, rfl⟩ := Prod.mk.inj (Option.some.inj hstep)
      exact ⟨rfl, nofun, nofun⟩
    · obtain ⟨rfl, rfl⟩ := Prod.mk.inj (Option.some.inj hstep)
      exact ⟨rfl, nofun, nofun⟩
  | written creds =>
    cases outcome with
    | none =>
      obtain ⟨rfl, rfl⟩ := Prod.mk.inj (Option.some.inj hstep)
      exact ⟨rfl, nofun, nofun⟩
    | some n =>
      obtain ⟨rfl, rfl⟩ := Prod.mk.inj (Option.some.inj hstep)
      exact ⟨rfl, nofun, nofun⟩
  | saved creds => exact absurd rfl (hsaved creds)
  | responded status => cases hbusy

theorem Setups.next (h : Setups s) (hcareful : s.Careful fromStr (.next i outcome))
    (hs : s.step toStringPretty fromStr (.next i outcome) = some s') : Setups s' := by
  obtain ⟨c, store, stage, hc, halive, hstep, rfl⟩ := step_next hs
  have hmay := hcareful c hc halive
  unfold MayStep at hmay
  cases hstage : c.stage with
  | handler r =>
    rw [hstage] at hstep hmay
    dsimp only at hmay
    obtain ⟨rfl, rfl⟩ := Prod.mk.inj (Option.some.inj hstep)
    have horigin := h.origin i c r hc hstage
    obtain ⟨status, hcheck, hok, -⟩ | ⟨creds, hcheck, hsetup, hchange⟩ := @check_eq s.store
      s.basicAuth r
    · rw [hcheck]
      refine h.moves (behind_moves hc rfl (fun he => hok (Stage.responded.inj he)) nofun) ?_ ?_
        fun _ _ => (behind_same _).1
      · intro hb
        simp [Call.busySetup, behind, Stage.busy] at hb
      · intro hb
        simp [Call.busyChange, behind, Stage.busy] at hb
    · rw [hcheck] at hmay ⊢
      refine h.moves (behind_moves hc rfl nofun nofun) ?_ ?_ fun _ _ => (behind_same _).1
      · intro hb
        have hr : r.isSetup = true :=
          horigin ▸ (Bool.and_eq_true_iff.1 (Bool.and_eq_true_iff.1 hb).1).2
        exact Or.inr ⟨hsetup hr, hmay hr rfl⟩
      · intro hb
        have hr := (Bool.and_eq_true_iff.1 (Bool.and_eq_true_iff.1 hb).1).2
        exact hchange (by rw [← horigin]; exact (Bool.not_eq_true' _).mp hr)
  | saving creds | writing creds n | written creds =>
    have hbusy : c.stage.busy = true := by rw [hstage]; rfl
    obtain ⟨hcreds, hok, hhandler⟩ := step_busy hbusy (by rw [hstage]; exact nofun) hstep
    exact h.next_busy hc halive hbusy hcreds hok hhandler
  | saved creds =>
    rw [hstage] at hstep
    obtain ⟨rfl, rfl⟩ := Prod.mk.inj (Option.some.inj hstep)
    rw [show (s.stored || Stage.responded .ok == .responded .ok) = true from Bool.or_true _]
    exact h.saved hc halive hstage
  | responded status =>
    rw [hstage] at hstep
    cases hstep

/-- A step behind which the credentials in memory are the same. -/
theorem Writes.next_unset {store : CredentialStore} {stage : Stage} (h : Writes toStringPretty s)
    (hc : s.calls[i]? = some c) (hset : c.sets = false)
    (hcreds : store.credentials = s.store.credentials)
    (hopen : stage.isWriting = true → c.hasOpen = true ∨ ∀ d ∈ s.calls, d.hasOpen = false)
    (hfile : store.file = s.store.file ∨
      ∀ (j : ℕ) d, j ≠ i → s.calls[j]? = some d → d.hasOpen = false)
    (hcontent : ∀ creds n, stage = .writing creds n →
      store.file = some ((toStringPretty creds).take n) ∧ n < (toStringPretty creds).length)
    (hwritten : ∀ creds, stage = .written creds →
      (s.behind fromStr store stage c).after = some creds)
    (hfailed : stage = .responded .internalServerError →
      (s.behind fromStr store stage c).after = (s.behind fromStr store stage c).before) :
    Writes toStringPretty ⟨store, s.basicAuth, s.calls.set i (s.behind fromStr store stage c),
      s.stored || stage == .responded .ok⟩ := by
  have hunset : (s.behind fromStr store stage c).sets = false := by
    simp [behind, hset, hcreds]
  refine h.moves hc rfl (fun ho => hopen (Bool.and_eq_true_iff.1 ho).2) hfile
    (fun creds n _ => hcontent creds n) hwritten (fun hs => ⟨hunset, hfailed hs⟩) ?_
  intro hs
  rw [hunset] at hs
  cases hs

/-- A step behind which the call has no file open, and has not failed. -/
theorem Writes.next_closed {store : CredentialStore} {stage : Stage} (h : Writes toStringPretty s)
    (hc : s.calls[i]? = some c) (hset : c.sets = false)
    (hcreds : store.credentials = s.store.credentials) (hfile : store.file = s.store.file)
    (hwriting : stage.isWriting = false) (hwritten : ∀ creds, stage ≠ .written creds)
    (hfailed : stage = .responded .internalServerError →
      (s.behind fromStr store stage c).after = (s.behind fromStr store stage c).before) :
    Writes toStringPretty ⟨store, s.basicAuth, s.calls.set i (s.behind fromStr store stage c),
      s.stored || stage == .responded .ok⟩ := by
  refine h.next_unset hc hset hcreds ?_ (Or.inl hfile) ?_ (fun creds he => absurd he (hwritten creds))
    hfailed
  · intro hopen
    rw [hwriting] at hopen
    cases hopen
  · rintro creds n rfl
    cases hwriting

theorem Writes.next (h : Writes toStringPretty s) (hserde : Serde toStringPretty fromStr)
    (hcareful : s.Careful fromStr (.next i outcome))
    (hs : s.step toStringPretty fromStr (.next i outcome) = some s') : Writes toStringPretty s' := by
  obtain ⟨c, store, stage, hc, halive, hstep, rfl⟩ := step_next hs
  have hmay := hcareful c hc halive
  unfold MayStep at hmay
  -- before the last step nothing is set
  have hsets (hne : c.stage ≠ .responded .ok) : c.sets = false := by
    by_contra hset
    exact hne (h.sets i c hc (Bool.eq_true_of_not_eq_false hset))
  cases hstage : c.stage with
  | handler r =>
    rw [hstage] at hstep
    obtain ⟨rfl, rfl⟩ := Prod.mk.inj (Option.some.inj hstep)
    have hsets := hsets (by rw [hstage]; exact nofun)
    obtain ⟨status, hcheck, hok, hne⟩ | ⟨creds, hcheck, -, -⟩ := @check_eq s.store s.basicAuth r
    · rw [hcheck]
      refine h.next_closed hc hsets rfl rfl rfl nofun ?_
      intro he
      exact absurd (Stage.responded.inj he) hne
    · rw [hcheck]
      exact h.next_closed hc hsets rfl rfl rfl nofun nofun
  | saving creds =>
    rw [hstage] at hstep hmay
    dsimp only at hmay
    have hsets := hsets (by rw [hstage]; exact nofun)
    cases outcome with
    | none =>
      obtain ⟨rfl, rfl⟩ := Prod.mk.inj (Option.some.inj hstep)
      refine h.next_closed hc hsets rfl rfl rfl nofun ?_
      intro _
      simp [behind, hstage]
    | some n =>
      obtain ⟨rfl, rfl⟩ := Prod.mk.inj (Option.some.inj hstep)
      have hfree := hmay nofun
      refine h.next_unset hc hsets rfl (fun _ => Or.inr hfree)
        (Or.inr fun j d _ hj => hfree d (List.mem_of_getElem? hj)) ?_ nofun nofun
      intro creds' n' hwriting
      obtain ⟨rfl, rfl⟩ := Stage.writing.inj hwriting
      exact ⟨rfl, hserde.nonempty creds⟩
  | writing creds n =>
    rw [hstage] at hstep hmay
    dsimp only at hmay
    have hsets := hsets (by rw [hstage]; exact nofun)
    have hopen : c.hasOpen = true := by
      rw [Call.hasOpen, halive, hstage]
      rfl
    have halone (j : ℕ) (d : Call) (hne : j ≠ i) (hj : s.calls[j]? = some d) : d.hasOpen = false :=
      Bool.eq_false_of_not_eq_true (h.oneOpen.others hc hopen hne hj)
    obtain ⟨hfile, hlt⟩ := h.content i c creds n hc halive hstage
    have hgrows := overwrite_take (toStringPretty creds) n (outcome.getD 0) hlt.le
    have hle : n + (((toStringPretty creds).drop n).take (outcome.getD 0)).length ≤
        (toStringPretty creds).length := by
      rw [List.length_take, List.length_drop]
      omega
    rw [CredentialStore.step, hfile, Option.getD_some, hgrows] at hstep
    dsimp only at hstep
    split_ifs at hstep with hbuf hfull
    · obtain ⟨rfl, rfl⟩ := Prod.mk.inj (Option.some.inj hstep)
      have hzero : outcome.getD 0 = 0 := by
        rcases List.take_eq_nil_iff.1 hbuf with hzero | hdrop
        · exact hzero
        · exact absurd (List.drop_eq_nil_iff.1 hdrop) (Nat.not_le_of_lt hlt)
      refine h.next_closed hc hsets rfl rfl rfl nofun ?_
      intro _
      simp [behind, hstage, hmay hzero, onDisk, hfile, hserde.torn creds n hlt]
    · obtain ⟨rfl, rfl⟩ := Prod.mk.inj (Option.some.inj hstep)
      refine h.next_unset hc hsets rfl ?_ (Or.inr halone) nofun ?_ nofun
      · intro hopen
        cases hopen
      · intro creds' hwritten
        obtain rfl := Stage.written.inj hwritten
        rw [hfull, List.take_length]
        simp [behind, hstage, onDisk, hserde.round]
    · obtain ⟨rfl, rfl⟩ := Prod.mk.inj (Option.some.inj hstep)
      refine h.next_unset hc hsets rfl (fun _ => Or.inl hopen) (Or.inr halone) ?_ nofun nofun
      intro creds' n' hwriting
      obtain ⟨rfl, rfl⟩ := Stage.writing.inj hwriting
      exact ⟨rfl, lt_of_le_of_ne hle hfull⟩
  | written creds =>
    rw [hstage] at hstep hmay
    dsimp only at hmay
    have hsets := hsets (by rw [hstage]; exact nofun)
    cases outcome with
    | none =>
      obtain ⟨rfl, rfl⟩ := Prod.mk.inj (Option.some.inj hstep)
      refine h.next_closed hc hsets rfl rfl rfl nofun ?_
      intro _
      have hafter := h.written i c creds hc hstage
      simp [behind, hstage, hafter, hmay rfl]
    | some n =>
      obtain ⟨rfl, rfl⟩ := Prod.mk.inj (Option.some.inj hstep)
      exact h.next_closed hc hsets rfl rfl rfl nofun nofun
  | saved creds =>
    rw [hstage] at hstep
    obtain ⟨rfl, rfl⟩ := Prod.mk.inj (Option.some.inj hstep)
    refine h.moves hc rfl ?_ (Or.inl rfl) nofun nofun nofun fun _ => rfl
    intro hopen
    simp [Call.hasOpen, behind, Stage.isWriting] at hopen
  | responded status =>
    rw [hstage] at hstep
    cases hstep

end

/-! Runs. -/

theorem getElem?_map_some {f : Call → Call} {calls : List Call} {j : ℕ}
    (h : (calls.map f)[j]? = some c) : ∃ d, calls[j]? = some d ∧ f d = c := by
  rw [List.getElem?_map] at h
  exact Option.map_eq_some_iff.1 h

theorem Setups.step {e : Event} (h : Setups s) (hcareful : s.Careful fromStr e)
    (hs : s.step toStringPretty fromStr e = some s') : Setups s' := by
  cases e with
  | arrive r =>
    obtain rfl := Option.some.inj hs
    have hsetup : (Call.new r).busySetup = false := by simp [Call.new, Call.busySetup, Stage.busy]
    have hchange : (Call.new r).busyChange = false := by simp [Call.new, Call.busyChange, Stage.busy]
    have hdone : (Call.new r).setUp = false := by simp [Call.new, Call.setUp]
    refine ⟨h.stored, ?_, ?_, ?_, ?_, ?_, ?_, ?_⟩
    · intro j d r' hj hr
      rcases get_append hj with hj | ⟨-, rfl⟩
      · exact h.origin j d r' hj hr
      · exact Stage.handler.inj hr
    · intro j d hj hd
      rcases get_append hj with hj | ⟨-, rfl⟩
      · exact h.setup j d hj hd
      · rw [hsetup] at hd
        cases hd
    · intro j d hj hd
      rcases get_append hj with hj | ⟨-, rfl⟩
      · exact h.change j d hj hd
      · rw [hchange] at hd
        cases hd
    · refine h.oneBusy.append ?_
      rw [hsetup]
      exact Bool.false_ne_true
    · intro j d hj hd
      rcases get_append hj with hj | ⟨-, rfl⟩
      · exact h.done j d hj hd
      · rw [hdone] at hd
        cases hd
    · refine h.oneDone.append ?_
      rw [hdone]
      exact Bool.false_ne_true
    · intro j d hj hd
      rcases get_append hj with hj | ⟨-, rfl⟩
      · exact h.keeps j d hj hd
      · rfl
  | next i outcome => exact h.next hcareful hs
  | restart readFails basicAuth =>
    obtain rfl := Option.some.inj hs
    refine ⟨hcareful, ?_, ?_, ?_, ?_, ?_, ?_, ?_⟩
    · intro j d r hj hr
      obtain ⟨d, hj', rfl⟩ := getElem?_map_some hj
      exact h.origin j d r hj' hr
    · intro j d hj hd
      obtain ⟨d, -, rfl⟩ := getElem?_map_some hj
      cases hd
    · intro j d hj hd
      obtain ⟨d, -, rfl⟩ := getElem?_map_some hj
      cases hd
    · intro j k d₁ d₂ hj hk h₁ h₂
      obtain ⟨d, -, rfl⟩ := getElem?_map_some hj
      cases h₁
    · intro j d hj hd
      obtain ⟨d, hj', rfl⟩ := getElem?_map_some hj
      exact h.done j d hj' hd
    · intro j k d₁ d₂ hj hk h₁ h₂
      obtain ⟨d₁, hj', rfl⟩ := getElem?_map_some hj
      obtain ⟨d₂, hk', rfl⟩ := getElem?_map_some hk
      exact h.once j k d₁ d₂ hj' hk' h₁ h₂
    · intro j d hj hd
      obtain ⟨d, hj', rfl⟩ := getElem?_map_some hj
      exact h.keeps j d hj' hd

theorem Writes.step {e : Event} (h : Writes toStringPretty s) (hserde : Serde toStringPretty fromStr)
    (hcareful : s.Careful fromStr e) (hs : s.step toStringPretty fromStr e = some s') :
    Writes toStringPretty s' := by
  cases e with
  | arrive r =>
    obtain rfl := Option.some.inj hs
    constructor
    case alone =>
      refine h.oneOpen.append ?_
      exact Bool.false_ne_true
    case content =>
      intro j d creds n hj halive hstage
      rcases get_append hj with hj | ⟨-, rfl⟩
      · exact h.content j d creds n hj halive hstage
      · cases hstage
    case written =>
      intro j d creds hj hstage
      rcases get_append hj with hj | ⟨-, rfl⟩
      · exact h.written j d creds hj hstage
      · cases hstage
    case failed =>
      intro j d hj hstage
      rcases get_append hj with hj | ⟨-, rfl⟩
      · exact h.failed j d hj hstage
      · cases hstage
    case sets =>
      intro j d hj hd
      rcases get_append hj with hj | ⟨-, rfl⟩
      · exact h.sets j d hj hd
      · cases hd
  | next i outcome => exact h.next hserde hcareful hs
  | restart readFails basicAuth =>
    obtain rfl := Option.some.inj hs
    constructor
    case alone =>
      intro j k d₁ d₂ hj hk h₁ h₂
      obtain ⟨d, -, rfl⟩ := getElem?_map_some hj
      cases h₁
    case content =>
      intro j d creds n hj halive hstage
      obtain ⟨d, -, rfl⟩ := getElem?_map_some hj
      cases halive
    case written =>
      intro j d creds hj hstage
      obtain ⟨d, hj', rfl⟩ := getElem?_map_some hj
      exact h.written j d creds hj' hstage
    case failed =>
      intro j d hj hstage
      obtain ⟨d, hj', rfl⟩ := getElem?_map_some hj
      exact h.failed j d hj' hstage
    case sets =>
      intro j d hj hd
      obtain ⟨d, hj', rfl⟩ := getElem?_map_some hj
      exact h.sets j d hj' hd

theorem careful_setup_once (hserde : Serde toStringPretty fromStr) {readFails : Bool}
    {basicAuth : Option StoredCredentials} {file : Option (List UInt8)} {evs : List Event}
    (h : Run (step toStringPretty fromStr) (Careful fromStr)
      (start fromStr readFails basicAuth file) evs s) : s.SetupOnce := by
  have hinv : Setups s ∧ Writes toStringPretty s := by
    refine h.inv (fun s => Setups s ∧ Writes toStringPretty s) ⟨?_, ?_⟩ ?_
    · refine ⟨nofun, ?_, ?_, ?_, ?_, ?_, ?_, ?_⟩
      · rintro i c r ⟨⟩
      · rintro i c ⟨⟩
      · rintro i c ⟨⟩
      · rintro i j c c' ⟨⟩
      · rintro i c ⟨⟩
      · rintro i j c c' ⟨⟩
      · rintro i c ⟨⟩
    · constructor
      case alone => rintro i j c c' ⟨⟩
      case content => rintro i c creds n ⟨⟩
      case written => rintro i c creds ⟨⟩
      case failed => rintro i c ⟨⟩
      case sets => rintro i c ⟨⟩
    · rintro s₁ e s₂ ⟨hsetups, hwrites⟩ hcareful hs
      exact ⟨hsetups.step hcareful hs, hwrites.step hserde hcareful hs⟩
  refine ⟨hinv.1.once, ?_, ?_⟩
  · intro c hc hr
    obtain ⟨i, hi⟩ := List.getElem?_of_mem hc
    exact hinv.1.keeps i c hi hr
  · intro c hc hstage
    obtain ⟨i, hi⟩ := List.getElem?_of_mem hc
    exact hinv.2.failed i c hi hstage

instance (outcome : Option ℕ) : Decidable (s.MayStep outcome c) :=
  match hstage : c.stage with
  | .handler r => decidable_of_iff (r.isSetup = true →
      (s.store.check s.basicAuth r).busy = true → ∀ c' ∈ s.calls, c'.busySetup = false)
      (by rw [MayStep, hstage])
  | .saving _ => decidable_of_iff (outcome ≠ none → ∀ c' ∈ s.calls, c'.hasOpen = false)
      (by rw [MayStep, hstage])
  | .writing _ _ => decidable_of_iff (outcome.getD 0 = 0 → c.before = none)
      (by rw [MayStep, hstage])
  | .written creds => decidable_of_iff (outcome = none → c.before = some creds)
      (by rw [MayStep, hstage])
  | .saved _ => .isTrue (by rw [MayStep, hstage]; trivial)
  | .responded _ => .isTrue (by rw [MayStep, hstage]; trivial)

instance (fromStr : List UInt8 → Option StoredCredentials) (e : Event) :
    Decidable (s.Careful fromStr e) :=
  match e with
  | .arrive _ => .isTrue trivial
  | .next i outcome =>
    inferInstanceAs (Decidable (∀ c ∈ s.calls[i]?, c.alive = true → s.MayStep outcome c))
  | .restart _ _ => inferInstanceAs (Decidable (_ → _))

end System

/-! A text of `serde_json` for one pair of credentials; the texts of all others are numbers. -/

def admin : StoredCredentials := ⟨"admin", "pw"⟩

def adminText : List UInt8 :=
  "\x7b\n  \"username\": \"admin\",\n  \"password\": \"pw\"\n\x7d".toList.map fun c =>
    UInt8.ofNat c.toNat

def number (creds : StoredCredentials) : ℕ :=
  Encodable.encode (creds.username.toList.map Char.toNat, creds.password.toList.map Char.toNat)

def ofNumber (n : ℕ) : Option StoredCredentials :=
  (@Encodable.decode (List ℕ × List ℕ) _ n).map fun x =>
    ⟨String.ofList (x.1.map Char.ofNat), String.ofList (x.2.map Char.ofNat)⟩

def unary (n : ℕ) : List UInt8 := List.replicate n 1 ++ [0]

def adminToString (creds : StoredCredentials) : List UInt8 :=
  if creds = admin then adminText else unary (number creds)

def adminFromStr (text : List UInt8) : Option StoredCredentials :=
  if text = adminText then some admin
  else if text = unary (text.length - 1) then ofNumber (text.length - 1)
  else none

theorem ofNumber_number (creds : StoredCredentials) : ofNumber (number creds) = some creds := by
  have hchars (t : List Char) : (t.map Char.toNat).map Char.ofNat = t := by
    rw [List.map_map]
    exact (List.map_congr_left fun c _ => Char.ofNat_toNat c).trans (List.map_id t)
  rw [ofNumber, number, Encodable.encodek, Option.map_some, hchars, hchars, String.ofList_toList,
    String.ofList_toList]

theorem unary_ne_adminText (n : ℕ) : unary n ≠ adminText := by
  intro h
  have hlast : (unary n).getLast? = some 0 := by simp [unary]
  have htext : adminText.getLast? = some 125 := by decide +kernel
  rw [h, htext] at hlast
  exact absurd hlast (by decide)

theorem adminFromStr_unary (n : ℕ) : adminFromStr (unary n) = ofNumber n := by
  have hlen : (unary n).length - 1 = n := by simp [unary]
  rw [adminFromStr, if_neg (unary_ne_adminText n), hlen, if_pos rfl]

/-- Without its last byte the text of a number is that of nothing. -/
theorem adminFromStr_ones (n : ℕ) : adminFromStr (List.replicate n 1) = none := by
  have hzero : ∀ x ∈ List.replicate n (1 : UInt8), x = 1 := fun x => List.eq_of_mem_replicate
  rw [adminFromStr, if_neg, if_neg]
  · intro h
    have hmem : (0 : UInt8) ∈ List.replicate n 1 := by
      rw [h]
      simp [unary]
    exact absurd (hzero 0 hmem) (by decide)
  · intro h
    have hmem : (10 : UInt8) ∈ List.replicate n 1 := by
      rw [h]
      decide +kernel
    exact absurd (hzero 10 hmem) (by decide)

theorem adminSerde : Serde adminToString adminFromStr := by
  refine ⟨?_, ?_⟩
  · intro creds
    unfold adminToString
    split_ifs with hadmin
    · rw [adminFromStr, if_pos rfl, hadmin]
    · rw [adminFromStr_unary, ofNumber_number]
  · intro creds n hn
    unfold adminToString at hn ⊢
    split_ifs at hn ⊢ with hadmin
    · have hlen : adminText.length = 45 := by decide +kernel
      rw [hlen] at hn
      have hall : ∀ n < 45, adminFromStr (adminText.take n) = none := by decide +kernel
      exact hall n hn
    · have hle : n ≤ number creds := by
        simp [unary] at hn
        omega
      have htake : (unary (number creds)).take n = List.replicate n 1 := by
        rw [unary, List.take_append_of_le_length (by rw [List.length_replicate]; exact hle),
          List.take_replicate, min_eq_left hle]
      rw [htake, adminFromStr_ones]

namespace System

/-- The first setup; the text is written in two parts. -/
def firstSetup : List Event :=
  [.arrive (.setup "admin" "pw"), .next 0 none, .next 0 (some 0), .next 0 (some 20),
    .next 0 (some 25), .next 0 (some 0), .next 0 none]

/-- Another setup, before and after a restart. -/
def laterSetups : List Event :=
  [.arrive (.setup "other" "pw"), .next 1 none, .restart false none,
    .arrive (.setup "other" "pw"), .next 2 none]

theorem firstSetup_once : ∃ s, Run (step adminToString adminFromStr) (Careful adminFromStr)
    (start adminFromStr false none none) (firstSetup ++ laterSetups) s ∧
    s.calls.map Call.setUp = [true, false, false] ∧ s.SetupOnce := by
  have hex : (exec (step adminToString adminFromStr) (Careful adminFromStr)
      (start adminFromStr false none none) (firstSetup ++ laterSetups)).any
      (fun s => s.calls.map Call.setUp == [true, false, false]) = true := by decide +kernel
  obtain ⟨s, hrun, hs⟩ := Run.exists_of_exec hex
  exact ⟨s, hrun, eq_of_beq hs, careful_setup_once adminSerde hrun⟩

/-- Two setups pass the check before one of them has stored anything. -/
def twoSetups : List Event :=
  [.arrive (.setup "admin" "pw"), .arrive (.setup "admin" "pw"), .next 0 none, .next 1 none,
    .next 0 (some 0), .next 0 (some 45), .next 0 (some 0), .next 0 none,
    .next 1 (some 0), .next 1 (some 45), .next 1 (some 0), .next 1 none]

/-- The process ends while the credentials are changed. -/
def crash : List Event :=
  firstSetup ++ [.arrive (.changeCredentials "pw" none none), .next 1 none, .next 1 (some 0),
    .next 1 (some 20), .restart false none,
    .arrive (.setup "admin" "pw"), .next 2 none, .next 2 (some 0), .next 2 (some 45),
    .next 2 (some 0), .next 2 none]

/-- The permissions cannot be set. -/
def noPermissions : List Event :=
  [.arrive (.setup "admin" "pw"), .next 0 none, .next 0 (some 0), .next 0 (some 45), .next 0 none]

/-- A run from a first boot that breaks what is asked of the setup. -/
def Breaks (evs : List Event) : Prop :=
  ∃ s, Run (step adminToString adminFromStr) Any (start adminFromStr false none none) evs s ∧
    ¬s.SetupOnce

theorem not_once {s : System} {i j : ℕ} (hij : i ≠ j) (hi : (s.calls.map Call.setUp)[i]? = some true)
    (hj : (s.calls.map Call.setUp)[j]? = some true) : ¬s.SetupOnce := by
  intro h
  obtain ⟨c, hc, hci⟩ := Option.map_eq_some_iff.1 (List.getElem?_map .. ▸ hi)
  obtain ⟨c', hc', hcj⟩ := Option.map_eq_some_iff.1 (List.getElem?_map .. ▸ hj)
  exact hij (h.once i j c c' hc hc' hci hcj)

theorem setup_breaks : Breaks twoSetups ∧ Breaks crash ∧ Breaks noPermissions := by
  refine ⟨?_, ?_, ?_⟩
  · have hex : (exec (step adminToString adminFromStr) Any (start adminFromStr false none none)
        twoSetups).any (fun s => s.calls.map Call.setUp == [true, true]) = true := by decide +kernel
    obtain ⟨s, hrun, hs⟩ := Run.exists_of_exec hex
    refine ⟨s, hrun, not_once (Nat.zero_ne_one) ?_ ?_⟩
    · rw [eq_of_beq hs]
      rfl
    · rw [eq_of_beq hs]
      rfl
  · have hex : (exec (step adminToString adminFromStr) Any (start adminFromStr false none none)
        crash).any (fun s => s.calls.map Call.setUp == [true, false, true]) = true := by
      decide +kernel
    obtain ⟨s, hrun, hs⟩ := Run.exists_of_exec hex
    refine ⟨s, hrun, not_once (i := 0) (j := 2) (by decide) ?_ ?_⟩
    · rw [eq_of_beq hs]
      rfl
    · rw [eq_of_beq hs]
      rfl
  · have hex : (exec (step adminToString adminFromStr) Any (start adminFromStr false none none)
        noPermissions).any (fun s => s.calls.any fun c =>
          c.stage == .responded .internalServerError && c.after != c.before) = true := by
      decide +kernel
    obtain ⟨s, hrun, hs⟩ := Run.exists_of_exec hex
    refine ⟨s, hrun, fun h => ?_⟩
    obtain ⟨c, hc, hfail⟩ := List.any_eq_true.1 hs
    obtain ⟨hstage, hne⟩ := Bool.and_eq_true_iff.1 hfail
    exact bne_iff_ne.1 hne (h.failed c hc (eq_of_beq hstage)).2

end System

end CredentialStore

end Rtbit
