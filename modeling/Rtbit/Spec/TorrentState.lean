import Mathlib.Tactic

/-! `ManagedTorrent` of `torrent_state/mod.rs`: its state, the calls that change it and the tasks
that `start` spawns, which run on their own until they end or are dropped at an await point after
their token was cancelled. What a state holds (files, pieces, peers) is left out. -/

namespace Rtbit

/-- `Initializing` and `Live` carry a number, to tell one from the next. -/
inductive ManagedTorrentState where
  | initializing (init : ℕ)
  | paused
  | live (live : ℕ)
  | error
  | none
  deriving DecidableEq, Repr

/-- Who assigns the state: a caller of `start` and `pause`, or a task spawned by the `n`th
`start`. -/
inductive StateWriter where
  | caller
  | task (start : ℕ)
  deriving DecidableEq, Repr

/-- `TorrentStateLive`. -/
structure LiveInfo where
  /-- The start that made it: its cancellation token is that of this start. -/
  start : ℕ
  /-- `fatal_errors_tx` is there. -/
  fatalErrorsTx : Bool
  /-- `TorrentStateLive::pause` was called. -/
  pauseCalled : Bool
  deriving DecidableEq, Repr

/-- The token of a start: a child of the `generation`th token of the torrent. -/
structure StartToken where
  generation : ℕ
  cancelled : Bool
  deriving DecidableEq, Repr

inductive TaskKind where
  /-- `initialize_and_start`. -/
  | init (startPaused : Bool)
  /-- `fatal_errors_receiver` of a live state; `sent` if an error is in its channel. -/
  | fatal (live : ℕ) (sent : Bool)
  deriving DecidableEq, Repr

/-- A task is at an await point, or in the middle of its code (which includes the blocking
sections of `check()`), or it has ended. -/
inductive TaskPhase where
  | suspended
  | running
  | ended
  deriving DecidableEq, Repr

structure TorrentTask where
  start : ℕ
  kind : TaskKind
  phase : TaskPhase
  deriving DecidableEq, Repr

structure ManagedTorrent where
  state : ManagedTorrentState
  paused : Bool
  /-- How often `cancel_and_reset_token` has replaced the token of the torrent. -/
  generation : ℕ
  /-- One for each `start`. -/
  tokens : List StartToken
  lives : List LiveInfo
  /-- The number of `TorrentStateInitializing`s made. -/
  inits : ℕ
  tasks : List TorrentTask
  /-- Every value assigned to the state, with who assigned it. -/
  history : List (ManagedTorrentState × StateWriter)
  /-- The number of starts before the last `pause` that returned Ok. -/
  pausedStarts : ℕ
  deriving DecidableEq, Repr

inductive StartError where
  /-- "torrent is already live" -/
  | alreadyLive
  /-- `create_and_init` failed. -/
  | storage
  /-- "bug: torrent is in empty state" -/
  | emptyState
  deriving DecidableEq, Repr

inductive PauseError where
  /-- `TorrentStateLive::pause` failed. -/
  | live
  /-- "torrent is already paused" -/
  | alreadyPaused
  /-- "can't pause torrent in error state" -/
  | errorState
  /-- "bug: torrent is in empty state" -/
  | emptyState
  deriving DecidableEq, Repr

inductive TorrentEvent where
  | start (startPaused storageFails : Bool)
  | pause (liveFails : Bool)
  | updateOnlyFiles
  /-- `on_fatal_error` of a live state. -/
  | fatalError (live : ℕ)
  /-- A suspended task is polled and goes on. -/
  | resume (k : ℕ)
  /-- A running task comes to an await point. -/
  | suspend (k : ℕ)
  /-- A suspended task with a cancelled token is dropped. -/
  | drop (k : ℕ)
  /-- `check()` returns, and `initialize_and_start` goes on to its end. -/
  | checkDone (k : ℕ) (ok : Bool)
  /-- `fatal_errors_receiver` calls `stop_with_error`. -/
  | stop (k : ℕ)
  deriving DecidableEq, Repr

namespace ManagedTorrent

/-- A torrent as `add_torrent` makes it. -/
def new (paused : Bool) : ManagedTorrent :=
  ⟨.initializing 0, paused, 0, [], [], 1, [], [(.initializing 0, .caller)], 0⟩

/-- The token of the start, or the token it is a child of, was cancelled. -/
def cancelled (t : ManagedTorrent) (start : ℕ) : Bool :=
  match t.tokens[start]? with
  | some token => token.cancelled || decide (token.generation < t.generation)
  | none => false

def cancelStart (t : ManagedTorrent) (start : ℕ) : ManagedTorrent :=
  { t with tokens := t.tokens.modify start fun token => { token with cancelled := true } }

/-- `g.state = state`. -/
def setState (t : ManagedTorrent) (state : ManagedTorrentState) (w : StateWriter) :
    ManagedTorrent :=
  { t with state, history := t.history ++ [(state, w)] }

def spawn (t : ManagedTorrent) (task : TorrentTask) : ManagedTorrent :=
  { t with tasks := t.tasks ++ [task] }

/-- `_start`, for the token of the start `start`. -/
def startInner (t : ManagedTorrent) (start : ℕ) (startPaused storageFails : Bool)
    (w : StateWriter) : Except StartError Unit × ManagedTorrent :=
  match t.state with
  | .live _ => (.error .alreadyLive, t)
  | .initializing _ => (.ok (), t.spawn ⟨start, .init startPaused, .suspended⟩)
  | .paused =>
    if startPaused then (.ok (), t)
    else
      -- `TorrentStateLive::new` fails only if the session is gone, and `_start` holds it
      let live := t.lives.length
      let t : ManagedTorrent := { t with lives := t.lives ++ [⟨start, true, false⟩] }
      (.ok (), (t.setState (.live live) w).spawn ⟨start, .fatal live false, .suspended⟩)
  | .error =>
    if storageFails then (.error .storage, t)
    else
      let init := t.inits
      let t : ManagedTorrent := { t with inits := init + 1 }
      (.ok (), (t.setState (.initializing init) w).spawn ⟨start, .init startPaused, .suspended⟩)
  | .none => (.error .emptyState, t)

def start (t : ManagedTorrent) (startPaused storageFails : Bool) :
    Except StartError Unit × ManagedTorrent :=
  let t' : ManagedTorrent :=
    { t with paused := startPaused, tokens := t.tokens ++ [⟨t.generation, false⟩] }
  t'.startInner t.tokens.length startPaused storageFails .caller

/-- `TorrentStateLive::pause`: the token is cancelled and the sender of fatal errors is gone, also
when it returns an error. -/
def livePause (t : ManagedTorrent) (live : ℕ) : ManagedTorrent :=
  match t.lives[live]? with
  | none => t
  | some l =>
    { t.cancelStart l.start with
      lives := t.lives.set live { l with fatalErrorsTx := false, pauseCalled := true } }

def pause (t : ManagedTorrent) (liveFails : Bool) : Except PauseError Unit × ManagedTorrent :=
  match t.state with
  | .live live =>
    let t := t.livePause live
    if liveFails then (.error .live, t)
    else (.ok (), { t.setState .paused .caller with
      paused := true, pausedStarts := t.tokens.length })
  | .initializing _ =>
    (.ok (), { t.setState .error .caller with
      generation := t.generation + 1, paused := true, pausedStarts := t.tokens.length })
  | .paused => (.error .alreadyPaused, t)
  | .error => (.error .errorState, t)
  | .none => (.error .emptyState, t)

def stopWithError (t : ManagedTorrent) (w : StateWriter) : ManagedTorrent :=
  match t.state with
  | .live live => (t.livePause live).setState .error w
  | _ => t.setState .error w

/-- What `initialize_and_start` does with the result of `check()`. -/
def checkDone (t : ManagedTorrent) (start : ℕ) (startPaused ok : Bool) : ManagedTorrent :=
  if ok then
    match t.state with
    | .initializing _ =>
      ((t.setState .paused (.task start)).startInner start startPaused false (.task start)).2
    -- "no need to start torrent anymore, as it switched state from initializing"
    | _ => t
  else t.setState .error (.task start)

def onFatalError (t : ManagedTorrent) (live : ℕ) : Option ManagedTorrent :=
  match t.lives[live]? with
  | none => none
  | some l =>
    if l.fatalErrorsTx then
      let t' := { t with lives := t.lives.set live { l with fatalErrorsTx := false } }
      match t.tasks.findIdx? fun task => task.kind = .fatal live false ∧ task.phase ≠ .ended with
      | some k => some { t' with
          tasks := t.tasks.modify k fun task => { task with kind := .fatal live true } }
      -- "fatal error receiver is dead, cancelling torrent"
      | none => some (t'.cancelStart l.start)
    else none

def setPhase (t : ManagedTorrent) (k : ℕ) (phase : TaskPhase) : ManagedTorrent :=
  { t with tasks := t.tasks.modify k fun task => { task with phase } }

def resume (t : ManagedTorrent) (k : ℕ) : Option ManagedTorrent :=
  match t.tasks[k]? with
  | some ⟨_, .init _, .suspended⟩ => some (t.setPhase k .running)
  | some ⟨_, .fatal live sent, .suspended⟩ =>
    if sent then some (t.setPhase k .running)
    else
      match t.lives[live]? with
      -- the sender was dropped: the task returns
      | some ⟨_, false, _⟩ => some (t.setPhase k .ended)
      | _ => none
  | _ => none

def step (t : ManagedTorrent) : TorrentEvent → Option ManagedTorrent
  | .start startPaused storageFails => some (t.start startPaused storageFails).2
  | .pause liveFails => some (t.pause liveFails).2
  | .updateOnlyFiles => some t
  | .fatalError live => t.onFatalError live
  | .resume k => t.resume k
  | .suspend k =>
    match t.tasks[k]? with
    | some ⟨_, .init _, .running⟩ => some (t.setPhase k .suspended)
    | _ => none
  | .drop k =>
    match t.tasks[k]? with
    | some ⟨start, _, .suspended⟩ =>
      if t.cancelled start then some (t.setPhase k .ended) else none
    | _ => none
  | .checkDone k ok =>
    match t.tasks[k]? with
    | some ⟨start, .init startPaused, .running⟩ =>
      some ((t.setPhase k .ended).checkDone start startPaused ok)
    | _ => none
  | .stop k =>
    match t.tasks[k]? with
    | some ⟨start, .fatal _ _, .running⟩ =>
      some ((t.setPhase k .ended).stopWithError (.task start))
    | _ => none

end ManagedTorrent

end Rtbit
