import Rtbit.Spec.Types

/-! The peers of a live torrent with the times of their state changes, the `wait_for_peer` tasks
that `on_peer_died` spawns, and the task that prunes dead peers. Times are nanoseconds of one clock.
`on_peer_died` does not wait, so it is one step. -/

namespace Rtbit

namespace PeerRetry

def secs (n : ℕ) : ℕ := n * 10 ^ 9

/-- `PEER_PRUNE_RETENTION`. -/
def pruneRetention : ℕ := secs 300

/-- `FROZEN_PEER_RETRY_INTERVAL`. -/
def frozenRetryInterval : ℕ := secs 600

/-- `PeerState`, by its name. -/
inductive PeerStateName where
  | queued
  | connecting
  | live
  | dead
  | notNeeded
  deriving DecidableEq, Repr

structure Peer where
  state : PeerStateName
  lastStateChange : ℕ
  deriving DecidableEq, Repr

/-- A `wait_for_peer` task that sleeps. -/
structure Retry where
  addr : PeerHandle
  deadline : ℕ
  deriving DecidableEq, Repr

structure Peers where
  now : ℕ
  states : PeerHandle → Option Peer
  retries : List Retry

inductive Event where
  | advance (d : ℕ)
  | addIfNotSeen (a : PeerHandle)
  | markPeerConnecting (a : PeerHandle)
  | connectingToLive (a : PeerHandle)
  | incomingConnection (a : PeerHandle)
  | markPeerNotNeeded (a : PeerHandle)
  | reconnectNotNeeded (a : PeerHandle)
  /-- `requeue_dead_peers` at one entry. -/
  | requeueDead (a : PeerHandle)
  /-- `backoff` is what `backoff.next()` returns, `none` if it is exhausted. -/
  | onPeerDied (a : PeerHandle) (incoming error finished : Bool) (backoff : Option ℕ)
  | fire (i : ℕ)
  | prune

/-- How long the retry of a dead peer waits. -/
def delay (backoff : Option ℕ) : ℕ := backoff.getD frozenRetryInterval

namespace Peers

def start : Peers := ⟨0, fun _ => none, []⟩

def set (s : Peers) (a : PeerHandle) (state : PeerStateName) : Peers :=
  { s with states := Function.update s.states a (some ⟨state, s.now⟩) }

/-- A change of the state of a peer that is in one of the states `old`. -/
def change (s : Peers) (a : PeerHandle) (old : List PeerStateName) (new : PeerStateName) :
    Option Peers :=
  match s.states a with
  | some p => if p.state ∈ old then some (s.set a new) else none
  | none => none

def addIncomingPeer (s : Peers) (a : PeerHandle) : Option Peers :=
  match s.states a with
  | some _ => s.change a [.queued, .dead, .notNeeded] .live
  | none => some (s.set a .live)

def onPeerDied (s : Peers) (a : PeerHandle) (incoming error finished : Bool)
    (backoff : Option ℕ) : Peers :=
  match s.states a with
  -- "bug: peer not found in table"
  | none => s
  | some p =>
    match p.state with
    | .notNeeded => s.set a .notNeeded
    -- "bug: peer was in a wrong state {s:?}, ignoring it forever"
    | .queued | .dead => { s with states := Function.update s.states a none }
    | .connecting | .live =>
      if !error || finished then s.set a .notNeeded
      else if incoming then s.set a .dead
      else { s.set a .dead with retries := s.retries ++ [⟨a, s.now + delay backoff⟩] }

/-- A dead peer is queued again, any other is left as it is. -/
def deadToQueued (s : Peers) (a : PeerHandle) : Peers := (s.change a [.dead] .queued).getD s

def pruned (now : ℕ) (p : Peer) : Bool :=
  (p.state == .dead || p.state == .notNeeded) && pruneRetention < now - p.lastStateChange

def pruneDeadPeers (s : Peers) : Peers :=
  { s with states := fun a => (s.states a).filter fun p => !pruned s.now p }

def step (s : Peers) : Event → Option Peers
  | .advance d => some { s with now := s.now + d }
  | .addIfNotSeen a => if s.states a = none then some (s.set a .queued) else none
  | .markPeerConnecting a => s.change a [.queued, .notNeeded] .connecting
  | .connectingToLive a => s.change a [.connecting] .live
  | .incomingConnection a => s.addIncomingPeer a
  | .markPeerNotNeeded a =>
    s.change a [.queued, .connecting, .live, .dead, .notNeeded] .notNeeded
  | .reconnectNotNeeded a => s.change a [.notNeeded] .queued
  | .requeueDead a => s.change a [.dead] .queued
  | .onPeerDied a incoming error finished backoff =>
    some (s.onPeerDied a incoming error finished backoff)
  | .fire i =>
    match s.retries[i]? with
    | some r =>
      if r.deadline ≤ s.now then
        some ({ s with retries := s.retries.eraseIdx i }.deadToQueued r.addr)
      else none
    | none => none
  | .prune => some s.pruneDeadPeers

end Peers

end PeerRetry

end Rtbit
