import Rtbit.Lib.Bits
import Rtbit.Lib.Runs
import Rtbit.Lib.Values
import Rtbit.Spec.Types

/-! The peer map of a live torrent with its counters (`PeerStates`, `Peer`,
`AggregatePeerStatsAtomic`). Every function is one critical section. The torrents of a session
share one copy of the counters. -/

namespace Rtbit.Peers

open Lib

inductive ConnectionKind where
  | tcp
  | utp
  | socks
  deriving DecidableEq, Repr

/-- The channel to a manage-peer task; each task has its own. -/
abbrev PeerTx := ℕ

structure LivePeerState where
  tx : PeerTx
  bitfield : Bits
  connectionKind : ConnectionKind
  deriving DecidableEq

namespace LivePeerState

def new (tx : PeerTx) (connectionKind : ConnectionKind) : LivePeerState :=
  ⟨tx, ⟨[]⟩, connectionKind⟩

def hasFullTorrent (l : LivePeerState) (totalPieces : ℕ) : Bool :=
  decide (l.bitfield.InRange 0 totalPieces) && l.bitfield.all 0 totalPieces

end LivePeerState

inductive PeerState where
  | queued
  | connecting (tx : PeerTx)
  | live (l : LivePeerState)
  | dead
  /-- With the task of the state it replaced, which the source does not keep. -/
  | notNeeded (replaced : Option PeerTx)
  deriving DecidableEq

namespace PeerState

def isLive : PeerState → Bool
  | .live _ => true
  | _ => false

/-- The task that the state belongs to. -/
def task : PeerState → Option PeerTx
  | .connecting tx => some tx
  | .live l => some l.tx
  | .notNeeded replaced => replaced
  | _ => none

end PeerState

/-! `AggregatePeerStatsAtomic` -/

/-- The counters of states. -/
inductive Counter where
  | queued
  | connecting
  | live
  | liveTcp
  | liveUtp
  | liveSocks
  | dead
  | notNeeded
  deriving DecidableEq, Repr

/-- `fetch_add(1)` on a `u32`. -/
def u32Inc (n : ℕ) : ℕ := (n + 1) % 2 ^ 32

/-- `fetch_sub(1)` on a `u32`. -/
def u32Dec (n : ℕ) : ℕ := (n + (2 ^ 32 - 1)) % 2 ^ 32

structure AggregatePeerStats where
  value : Counter → ℕ
  seen : ℕ
  /-- Some decrement was applied to zero; the source does not record it. -/
  underflow : Bool

namespace AggregatePeerStats

def default : AggregatePeerStats := ⟨fun _ => 0, 0, false⟩

def atomicInc (s : AggregatePeerStats) (c : Counter) : AggregatePeerStats :=
  { s with value := Function.update s.value c (u32Inc (s.value c)) }

def atomicDec (s : AggregatePeerStats) (c : Counter) : AggregatePeerStats :=
  { s with
    value := Function.update s.value c (u32Dec (s.value c))
    underflow := s.underflow || s.value c == 0 }

def incSeen (s : AggregatePeerStats) : AggregatePeerStats :=
  { s with seen := u32Inc s.seen }

def counter : PeerState → Counter
  | .connecting _ => .connecting
  | .live _ => .live
  | .queued => .queued
  | .dead => .dead
  | .notNeeded _ => .notNeeded

def liveKindCounter (l : LivePeerState) : Counter :=
  match l.connectionKind with
  | .tcp => .liveTcp
  | .utp => .liveUtp
  | .socks => .liveSocks

def inc (s : AggregatePeerStats) (state : PeerState) : AggregatePeerStats :=
  let s := match state with
    | .live l => s.atomicInc (liveKindCounter l)
    | _ => s
  s.atomicInc (counter state)

def dec (s : AggregatePeerStats) (state : PeerState) : AggregatePeerStats :=
  let s := match state with
    | .live l => s.atomicDec (liveKindCounter l)
    | _ => s
  s.atomicDec (counter state)

def incdec (s : AggregatePeerStats) (old new : PeerState) : AggregatePeerStats :=
  (s.dec old).inc new

end AggregatePeerStats

/-- `PeerStates` without the map. -/
structure Counters where
  sessionStats : AggregatePeerStats
  stats : AggregatePeerStats
  liveOutgoingPeers : Finset PeerHandle

namespace Counters

/-- `for counter in [&session_stats, &stats]`. -/
def forEach (c : Counters) (f : AggregatePeerStats → AggregatePeerStats) : Counters :=
  { c with sessionStats := f c.sessionStats, stats := f c.stats }

def insertOutgoing (c : Counters) (a : PeerHandle) : Counters :=
  { c with liveOutgoingPeers := insert a c.liveOutgoingPeers }

def removeOutgoing (c : Counters) (a : PeerHandle) : Counters :=
  { c with liveOutgoingPeers := c.liveOutgoingPeers.erase a }

end Counters

structure Peer where
  addr : PeerHandle
  state : PeerState
  /-- `stats.counters`: the tasks of the peer have a reference to the same object. -/
  counters : ℕ
  /-- In these counters. -/
  outgoingConnections : ℕ
  outgoingAddress : Option PeerHandle
  /-- `outgoing_connections` at the last change of the state. The source has the time of it. -/
  connectionsAtChange : ℕ

/-- What `on_peer_died` leaves to do. -/
inductive AfterDeath where
  | done
  /-- The `wait_for_peer` task. -/
  | waitForPeer
  /-- `drop_peer`, when the lock of the entry is released. -/
  | dropPeer
  deriving DecidableEq

namespace Peer

def newLiveForIncomingConnection (addr : PeerHandle) (tx : PeerTx) (kind : ConnectionKind)
    (counters : ℕ) (c : Counters) : Peer × Counters :=
  let state := .live (.new tx kind)
  (⟨addr, state, counters, 0, none, 0⟩, c.forEach (·.inc state))

def newWithOutgoingAddress (addr : PeerHandle) (counters : ℕ) : Peer :=
  ⟨addr, .queued, counters, 0, some addr, 0⟩

def setState (p : Peer) (new : PeerState) (c : Counters) : Peer × Counters :=
  let c := c.forEach (·.incdec p.state new)
  let c := match p.outgoingAddress with
    | none => c
    | some addr =>
      let c := if p.state.isLive then c.removeOutgoing addr else c
      if new.isLive && 0 < p.outgoingConnections then c.insertOutgoing addr else c
  ({ p with state := new, connectionsAtChange := p.outgoingConnections }, c)

def takeState (p : Peer) (c : Counters) : Peer × Counters := p.setState .queued c

def destroy (p : Peer) (c : Counters) : Counters :=
  let c := c.forEach (·.dec p.state)
  match p.outgoingAddress with
  | some addr => if p.state.isLive then c.removeOutgoing addr else c
  | none => c

def idleToConnecting (p : Peer) (tx : PeerTx) (c : Counters) : Option (Peer × Counters) :=
  match p.state with
  | .queued | .notNeeded _ => some (p.setState (.connecting tx) c)
  | _ => none

def incomingConnection (p : Peer) (tx : PeerTx) (kind : ConnectionKind) (c : Counters) :
    Option (Peer × Counters) :=
  match p.state with
  | .connecting _ | .live _ => none
  | _ =>
    let (p, c) := p.takeState c
    some (p.setState (.live (.new tx kind)) c)

def connectingToLive (p : Peer) (kind : ConnectionKind) (c : Counters) :
    Option (Peer × Counters) :=
  match p.state with
  | .connecting tx =>
    let (p, c) := p.takeState c
    some (p.setState (.live (.new tx kind)) c)
  | _ => none

def setNotNeeded (p : Peer) (c : Counters) : Peer × Counters :=
  p.setState (.notNeeded p.state.task) c

/-- The address to queue, with the peer after the call. -/
def reconnectNotNeededPeer (p : Peer) (c : Counters) : Option (PeerHandle × Peer × Counters) :=
  match p.state with
  | .notNeeded _ =>
    match p.outgoingAddress with
    | none => none
    | some addr => if p.addr = addr then some (addr, p.setState .queued c) else some (addr, p, c)
  | _ => none

/-- The entry of a dead peer, in `requeue_dead_peers` and in the `wait_for_peer` task. -/
def deadToQueued (p : Peer) (c : Counters) : Option (Peer × Counters) :=
  match p.state with
  | .dead => some (p.setState .queued c)
  | _ => none

/-- The entry of a peer in `disconnect_all_peers_that_have_full_torrent`. -/
def disconnectFull (p : Peer) (totalPieces : ℕ) (c : Counters) : Option (Peer × Counters) :=
  match p.state with
  | .live l => if l.hasFullTorrent totalPieces then some (p.setNotNeeded c) else none
  | _ => none

/-- The end of `on_peer_died`, for a peer that was connecting or live with the task `prev`.
`finished` is `is_finished_and_no_active_streams`. -/
def close (p : Peer) (prev : Option PeerTx) (error finished incoming : Bool) (c : Counters) :
    Peer × Counters × AfterDeath :=
  if !error || finished then
    let (p, c) := p.setState (.notNeeded prev) c
    (p, c, .done)
  else
    let (p, c) := p.setState .dead c
    (p, c, if incoming then .done else .waitForPeer)

/-- `on_peer_died` under the lock of the entry. `hasPieces` is false once the torrent is paused:
then `get_pieces_mut` fails. -/
def onPeerDied (p : Peer) (hasPieces error finished incoming : Bool) (c : Counters) :
    Peer × Counters × AfterDeath :=
  let (q, c) := p.takeState c
  match p.state with
  | .connecting _ => q.close p.state.task error finished incoming c
  | .live _ => if hasPieces then q.close p.state.task error finished incoming c else (q, c, .done)
  | .notNeeded replaced =>
    let (q, c) := q.setState (.notNeeded replaced) c
    (q, c, .done)
  | .queued | .dead => (q, c, .dropPeer)

end Peer

structure PeerStates extends Counters where
  states : AList fun _ : PeerHandle => Peer
  /-- The next object for `stats.counters`. -/
  nextCounters : ℕ

namespace PeerStates

def new (sessionStats : AggregatePeerStats) : PeerStates :=
  ⟨⟨sessionStats, .default, ∅⟩, ∅, 0⟩

def get (ps : PeerStates) (a : PeerHandle) : Option Peer := ps.states.lookup a

/-- The entry of `a` and the counters are replaced. -/
def put (ps : PeerStates) (a : PeerHandle) (r : Peer × Counters) : PeerStates :=
  { ps with toCounters := r.2, states := ps.states.insert a r.1 }

/-- `with_peer_mut`; `none` if there is no entry, or if `f` does not apply to it. -/
def withPeerMut (ps : PeerStates) (a : PeerHandle)
    (f : Peer → Counters → Option (Peer × Counters)) : Option PeerStates :=
  (ps.get a).bind fun p => (f p ps.toCounters).map (ps.put a)

def addIfNotSeen (ps : PeerStates) (a : PeerHandle) : Option PeerStates :=
  match ps.get a with
  | some _ => none
  | none =>
    let ps := { ps with
      states := ps.states.insert a (.newWithOutgoingAddress a ps.nextCounters)
      nextCounters := ps.nextCounters + 1 }
    some { ps with toCounters := ps.toCounters.forEach fun s => (s.atomicInc .queued).incSeen }

/-- `add_incoming_peer`. -/
def addIncomingPeer (ps : PeerStates) (a : PeerHandle) (tx : PeerTx) (kind : ConnectionKind) :
    Option PeerStates :=
  match ps.get a with
  | some p => (p.incomingConnection tx kind ps.toCounters).map (ps.put a)
  | none =>
    let c := { ps.toCounters with stats := ps.stats.incSeen }
    some { ps.put a (Peer.newLiveForIncomingConnection a tx kind ps.nextCounters c) with
      nextCounters := ps.nextCounters + 1 }

def markPeerConnecting (ps : PeerStates) (a : PeerHandle) (tx : PeerTx) : Option PeerStates :=
  ps.withPeerMut a fun p c => p.idleToConnecting tx c

/-- `set_peer_live`. -/
def setPeerLive (ps : PeerStates) (a : PeerHandle) (kind : ConnectionKind) : Option PeerStates :=
  ps.withPeerMut a fun p c => p.connectingToLive kind c

def markPeerNotNeeded (ps : PeerStates) (a : PeerHandle) : Option PeerStates :=
  ps.withPeerMut a fun p c => some (p.setNotNeeded c)

def disconnectFull (ps : PeerStates) (totalPieces : ℕ) (a : PeerHandle) : Option PeerStates :=
  ps.withPeerMut a fun p c => p.disconnectFull totalPieces c

def deadToQueued (ps : PeerStates) (a : PeerHandle) : Option PeerStates :=
  ps.withPeerMut a fun p c => p.deadToQueued c

/-- The entry of a peer in `reconnect_all_not_needed_peers`, with the address to queue. -/
def reconnectNotNeeded (ps : PeerStates) (a : PeerHandle) : Option (PeerHandle × PeerStates) :=
  (ps.get a).bind fun p => (p.reconnectNotNeededPeer ps.toCounters).map fun r =>
    (r.1, ps.put a r.2)

def updateBitfield (ps : PeerStates) (a : PeerHandle) (b : Bits) : Option PeerStates :=
  ps.withPeerMut a fun p c => match p.state with
    | .live l => some ({ p with state := .live { l with bitfield := b } }, c)
    | _ => none

/-- `on_extended_handshake`, of an incoming connection. -/
def updateOutgoingAddr (ps : PeerStates) (a out : PeerHandle) : Option PeerStates :=
  ps.withPeerMut a fun p c => some ({ p with outgoingAddress := some out }, c)

/-- `on_connected`, of a task with the counters `counters`. -/
def onConnected (ps : PeerStates) (a : PeerHandle) (counters : ℕ) : Option PeerStates :=
  ps.withPeerMut a fun p c =>
    if p.counters = counters then
      some ({ p with outgoingConnections := u32Inc p.outgoingConnections }, c)
    else none

def onPeerDied (ps : PeerStates) (a : PeerHandle) (hasPieces error finished incoming : Bool) :
    Option (PeerStates × AfterDeath) :=
  (ps.get a).map fun p =>
    let (p, c, after) := p.onPeerDied hasPieces error finished incoming ps.toCounters
    (ps.put a (p, c), after)

def dropPeer (ps : PeerStates) (a : PeerHandle) : Option PeerStates :=
  (ps.get a).map fun p =>
    { ps with
      toCounters := ps.toCounters.forEach (·.dec p.state), states := ps.states.erase a }

/-- One entry of `prune_dead_peers`, if it is old enough. -/
def pruneDeadPeer (ps : PeerStates) (a : PeerHandle) : Option PeerStates :=
  (ps.get a).bind fun p => match p.state with
    | .dead | .notNeeded _ => some { ps with
        toCounters := ps.toCounters.forEach (·.dec p.state), states := ps.states.erase a }
    | _ => none

/-- `Drop::drop`; the counters after it. -/
def drop (ps : PeerStates) : Counters :=
  (values ps.states).foldl (fun c p => p.destroy c) ps.toCounters

end PeerStates

/-! A session with its torrents -/

inductive PeerOp where
  | addIfNotSeen (a : PeerHandle)
  | addIncomingPeer (a : PeerHandle) (tx : PeerTx) (kind : ConnectionKind)
  | markPeerConnecting (a : PeerHandle) (tx : PeerTx)
  | setPeerLive (a : PeerHandle) (kind : ConnectionKind)
  | markPeerNotNeeded (a : PeerHandle)
  | disconnectFull (totalPieces : ℕ) (a : PeerHandle)
  | deadToQueued (a : PeerHandle)
  | reconnectNotNeeded (a : PeerHandle)
  | updateBitfield (a : PeerHandle) (b : Bits)
  | updateOutgoingAddr (a out : PeerHandle)
  | onConnected (a : PeerHandle) (counters : ℕ)
  | onPeerDied (a : PeerHandle) (hasPieces error finished incoming : Bool)
  | dropPeer (a : PeerHandle)
  | pruneDeadPeer (a : PeerHandle)

/-- `none` if the operation does not apply; it then changes nothing. -/
def PeerStates.apply (ps : PeerStates) : PeerOp → Option PeerStates
  | .addIfNotSeen a => ps.addIfNotSeen a
  | .addIncomingPeer a tx kind => ps.addIncomingPeer a tx kind
  | .markPeerConnecting a tx => ps.markPeerConnecting a tx
  | .setPeerLive a kind => ps.setPeerLive a kind
  | .markPeerNotNeeded a => ps.markPeerNotNeeded a
  | .disconnectFull n a => ps.disconnectFull n a
  | .deadToQueued a => ps.deadToQueued a
  | .reconnectNotNeeded a => (ps.reconnectNotNeeded a).map Prod.snd
  | .updateBitfield a b => ps.updateBitfield a b
  | .updateOutgoingAddr a out => ps.updateOutgoingAddr a out
  | .onConnected a counters => ps.onConnected a counters
  | .onPeerDied a pieces error finished incoming =>
    (ps.onPeerDied a pieces error finished incoming).map Prod.fst
  | .dropPeer a => ps.dropPeer a
  | .pruneDeadPeer a => ps.pruneDeadPeer a

inductive Torrent where
  | added (ps : PeerStates)
  /-- With its counters at the end, which nothing reads any longer. -/
  | dropped (stats : AggregatePeerStats)

structure Session where
  stats : AggregatePeerStats
  torrents : List Torrent

inductive SessionOp where
  | newTorrent
  | torrent (i : ℕ) (op : PeerOp)
  | dropTorrent (i : ℕ)

namespace Session

def start : Session := ⟨.default, []⟩

/-- The torrent `i`, with the counters of the session as they are now. -/
def get (s : Session) (i : ℕ) : Option PeerStates :=
  match s.torrents[i]? with
  | some (.added ps) => some { ps with sessionStats := s.stats }
  | _ => none

def step (s : Session) : SessionOp → Option Session
  | .newTorrent => some { s with torrents := s.torrents ++ [.added (.new s.stats)] }
  | .torrent i op => (s.get i).bind fun ps => (ps.apply op).map fun ps' =>
      ⟨ps'.sessionStats, s.torrents.set i (.added ps')⟩
  | .dropTorrent i => (s.get i).map fun ps =>
      ⟨ps.drop.sessionStats, s.torrents.set i (.dropped ps.drop.stats)⟩

end Session

end Rtbit.Peers
