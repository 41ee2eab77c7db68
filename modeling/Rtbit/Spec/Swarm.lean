import Rtbit.Spec.Peers

/-! The peers of one live torrent: the peer map, the bounded queue of addresses, the peer adder,
the manage-peer tasks, and what a call leaves to be done after it has released the lock of an
entry. Every step is one critical section of the peer map or one operation on the queue. The
events of a manage-peer task come in any order; its last one is `on_peer_died`. -/

namespace Rtbit.Peers

open Lib

/-- `SocketAddr::is_ipv6`. -/
def isIpv6 (a : PeerHandle) : Bool :=
  match a.ip with
  | .v4 _ => false
  | .v6 _ => true

/-- What `task_peer_adder` checks an address against. -/
structure Filters where
  ipv4Only : Bool
  blocklist : IpAddr → Bool
  allowlist : Option (IpAddr → Bool)

def Filters.accepts (f : Filters) (a : PeerHandle) : Bool :=
  !(f.ipv4Only && isIpv6 a) && a.port != 0 && !f.blocklist a.ip &&
    match f.allowlist with
    | none => true
    | some allowed => allowed a.ip

structure Config where
  totalPieces : ℕ
  disableUpload : Bool
  filters : Filters
  /-- Of the channel `peer_queue_tx`. -/
  capacity : ℕ

/-- A manage-peer task, from `mark_peer_connecting` or `add_incoming_peer` on. -/
structure ManagePeer where
  addr : PeerHandle
  tx : PeerTx
  incoming : Bool
  counters : ℕ
  deriving DecidableEq

structure Swarm where
  peers : PeerStates
  /-- The oldest address first. -/
  queue : List PeerHandle
  /-- Addresses on their way to `try_send`. -/
  sending : List PeerHandle
  /-- The address that `task_peer_adder` has received last and not yet finished with. -/
  adder : Option PeerHandle
  /-- Outgoing tasks before `mark_peer_connecting`. -/
  starting : List PeerHandle
  tasks : List ManagePeer
  /-- Calls of `on_peer_died` before `drop_peer`. -/
  dropping : List PeerHandle
  /-- The `wait_for_peer` tasks. -/
  waiting : List PeerHandle
  nextTx : PeerTx

inductive SwarmOp where
  | addPeerIfNotSeen (a : PeerHandle)
  | addIncomingPeer (a : PeerHandle) (kind : ConnectionKind)
  | trySend (k : ℕ)
  | adderReceive
  /-- Uploads are disabled and the torrent is finished. -/
  | adderNotNeeded
  | adderSkip
  | adderSpawn
  | markPeerConnecting (k : ℕ)
  | onConnected (i : ℕ)
  | onHandshake (i : ℕ) (kind : ConnectionKind)
  | updateBitfield (i : ℕ) (b : Bits)
  | onExtendedHandshake (i : ℕ) (ip : Option IpAddr) (port : ℕ)
  | disconnectFull (a : PeerHandle)
  | reconnectNotNeeded (a : PeerHandle)
  | requeueDead (a : PeerHandle)
  | onPeerDied (i : ℕ) (error finished : Bool)
  | dropPeer (k : ℕ)
  | waitForPeer (k : ℕ)
  | pruneDeadPeer (a : PeerHandle)
  deriving DecidableEq

namespace Swarm

def start : Swarm := ⟨.new .default, [], [], none, [], [], [], [], 0⟩

/-- A task with a channel of its own begins; the entry of `a` is in `ps`. -/
def spawn (s : Swarm) (ps : PeerStates) (a : PeerHandle) (incoming : Bool) : Swarm :=
  { s with
    peers := ps
    tasks := s.tasks ++ ((ps.get a).map fun p => ⟨a, s.nextTx, incoming, p.counters⟩).toList
    nextTx := s.nextTx + 1 }

/-- `on_peer_died`, of the task `t`. -/
def onPeerDied (s : Swarm) (t : ManagePeer) (error finished : Bool) : Swarm :=
  match s.peers.onPeerDied t.addr true error finished t.incoming with
  | none => s
  | some (ps, .done) => { s with peers := ps }
  | some (ps, .waitForPeer) => { s with peers := ps, waiting := s.waiting ++ [t.addr] }
  | some (ps, .dropPeer) => { s with peers := ps, dropping := s.dropping ++ [t.addr] }

def step (cfg : Config) (s : Swarm) : SwarmOp → Option Swarm
  | .addPeerIfNotSeen a => (s.peers.addIfNotSeen a).map fun ps =>
      { s with peers := ps, sending := s.sending ++ [a] }
  | .addIncomingPeer a kind => (s.peers.addIncomingPeer a s.nextTx kind).map fun ps =>
      s.spawn ps a true
  | .trySend k => s.sending[k]?.map fun a =>
      { s with
        sending := s.sending.eraseIdx k
        queue := if s.queue.length < cfg.capacity then s.queue ++ [a] else s.queue }
  | .adderReceive =>
    match s.adder, s.queue with
    | none, a :: queue => some { s with queue := queue, adder := some a }
    | _, _ => none
  | .adderNotNeeded => s.adder.bind fun a =>
      if cfg.disableUpload then
        some { s with peers := (s.peers.markPeerNotNeeded a).getD s.peers, adder := none }
      else none
  | .adderSkip => s.adder.bind fun a =>
      if cfg.filters.accepts a then none else some { s with adder := none }
  | .adderSpawn => s.adder.bind fun a =>
      if cfg.filters.accepts a then some { s with adder := none, starting := s.starting ++ [a] }
      else none
  | .markPeerConnecting k => s.starting[k]?.map fun a =>
      let s := { s with starting := s.starting.eraseIdx k }
      match s.peers.markPeerConnecting a s.nextTx with
      | none => s
      | some ps => s.spawn ps a false
  | .onConnected i => s.tasks[i]?.bind fun t =>
      if t.incoming then none
      else (s.peers.onConnected t.addr t.counters).map fun ps => { s with peers := ps }
  | .onHandshake i kind => s.tasks[i]?.bind fun t =>
      (s.peers.setPeerLive t.addr kind).map fun ps => { s with peers := ps }
  | .updateBitfield i b => s.tasks[i]?.bind fun t =>
      (s.peers.updateBitfield t.addr b).map fun ps => { s with peers := ps }
  | .onExtendedHandshake i ip port => s.tasks[i]?.bind fun t =>
      if t.incoming then
        (s.peers.updateOutgoingAddr t.addr ⟨ip.getD t.addr.ip, port⟩).map fun ps =>
          { s with peers := ps }
      else none
  | .disconnectFull a => (s.peers.disconnectFull cfg.totalPieces a).map fun ps =>
      { s with peers := ps }
  | .reconnectNotNeeded a => (s.peers.reconnectNotNeeded a).map fun r =>
      { s with peers := r.2, sending := s.sending ++ [r.1] }
  | .requeueDead a => (s.peers.deadToQueued a).map fun ps =>
      { s with peers := ps, sending := s.sending ++ [a] }
  | .onPeerDied i error finished => s.tasks[i]?.map fun t =>
      { s with tasks := s.tasks.eraseIdx i }.onPeerDied t error finished
  | .dropPeer k => s.dropping[k]?.map fun a =>
      { s with
        dropping := s.dropping.eraseIdx k
        peers := (s.peers.dropPeer a).getD s.peers }
  | .waitForPeer k => s.waiting[k]?.map fun a =>
      let s := { s with waiting := s.waiting.eraseIdx k }
      match s.peers.deadToQueued a with
      | none => s
      | some ps => { s with peers := ps, sending := s.sending ++ [a] }
  | .pruneDeadPeer a => (s.peers.pruneDeadPeer a).map fun ps => { s with peers := ps }

end Swarm

end Rtbit.Peers
