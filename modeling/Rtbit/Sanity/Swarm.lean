import Rtbit.Sanity.Peers
import Rtbit.Spec.Swarm

/-! Every step of a swarm is at most one operation of the peer map. -/

namespace Rtbit.Peers

open Lib

/-- The operation of the peer map that the step is, if any. -/
def SwarmOp.peerOp (cfg : Config) (s : Swarm) : SwarmOp → Option PeerOp
  | .addPeerIfNotSeen a => some (.addIfNotSeen a)
  | .addIncomingPeer a kind => some (.addIncomingPeer a s.nextTx kind)
  | .adderNotNeeded => s.adder.map .markPeerNotNeeded
  | .markPeerConnecting k => s.starting[k]?.map fun a => .markPeerConnecting a s.nextTx
  | .onConnected i => s.tasks[i]?.map fun t => .onConnected t.addr t.counters
  | .onHandshake i kind => s.tasks[i]?.map fun t => .setPeerLive t.addr kind
  | .updateBitfield i b => s.tasks[i]?.map fun t => .updateBitfield t.addr b
  | .onExtendedHandshake i ip port => s.tasks[i]?.map fun t =>
      .updateOutgoingAddr t.addr ⟨ip.getD t.addr.ip, port⟩
  | .disconnectFull a => some (.disconnectFull cfg.totalPieces a)
  | .reconnectNotNeeded a => some (.reconnectNotNeeded a)
  | .requeueDead a => some (.deadToQueued a)
  | .onPeerDied i error finished => s.tasks[i]?.map fun t =>
      .onPeerDied t.addr true error finished t.incoming
  | .dropPeer k => s.dropping[k]?.map .dropPeer
  | .waitForPeer k => s.waiting[k]?.map .deadToQueued
  | .pruneDeadPeer a => some (.pruneDeadPeer a)
  | .trySend _ | .adderReceive | .adderSkip | .adderSpawn => none

namespace Swarm

variable {cfg : Config} {s s' : Swarm} {t : ManagePeer}

theorem onPeerDied_peers (s : Swarm) (t : ManagePeer) (error finished : Bool) :
    (s.onPeerDied t error finished).peers = s.peers ∨
      s.peers.apply (.onPeerDied t.addr true error finished t.incoming) =
        some (s.onPeerDied t error finished).peers := by
  cases h : s.peers.onPeerDied t.addr true error finished t.incoming with
  | none => exact Or.inl (by simp [Swarm.onPeerDied, h])
  | some r =>
    obtain ⟨ps, after⟩ := r
    cases after <;> exact Or.inr (by simp [Swarm.onPeerDied, PeerStates.apply, h])

theorem step_peers {op : SwarmOp} (h : s.step cfg op = some s') :
    s'.peers = s.peers ∨ ∃ o, op.peerOp cfg s = some o ∧ s.peers.apply o = some s'.peers := by
  cases op with
  | addPeerIfNotSeen a =>
    obtain ⟨ps, hps, rfl⟩ := Option.map_eq_some_iff.1 h
    exact Or.inr ⟨_, rfl, hps⟩
  | addIncomingPeer a kind =>
    obtain ⟨ps, hps, rfl⟩ := Option.map_eq_some_iff.1 h
    exact Or.inr ⟨_, rfl, hps⟩
  | trySend k =>
    obtain ⟨a, -, rfl⟩ := Option.map_eq_some_iff.1 h
    exact Or.inl rfl
  | adderReceive =>
    simp only [step] at h
    split at h
    · obtain rfl := Option.some.inj h
      exact Or.inl rfl
    · cases h
  | adderNotNeeded =>
    obtain ⟨a, ha, h⟩ := Option.bind_eq_some_iff.1 h
    split_ifs at h
    obtain rfl := Option.some.inj h
    cases hps : s.peers.markPeerNotNeeded a with
    | none => exact Or.inl rfl
    | some ps => exact Or.inr ⟨.markPeerNotNeeded a, by simp [SwarmOp.peerOp, ha], hps⟩
  | adderSkip =>
    obtain ⟨a, -, h⟩ := Option.bind_eq_some_iff.1 h
    split_ifs at h
    obtain rfl := Option.some.inj h
    exact Or.inl rfl
  | adderSpawn =>
    obtain ⟨a, -, h⟩ := Option.bind_eq_some_iff.1 h
    split_ifs at h
    obtain rfl := Option.some.inj h
    exact Or.inl rfl
  | markPeerConnecting k =>
    obtain ⟨a, ha, rfl⟩ := Option.map_eq_some_iff.1 h
    cases hps : s.peers.markPeerConnecting a s.nextTx with
    | none => exact Or.inl (by simp [hps])
    | some ps =>
      refine Or.inr ⟨.markPeerConnecting a s.nextTx, by simp [SwarmOp.peerOp, ha], ?_⟩
      simpa [hps, spawn]
  | onConnected i =>
    obtain ⟨t, ht, h⟩ := Option.bind_eq_some_iff.1 h
    split_ifs at h
    obtain ⟨ps, hps, rfl⟩ := Option.map_eq_some_iff.1 h
    exact Or.inr ⟨.onConnected t.addr t.counters, by simp [SwarmOp.peerOp, ht], hps⟩
  | onHandshake i kind =>
    obtain ⟨t, ht, h⟩ := Option.bind_eq_some_iff.1 h
    obtain ⟨ps, hps, rfl⟩ := Option.map_eq_some_iff.1 h
    exact Or.inr ⟨.setPeerLive t.addr kind, by simp [SwarmOp.peerOp, ht], hps⟩
  | updateBitfield i b =>
    obtain ⟨t, ht, h⟩ := Option.bind_eq_some_iff.1 h
    obtain ⟨ps, hps, rfl⟩ := Option.map_eq_some_iff.1 h
    exact Or.inr ⟨.updateBitfield t.addr b, by simp [SwarmOp.peerOp, ht], hps⟩
  | onExtendedHandshake i ip port =>
    obtain ⟨t, ht, h⟩ := Option.bind_eq_some_iff.1 h
    split_ifs at h
    obtain ⟨ps, hps, rfl⟩ := Option.map_eq_some_iff.1 h
    exact Or.inr ⟨.updateOutgoingAddr t.addr ⟨ip.getD t.addr.ip, port⟩,
      by simp [SwarmOp.peerOp, ht], hps⟩
  | disconnectFull a =>
    obtain ⟨ps, hps, rfl⟩ := Option.map_eq_some_iff.1 h
    exact Or.inr ⟨_, rfl, hps⟩
  | reconnectNotNeeded a =>
    obtain ⟨r, hps, rfl⟩ := Option.map_eq_some_iff.1 h
    exact Or.inr ⟨_, rfl, by simp [PeerStates.apply, hps]⟩
  | requeueDead a =>
    obtain ⟨ps, hps, rfl⟩ := Option.map_eq_some_iff.1 h
    exact Or.inr ⟨_, rfl, hps⟩
  | onPeerDied i error finished =>
    obtain ⟨t, ht, rfl⟩ := Option.map_eq_some_iff.1 h
    rcases onPeerDied_peers { s with tasks := s.tasks.eraseIdx i } t error finished with he | he
    · exact Or.inl he
    · exact Or.inr ⟨_, by simp [SwarmOp.peerOp, ht], he⟩
  | dropPeer k =>
    obtain ⟨a, ha, rfl⟩ := Option.map_eq_some_iff.1 h
    cases hps : s.peers.dropPeer a with
    | none => exact Or.inl rfl
    | some ps => exact Or.inr ⟨.dropPeer a, by simp [SwarmOp.peerOp, ha], hps⟩
  | waitForPeer k =>
    obtain ⟨a, ha, rfl⟩ := Option.map_eq_some_iff.1 h
    cases hps : s.peers.deadToQueued a with
    | none => exact Or.inl (by simp [hps])
    | some ps => exact Or.inr ⟨.deadToQueued a, by simp [SwarmOp.peerOp, ha], by simpa [hps]⟩
  | pruneDeadPeer a =>
    obtain ⟨ps, hps, rfl⟩ := Option.map_eq_some_iff.1 h
    exact Or.inr ⟨_, rfl, hps⟩

/-! A torrent with two peers -/

/-- One piece, and a queue as long as in the source. -/
def onePiece : Config := ⟨1, false, ⟨false, fun _ => false, none⟩, 10000⟩

def seeder : PeerHandle := ⟨.v4 0x01020304, 6881⟩

def leecher : PeerHandle := ⟨.v4 0x05060708, 40000⟩

/-- We connect to a peer that has the full torrent. -/
def connectOps : List SwarmOp :=
  [.addPeerIfNotSeen seeder, .trySend 0, .adderReceive, .adderSpawn, .markPeerConnecting 0,
    .onConnected 0, .onHandshake 0 .tcp, .updateBitfield 0 ⟨[true]⟩]

end Swarm

end Rtbit.Peers
