import Rtbit.Sanity.Swarm

/-! `live_outgoing_peers`, which the peers are told of. It is the set of the outgoing addresses
of the live peers that count, as long as no peer that leaves shares its address with one of them,
no extended handshake changes the address of one, and `drop_peer` removes none. -/

namespace Rtbit.Peers

open Lib

namespace Peer

/-- A live peer whose `outgoing_connections` was positive when it became live. -/
def counts (p : Peer) : Bool := p.state.isLive && decide (0 < p.connectionsAtChange)

/-- The address `y` is in the set because of `p`. -/
def Gives (p : Peer) (y : PeerHandle) : Prop := p.counts = true ∧ p.outgoingAddress = some y

instance (p : Peer) (y : PeerHandle) : Decidable (p.Gives y) :=
  inferInstanceAs (Decidable (_ ∧ _))

variable {p : Peer} {y : PeerHandle}

theorem Gives.isLive (h : p.Gives y) : p.state.isLive = true := (Bool.and_eq_true _ _ ▸ h.1).1

theorem moved_gives {new : PeerState} : (p.moved new).Gives y ↔
    (new.isLive && decide (0 < p.outgoingConnections)) = true ∧ p.outgoingAddress = some y :=
  Iff.rfl

end Peer

namespace PeerStates

variable {ps ps' : PeerStates} {a y : PeerHandle} {p q : Peer} {e : Option Peer}
  {lo : Finset PeerHandle}

/-- `live_outgoing_peers` is the set of the outgoing addresses of the live peers that count. -/
def Sourced (ps : PeerStates) : Prop :=
  ∀ y, y ∈ ps.liveOutgoingPeers ↔ ∃ a p, ps.get a = some p ∧ p.Gives y

/-- A peer other than `a` gives `y` to the set. -/
def GivenElsewhere (ps : PeerStates) (a y : PeerHandle) : Prop :=
  ∃ b ∈ ps.states.keys, b ≠ a ∧ ∃ q ∈ ps.get b, q.Gives y

instance (ps : PeerStates) (a y : PeerHandle) : Decidable (ps.GivenElsewhere a y) :=
  inferInstanceAs (Decidable (∃ b ∈ ps.states.keys, b ≠ a ∧ ∃ q ∈ ps.get b, q.Gives y))

theorem givenElsewhere_iff :
    ps.GivenElsewhere a y ↔ ∃ b p, b ≠ a ∧ ps.get b = some p ∧ p.Gives y := by
  constructor
  · rintro ⟨b, -, hne, p, hp, hg⟩
    exact ⟨b, p, hne, hp, hg⟩
  · rintro ⟨b, p, hne, hp, hg⟩
    have hkey : b ∈ ps.states := AList.lookup_isSome.1 (Option.isSome_iff_exists.2 ⟨p, hp⟩)
    exact ⟨b, AList.mem_keys.1 hkey, hne, p, hp, hg⟩

/-- The peer `a` apart from the others. -/
theorem given_iff (a : PeerHandle) : (∃ b p, ps.get b = some p ∧ p.Gives y) ↔
    ps.GivenElsewhere a y ∨ ∃ p, ps.get a = some p ∧ p.Gives y := by
  rw [givenElsewhere_iff]
  constructor
  · rintro ⟨b, p, hp, hg⟩
    by_cases hb : b = a
    · exact Or.inr ⟨p, hb ▸ hp, hg⟩
    · exact Or.inl ⟨b, p, hb, hp, hg⟩
  · rintro (⟨b, p, -, hp, hg⟩ | ⟨p, hp, hg⟩)
    · exact ⟨b, p, hp, hg⟩
    · exact ⟨a, p, hp, hg⟩

theorem Replaced.given_iff (hr : ps.Replaced a e lo ps') :
    (∃ b p, ps'.get b = some p ∧ p.Gives y) ↔
      ps.GivenElsewhere a y ∨ ∃ q, e = some q ∧ q.Gives y := by
  rw [PeerStates.given_iff a, hr.entry]
  have hother : ps'.GivenElsewhere a y ↔ ps.GivenElsewhere a y := by
    rw [givenElsewhere_iff, givenElsewhere_iff]
    constructor
    · rintro ⟨b, p, hne, hp, hg⟩
      exact ⟨b, p, hne, hr.other b hne ▸ hp, hg⟩
    · rintro ⟨b, p, hne, hp, hg⟩
      exact ⟨b, p, hne, (hr.other b hne).trans hp, hg⟩
  rw [hother]

/-- What the entry of `a` gives stays the same, and the set too. -/
theorem Sourced.same (h : ps.Sourced) (hr : ps.Replaced a e ps.liveOutgoingPeers ps')
    (he : ∀ y, (∃ q, e = some q ∧ q.Gives y) ↔ ∃ p, ps.get a = some p ∧ p.Gives y) :
    ps'.Sourced := by
  intro y
  rw [hr.outgoing, h y, PeerStates.given_iff a, hr.given_iff, he y]

/-- The entry of `a` gave nothing and gives nothing. -/
theorem Sourced.none (h : ps.Sourced) (hr : ps.Replaced a e ps.liveOutgoingPeers ps')
    (hp : ∀ p, ps.get a = some p → p.counts = false) (hq : ∀ q, e = some q → q.counts = false) :
    ps'.Sourced := by
  refine h.same hr fun y => ?_
  constructor
  · rintro ⟨q, he, hg, -⟩
    rw [hq q he] at hg
    cases hg
  · rintro ⟨p, he, hg, -⟩
    rw [hp p he] at hg
    cases hg

/-- A live peer that leaves shares its outgoing address with no peer that counts. -/
def LeavesAlone (ps : PeerStates) (a : PeerHandle) : Prop :=
  ∀ p ∈ ps.get a, p.state.isLive = true → ∀ y ∈ p.outgoingAddress, ¬ps.GivenElsewhere a y

instance (ps : PeerStates) (a : PeerHandle) : Decidable (ps.LeavesAlone a) :=
  inferInstanceAs (Decidable (∀ p ∈ ps.get a, p.state.isLive = true →
    ∀ y ∈ p.outgoingAddress, ¬ps.GivenElsewhere a y))

/-- Without the peer `a`, the set has what the others give. -/
theorem Sourced.without {x : PeerHandle} (h : ps.Sourced) (hp : ps.get a = some p)
    (hout : p.outgoingAddress = some x) (halone : ps.LeavesAlone a) :
    y ∈ (if p.state.isLive then ps.liveOutgoingPeers.erase x else ps.liveOutgoingPeers) ↔
      ps.GivenElsewhere a y := by
  have hset : y ∈ ps.liveOutgoingPeers ↔ ps.GivenElsewhere a y ∨ p.Gives y := by
    rw [h y, PeerStates.given_iff a, hp]
    simp only [Option.some.injEq, exists_eq_left']
  split_ifs with hlive
  · rw [Finset.mem_erase, hset]
    constructor
    · rintro ⟨hne, helse | ⟨-, hy⟩⟩
      · exact helse
      · rw [hout] at hy
        exact absurd (Option.some.inj hy).symm hne
    · intro helse
      refine ⟨?_, Or.inl helse⟩
      rintro rfl
      exact halone p hp hlive y hout helse
  · rw [hset]
    constructor
    · rintro (helse | hg)
      · exact helse
      · exact absurd hg.isLive hlive
    · exact Or.inl

theorem Sourced.moved {new : PeerState} (h : ps.Sourced) (hm : ps.Moved a p new ps')
    (halone : ps.LeavesAlone a) : ps'.Sourced := by
  intro y
  rw [hm.after.outgoing, hm.after.given_iff]
  simp only [Option.some.injEq, exists_eq_left', Peer.moved_gives]
  unfold Peer.outgoingAfter
  cases hout : p.outgoingAddress with
  | none =>
    have hgives : ¬∃ q, ps.get a = some q ∧ q.Gives y := by
      rintro ⟨q, hq, -, hy⟩
      rw [hm.before] at hq
      obtain rfl := Option.some.inj hq
      rw [hout] at hy
      cases hy
    rw [h y, PeerStates.given_iff a]
    simp [hgives]
  | some x =>
    have hwithout := h.without (y := y) hm.before hout halone
    dsimp only
    by_cases hnew : (new.isLive && decide (0 < p.outgoingConnections)) = true
    · rw [if_pos hnew, Finset.mem_insert, hwithout, or_comm, Option.some.injEq, eq_comm]
      simp only [hnew, true_and]
    · rw [if_neg hnew, hwithout]
      exact ⟨Or.inl, fun hy => hy.resolve_right fun hy' => hnew hy'.1⟩

/-- No step takes an address away from a peer that counts, or a peer that counts away from its
address. -/
def KeepsOutgoing (ps : PeerStates) : PeerOp → Prop
  | .markPeerNotNeeded a => ps.LeavesAlone a
  | .disconnectFull _ a => ps.LeavesAlone a
  | .onPeerDied a _ _ _ _ => ps.LeavesAlone a
  | .updateOutgoingAddr a out => ∀ p ∈ ps.get a, p.counts = true → p.outgoingAddress = some out
  | .dropPeer a => ∀ p ∈ ps.get a, p.counts = false
  | _ => True

instance (ps : PeerStates) : (op : PeerOp) → Decidable (ps.KeepsOutgoing op)
  | .markPeerNotNeeded a => inferInstanceAs (Decidable (ps.LeavesAlone a))
  | .disconnectFull _ a => inferInstanceAs (Decidable (ps.LeavesAlone a))
  | .onPeerDied a _ _ _ _ => inferInstanceAs (Decidable (ps.LeavesAlone a))
  | .updateOutgoingAddr a out => inferInstanceAs (Decidable (∀ p ∈ ps.get a, p.counts = true →
      p.outgoingAddress = some out))
  | .dropPeer a => inferInstanceAs (Decidable (∀ p ∈ ps.get a, p.counts = false))
  | .addIfNotSeen _ | .addIncomingPeer _ _ _ | .markPeerConnecting _ _ | .setPeerLive _ _
  | .deadToQueued _ | .reconnectNotNeeded _ | .updateBitfield _ _ | .onConnected _ _
  | .pruneDeadPeer _ => isTrue trivial

theorem leavesAlone_of_not_live (hp : ps.get a = some p) (hst : p.state.isLive = false) :
    ps.LeavesAlone a := by
  intro q hq hlive
  obtain rfl : p = q := Option.some.inj (hp.symm.trans hq)
  rw [hst] at hlive
  cases hlive

theorem counts_of_not_live (hst : p.state.isLive = false) : p.counts = false := by
  rw [Peer.counts, hst, Bool.false_and]

theorem Sourced.apply {op : PeerOp} (h : ps.Sourced) (hok : ps.KeepsOutgoing op)
    (hs : ps.apply op = some ps') : ps'.Sourced := by
  cases op with
  | addIfNotSeen a =>
    obtain ⟨hnone, hr⟩ := addIfNotSeen_spec hs
    refine h.none hr (fun p hp => ?_) (fun q hq => ?_)
    · rw [hnone] at hp
      cases hp
    · obtain rfl := Option.some.inj hq
      rfl
  | addIncomingPeer a tx kind =>
    rcases addIncomingPeer_spec hs with ⟨hnone, hr⟩ | ⟨p, hmoved, hst⟩
    · refine h.none hr (fun p hp => ?_) (fun q hq => ?_)
      · rw [hnone] at hp
        cases hp
      · obtain rfl := Option.some.inj hq
        rfl
    · exact h.moved hmoved (leavesAlone_of_not_live hmoved.before hst)
  | markPeerConnecting a tx =>
    obtain ⟨p, hmoved, hst⟩ := markPeerConnecting_spec hs
    exact h.moved hmoved (leavesAlone_of_not_live hmoved.before hst)
  | setPeerLive a kind =>
    obtain ⟨p, tx, hst, hmoved⟩ := setPeerLive_spec hs
    exact h.moved hmoved (leavesAlone_of_not_live hmoved.before (by rw [hst]; rfl))
  | markPeerNotNeeded a =>
    obtain ⟨p, hmoved⟩ := markPeerNotNeeded_spec hs
    exact h.moved hmoved hok
  | disconnectFull n a =>
    obtain ⟨p, hmoved⟩ := disconnectFull_spec hs
    exact h.moved hmoved hok
  | deadToQueued a =>
    obtain ⟨p, hst, hmoved⟩ := deadToQueued_spec hs
    exact h.moved hmoved (leavesAlone_of_not_live hmoved.before (by rw [hst]; rfl))
  | reconnectNotNeeded a =>
    obtain ⟨⟨x, _⟩, hx, rfl⟩ := Option.map_eq_some_iff.1 hs
    obtain ⟨p, r, hst, -, ⟨-, hmoved⟩ | ⟨-, hp, hr⟩⟩ := reconnectNotNeeded_spec hx
    · exact h.moved hmoved (leavesAlone_of_not_live hmoved.before (by rw [hst]; rfl))
    · exact h.same hr fun y => by rw [hp]
  | updateBitfield a b =>
    obtain ⟨p, l, hp, hst, hr⟩ := updateBitfield_spec hs
    refine h.same hr fun y => ?_
    rw [hp]
    simp only [Option.some.injEq, exists_eq_left', Peer.Gives, Peer.counts, hst]
    rfl
  | updateOutgoingAddr a out =>
    obtain ⟨p, hp, hr⟩ := updateOutgoingAddr_spec hs
    refine h.same hr fun y => ?_
    rw [hp]
    simp only [Option.some.injEq, exists_eq_left', Peer.Gives]
    constructor
    · rintro ⟨hc, rfl⟩
      exact ⟨hc, hok p hp hc⟩
    · rintro ⟨hc, hy⟩
      rw [hok p hp hc] at hy
      exact ⟨hc, Option.some.inj hy⟩
  | onConnected a counters =>
    obtain ⟨p, hp, hr⟩ := onConnected_spec hs
    refine h.same hr fun y => ?_
    rw [hp]
    simp only [Option.some.injEq, exists_eq_left']
    rfl
  | onPeerDied a pieces error finished incoming =>
    obtain ⟨⟨_, after⟩, hx, rfl⟩ := Option.map_eq_some_iff.1 hs
    obtain ⟨p, new, hmoved, -⟩ := onPeerDied_spec hx
    exact h.moved hmoved hok
  | dropPeer a =>
    obtain ⟨p, hp, hr⟩ := dropPeer_spec hs
    exact h.none hr hok fun q hq => by cases hq
  | pruneDeadPeer a =>
    obtain ⟨p, hp, hst, hr⟩ := pruneDeadPeer_spec hs
    refine h.none hr (fun q hq => ?_) fun q hq => by cases hq
    obtain rfl : p = q := Option.some.inj (hp.symm.trans hq)
    exact counts_of_not_live hst

end PeerStates

namespace Swarm

variable {cfg : Config} {s s' : Swarm}

/-- The operation of the peer map keeps its peers and the set together. -/
def KeepsSource (cfg : Config) (s : Swarm) (op : SwarmOp) : Prop :=
  ∀ o ∈ op.peerOp cfg s, s.peers.KeepsOutgoing o

instance (cfg : Config) (s : Swarm) (op : SwarmOp) : Decidable (s.KeepsSource cfg op) :=
  inferInstanceAs (Decidable (∀ o ∈ op.peerOp cfg s, s.peers.KeepsOutgoing o))

theorem step_sourced {op : SwarmOp} (h : s.peers.Sourced) (hok : s.KeepsSource cfg op)
    (hs : s.step cfg op = some s') : s'.peers.Sourced := by
  rcases step_peers hs with he | ⟨o, ho, hs⟩
  · rw [he]
    exact h
  · exact h.apply (hok o ho) hs

theorem start_sourced : start.peers.Sourced := by
  intro y
  constructor
  · intro hy
    cases hy
  · rintro ⟨a, p, hp, -⟩
    cases hp

/-- In every run with these conditions, `live_outgoing_peers` is the set of the outgoing
addresses of the live peers whose `outgoing_connections` was positive when they became live. -/
theorem keepsSource_sourced {ops : List SwarmOp}
    (hr : Run (step cfg) (KeepsSource cfg) start ops s) : s.peers.Sourced :=
  hr.inv (fun s => s.peers.Sourced) start_sourced fun _ _ _ h hok hs => step_sourced h hok hs

/-- A peer that has connected to us says where it listens; then we connect to another. -/
def listenOps : List SwarmOp :=
  [.addIncomingPeer leecher .utp, .onExtendedHandshake 0 none 6881, .addPeerIfNotSeen seeder,
    .trySend 0, .adderReceive, .adderSpawn, .markPeerConnecting 0, .onConnected 1,
    .onHandshake 1 .tcp, .onPeerDied 0 true false]

theorem listen_sourced : ∃ s, Run (step onePiece) (KeepsSource onePiece) start listenOps s ∧
    s.peers.liveOutgoingPeers = {seeder} ∧ s.peers.Sourced := by
  have hex : (exec (step onePiece) (KeepsSource onePiece) start listenOps).any
      (fun s => decide (s.peers.liveOutgoingPeers = {seeder})) = true := by
    decide +kernel
  obtain ⟨s, hr, hset⟩ := Run.exists_of_exec hex
  exact ⟨s, hr, of_decide_eq_true hset, keepsSource_sourced hr⟩

/-- A peer that we have connected to comes back on its own, says that it listens somewhere else,
and leaves. -/
def movedPeerOps : List SwarmOp :=
  connectOps ++ [.onPeerDied 0 false false, .addIncomingPeer seeder .tcp,
    .onExtendedHandshake 0 none 6882, .onPeerDied 0 false false]

/-- A peer says that it listens where we are connected to another peer, and leaves. -/
def sharedAddressOps : List SwarmOp :=
  connectOps ++ [.addIncomingPeer leecher .tcp,
    .onExtendedHandshake 1 (some seeder.ip) seeder.port, .onPeerDied 1 false false]

/-- The address of a peer stays in the set when no peer is live; and it is not in the set though
the peer is live. -/
theorem live_outgoing_peers_wrong :
    (∃ s, Run (step onePiece) Any start movedPeerOps s ∧ s.tasks = [] ∧
      seeder ∈ s.peers.liveOutgoingPeers ∧
        (∀ a p, s.peers.get a = some p → p.state.isLive = false) ∧ ¬s.peers.Sourced) ∧
    ∃ s, Run (step onePiece) Any start sharedAddressOps s ∧ s.peers.liveOutgoingPeers = ∅ ∧
      (∃ p, s.peers.get seeder = some p ∧ p.Gives seeder) ∧ ¬s.peers.Sourced := by
  constructor
  · have hex : (exec (step onePiece) Any start movedPeerOps).any (fun s =>
        decide (s.tasks = [] ∧ seeder ∈ s.peers.liveOutgoingPeers ∧
          ∀ p ∈ values s.peers.states, p.state.isLive = false)) = true := by
      decide +kernel
    obtain ⟨s, hr, hq⟩ := Run.exists_of_exec hex
    obtain ⟨htasks, hmem, hdead⟩ := of_decide_eq_true hq
    have hlive (a : PeerHandle) (p : Peer) (hp : s.peers.get a = some p) :
        p.state.isLive = false := hdead p (mem_values.2 ⟨a, hp⟩)
    refine ⟨s, hr, htasks, hmem, hlive, ?_⟩
    intro h
    obtain ⟨a, p, hp, hg⟩ := (h seeder).1 hmem
    have hl := hg.isLive
    rw [hlive a p hp] at hl
    cases hl
  · have hex : (exec (step onePiece) Any start sharedAddressOps).any (fun s =>
        decide (s.peers.liveOutgoingPeers = ∅ ∧
          ∃ p ∈ s.peers.get seeder, p.Gives seeder)) = true := by
      decide +kernel
    obtain ⟨s, hr, hq⟩ := Run.exists_of_exec hex
    obtain ⟨hempty, p, hp, hg⟩ := of_decide_eq_true hq
    refine ⟨s, hr, hempty, ⟨p, hp, hg⟩, ?_⟩
    intro h
    have hmem := (h seeder).2 ⟨seeder, p, hp, hg⟩
    rw [hempty] at hmem
    exact absurd hmem (Finset.notMem_empty seeder)

end Swarm

end Rtbit.Peers
