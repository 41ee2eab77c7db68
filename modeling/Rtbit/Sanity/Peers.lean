import Rtbit.Spec.Peers

/-! The functions of `PeerStates` one entry at a time: what a change of state does to the peer
and to the counters, and that the other entries stay. -/

namespace Rtbit.Peers

open Lib

variable {p p' : Peer} {c : Counters} {ps ps' : PeerStates} {a b : PeerHandle}

namespace Peer

@[simp] theorem setState_fst (p : Peer) (new : PeerState) (c : Counters) :
    (p.setState new c).1 = { p with state := new, connectionsAtChange := p.outgoingConnections } :=
  rfl

theorem setState_stats (p : Peer) (new : PeerState) (c : Counters) :
    (p.setState new c).2.stats = c.stats.incdec p.state new := by
  unfold setState
  cases p.outgoingAddress with
  | none => rfl
  | some x =>
    dsimp only
    split_ifs <;> rfl

theorem setState_sessionStats (p : Peer) (new : PeerState) (c : Counters) :
    (p.setState new c).2.sessionStats = c.sessionStats.incdec p.state new := by
  unfold setState
  cases p.outgoingAddress with
  | none => rfl
  | some x =>
    dsimp only
    split_ifs <;> rfl

/-- The peer in a new state. -/
def moved (p : Peer) (new : PeerState) : Peer :=
  { p with state := new, connectionsAtChange := p.outgoingConnections }

/-- `live_outgoing_peers` after `set_state`. -/
def outgoingAfter (p : Peer) (new : PeerState) (lo : Finset PeerHandle) : Finset PeerHandle :=
  match p.outgoingAddress with
  | none => lo
  | some x =>
    let lo := if p.state.isLive then lo.erase x else lo
    if new.isLive && 0 < p.outgoingConnections then insert x lo else lo

theorem setState_outgoing (p : Peer) (new : PeerState) (c : Counters) :
    (p.setState new c).2.liveOutgoingPeers = p.outgoingAfter new c.liveOutgoingPeers := by
  unfold setState outgoingAfter
  cases p.outgoingAddress with
  | none => rfl
  | some x =>
    dsimp only
    split_ifs <;> rfl

/-- The state in between does not show. -/
theorem outgoingAfter_queued (p : Peer) (new : PeerState) (lo : Finset PeerHandle) :
    (p.moved .queued).outgoingAfter new (p.outgoingAfter .queued lo) = p.outgoingAfter new lo := by
  unfold outgoingAfter moved
  cases p.outgoingAddress with
  | none => rfl
  | some x => simp [PeerState.isLive]

theorem retake_outgoing (p : Peer) (new : PeerState) (c : Counters) :
    ((p.takeState c).1.setState new (p.takeState c).2).2.liveOutgoingPeers =
      p.outgoingAfter new c.liveOutgoingPeers := by
  rw [setState_outgoing, takeState, setState_outgoing]
  exact p.outgoingAfter_queued new c.liveOutgoingPeers

/-- How `on_peer_died` leaves a peer it found in the state `st`. -/
def Died (hasPieces : Bool) (st new : PeerState) (after : AfterDeath) : Prop :=
  match st with
  | .connecting _ => new = .notNeeded st.task ∧ after = .done ∨ new = .dead ∧ after ≠ .dropPeer
  | .live _ =>
    if hasPieces then new = .notNeeded st.task ∧ after = .done ∨ new = .dead ∧ after ≠ .dropPeer
    else new = .queued ∧ after = .done
  | .notNeeded _ => new = st ∧ after = .done
  | .queued | .dead => new = .queued ∧ after = .dropPeer

/-- The states in which `on_peer_died` has nothing to close. -/
theorem Died.nothing_to_close {st new : PeerState} {after : AfterDeath}
    (h : Died true st new after) (hnew : new = .queued ∨ after = .dropPeer) :
    st = .queued ∨ st = .dead := by
  cases st with
  | queued => exact Or.inl rfl
  | dead => exact Or.inr rfl
  | notNeeded r =>
    obtain ⟨rfl, rfl⟩ := h
    rcases hnew with hnew | hnew <;> cases hnew
  | connecting tx | live l =>
    rcases h with ⟨rfl, rfl⟩ | ⟨rfl, hne⟩
    · rcases hnew with hnew | hnew <;> cases hnew
    · rcases hnew with hnew | hnew
      · cases hnew
      · exact absurd hnew hne

/-- The outcome `r` of `on_peer_died`, called on `p`. -/
def DiedAs (p : Peer) (hasPieces : Bool) (c : Counters) (r : Peer × Counters × AfterDeath) : Prop :=
  ∃ new, Died hasPieces p.state new r.2.2 ∧ r.1 = p.moved new ∧
    r.2.1.liveOutgoingPeers = p.outgoingAfter new c.liveOutgoingPeers

theorem close_diedAs {hasPieces error finished incoming : Bool}
    (hdied : ∀ {new after}, new = .notNeeded p.state.task ∧ after = .done ∨
      new = .dead ∧ after ≠ .dropPeer → Died hasPieces p.state new after) :
    p.DiedAs hasPieces c
      ((p.takeState c).1.close p.state.task error finished incoming (p.takeState c).2) := by
  unfold close
  split_ifs
  · exact ⟨_, hdied (Or.inl ⟨rfl, rfl⟩), rfl, p.retake_outgoing _ c⟩
  · exact ⟨_, hdied (Or.inr ⟨rfl, AfterDeath.noConfusion⟩), rfl, p.retake_outgoing _ c⟩
  · exact ⟨_, hdied (Or.inr ⟨rfl, AfterDeath.noConfusion⟩), rfl, p.retake_outgoing _ c⟩

theorem onPeerDied_diedAs (p : Peer) (hasPieces error finished incoming : Bool) (c : Counters) :
    p.DiedAs hasPieces c (p.onPeerDied hasPieces error finished incoming c) := by
  unfold onPeerDied
  dsimp only
  split
  · rename_i tx hst
    refine close_diedAs ?_
    rw [hst]
    exact id
  · rename_i l hst
    split_ifs with hpieces
    · refine close_diedAs ?_
      rw [hst, hpieces]
      exact id
    · refine ⟨.queued, ?_, rfl, p.setState_outgoing _ c⟩
      rw [hst, Bool.eq_false_iff.2 hpieces]
      exact ⟨rfl, rfl⟩
  · rename_i r hst
    exact ⟨.notNeeded r, by rw [hst]; exact ⟨rfl, rfl⟩, rfl, p.retake_outgoing _ c⟩
  · rename_i hst
    exact ⟨.queued, by rw [hst]; exact ⟨rfl, rfl⟩, rfl, p.setState_outgoing _ c⟩
  · rename_i hst
    exact ⟨.queued, by rw [hst]; exact ⟨rfl, rfl⟩, rfl, p.setState_outgoing _ c⟩

end Peer

namespace PeerStates

@[simp] theorem get_put_self (r : Peer × Counters) : (ps.put a r).get a = some r.1 :=
  AList.lookup_insert ps.states

theorem get_put_ne (r : Peer × Counters) (h : b ≠ a) : (ps.put a r).get b = ps.get b :=
  AList.lookup_insert_ne h

theorem withPeerMut_eq_some {f : Peer → Counters → Option (Peer × Counters)}
    (h : ps.withPeerMut a f = some ps') :
    ∃ p r, ps.get a = some p ∧ f p ps.toCounters = some r ∧ ps' = ps.put a r := by
  obtain ⟨p, hp, hf⟩ := Option.bind_eq_some_iff.1 h
  obtain ⟨r, hr, rfl⟩ := Option.map_eq_some_iff.1 hf
  exact ⟨p, r, hp, hr, rfl⟩

/-- The entry of `a` is now `e`, and `live_outgoing_peers` is `lo`. -/
structure Replaced (ps : PeerStates) (a : PeerHandle) (e : Option Peer) (lo : Finset PeerHandle)
    (ps' : PeerStates) : Prop where
  entry : ps'.get a = e
  other : ∀ b, b ≠ a → ps'.get b = ps.get b
  outgoing : ps'.liveOutgoingPeers = lo

/-- The peer `p` at `a` has moved to the state `new`. -/
structure Moved (ps : PeerStates) (a : PeerHandle) (p : Peer) (new : PeerState)
    (ps' : PeerStates) : Prop where
  before : ps.get a = some p
  after : Replaced ps a (some (p.moved new)) (p.outgoingAfter new ps.liveOutgoingPeers) ps'

theorem Replaced.put (r : Peer × Counters) :
    Replaced ps a (some r.1) r.2.liveOutgoingPeers (ps.put a r) :=
  ⟨get_put_self r, fun _ hb => get_put_ne r hb, rfl⟩

theorem Moved.setState (hp : ps.get a = some p) (new : PeerState) :
    Moved ps a p new (ps.put a (p.setState new ps.toCounters)) := by
  refine ⟨hp, ?_⟩
  rw [← p.setState_outgoing]
  exact Replaced.put (p.setState new ps.toCounters)

theorem Moved.retake (hp : ps.get a = some p) (new : PeerState) :
    Moved ps a p new (ps.put a ((p.takeState ps.toCounters).1.setState new
      (p.takeState ps.toCounters).2)) := by
  refine ⟨hp, ?_⟩
  rw [← p.retake_outgoing]
  exact Replaced.put ((p.takeState ps.toCounters).1.setState new (p.takeState ps.toCounters).2)

/-! One lemma for each function -/

variable {tx : PeerTx} {kind : ConnectionKind} {x out : PeerHandle}

theorem addIfNotSeen_spec (h : ps.addIfNotSeen a = some ps') : ps.get a = none ∧
    Replaced ps a (some (.newWithOutgoingAddress a ps.nextCounters)) ps.liveOutgoingPeers ps' := by
  unfold addIfNotSeen at h
  split at h
  · cases h
  · rename_i hp
    obtain rfl := Option.some.inj h
    exact ⟨hp, AList.lookup_insert ps.states, fun _ hb => AList.lookup_insert_ne hb, rfl⟩

theorem addIncomingPeer_spec (h : ps.addIncomingPeer a tx kind = some ps') :
    (ps.get a = none ∧
      Replaced ps a (some ⟨a, .live (.new tx kind), ps.nextCounters, 0, none, 0⟩)
        ps.liveOutgoingPeers ps') ∨
      ∃ p, Moved ps a p (.live (.new tx kind)) ps' ∧ p.state.isLive = false := by
  unfold addIncomingPeer at h
  split at h
  · rename_i p hp
    obtain ⟨r, hr, rfl⟩ := Option.map_eq_some_iff.1 h
    unfold Peer.incomingConnection at hr
    split at hr
    · cases hr
    · cases hr
    · rename_i hne
      obtain rfl := Option.some.inj hr
      refine Or.inr ⟨p, Moved.retake hp _, ?_⟩
      cases hst : p.state with
      | live l => exact absurd hst (hne l)
      | _ => rfl
  · rename_i hp
    obtain rfl := Option.some.inj h
    exact Or.inl ⟨hp, AList.lookup_insert ps.states, fun _ hb => AList.lookup_insert_ne hb, rfl⟩

theorem markPeerConnecting_spec (h : ps.markPeerConnecting a tx = some ps') :
    ∃ p, Moved ps a p (.connecting tx) ps' ∧ p.state.isLive = false := by
  obtain ⟨p, r, hp, hr, rfl⟩ := withPeerMut_eq_some h
  unfold Peer.idleToConnecting at hr
  split at hr
  · rename_i hst
    obtain rfl := Option.some.inj hr
    exact ⟨p, Moved.setState hp _, by rw [hst]; rfl⟩
  · rename_i hst
    obtain rfl := Option.some.inj hr
    exact ⟨p, Moved.setState hp _, by rw [hst]; rfl⟩
  · cases hr

theorem setPeerLive_spec (h : ps.setPeerLive a kind = some ps') :
    ∃ p tx, p.state = .connecting tx ∧ Moved ps a p (.live (.new tx kind)) ps' := by
  obtain ⟨p, r, hp, hr, rfl⟩ := withPeerMut_eq_some h
  unfold Peer.connectingToLive at hr
  split at hr
  · rename_i tx hst
    obtain rfl := Option.some.inj hr
    exact ⟨p, tx, hst, Moved.retake hp _⟩
  · cases hr

theorem markPeerNotNeeded_spec (h : ps.markPeerNotNeeded a = some ps') :
    ∃ p, Moved ps a p (.notNeeded p.state.task) ps' := by
  obtain ⟨p, r, hp, hr, rfl⟩ := withPeerMut_eq_some h
  obtain rfl := Option.some.inj hr
  exact ⟨p, Moved.setState hp _⟩

theorem disconnectFull_spec {n : ℕ} (h : ps.disconnectFull n a = some ps') :
    ∃ p, Moved ps a p (.notNeeded p.state.task) ps' := by
  obtain ⟨p, r, hp, hr, rfl⟩ := withPeerMut_eq_some h
  unfold Peer.disconnectFull at hr
  split at hr
  · split_ifs at hr
    obtain rfl := Option.some.inj hr
    exact ⟨p, Moved.setState hp _⟩
  · cases hr

theorem deadToQueued_spec (h : ps.deadToQueued a = some ps') :
    ∃ p, p.state = .dead ∧ Moved ps a p .queued ps' := by
  obtain ⟨p, r, hp, hr, rfl⟩ := withPeerMut_eq_some h
  unfold Peer.deadToQueued at hr
  split at hr
  · rename_i hst
    obtain rfl := Option.some.inj hr
    exact ⟨p, hst, Moved.setState hp _⟩
  · cases hr

/-- The peer is queued, or its state stays and another address is queued. -/
theorem reconnectNotNeeded_spec (h : ps.reconnectNotNeeded a = some (x, ps')) :
    ∃ p r, p.state = .notNeeded r ∧ p.outgoingAddress = some x ∧
      (p.addr = x ∧ Moved ps a p .queued ps' ∨
        p.addr ≠ x ∧ ps.get a = some p ∧ Replaced ps a (some p) ps.liveOutgoingPeers ps') := by
  obtain ⟨p, hp, h⟩ := Option.bind_eq_some_iff.1 h
  obtain ⟨⟨y, r⟩, hr, he⟩ := Option.map_eq_some_iff.1 h
  obtain ⟨rfl, rfl⟩ := Prod.mk.inj he
  clear h he
  unfold Peer.reconnectNotNeededPeer at hr
  split at hr
  · rename_i replaced hst
    split at hr
    · cases hr
    · rename_i y' hout
      split_ifs at hr with haddr
      · obtain ⟨rfl, rfl⟩ := Prod.mk.inj (Option.some.inj hr)
        exact ⟨p, replaced, hst, hout, Or.inl ⟨haddr, Moved.setState hp _⟩⟩
      · obtain ⟨rfl, rfl⟩ := Prod.mk.inj (Option.some.inj hr)
        exact ⟨p, replaced, hst, hout, Or.inr ⟨haddr, hp, Replaced.put (p, ps.toCounters)⟩⟩
  · cases hr

theorem updateBitfield_spec {b : Bits} (h : ps.updateBitfield a b = some ps') :
    ∃ p l, ps.get a = some p ∧ p.state = .live l ∧
      Replaced ps a (some { p with state := .live { l with bitfield := b } })
        ps.liveOutgoingPeers ps' := by
  obtain ⟨p, r, hp, hr, rfl⟩ := withPeerMut_eq_some h
  split at hr
  · rename_i l hst
    obtain rfl := Option.some.inj hr
    exact ⟨p, l, hp, hst, Replaced.put (_, ps.toCounters)⟩
  · cases hr

theorem updateOutgoingAddr_spec (h : ps.updateOutgoingAddr a out = some ps') :
    ∃ p, ps.get a = some p ∧
      Replaced ps a (some { p with outgoingAddress := some out }) ps.liveOutgoingPeers ps' := by
  obtain ⟨p, r, hp, hr, rfl⟩ := withPeerMut_eq_some h
  obtain rfl := Option.some.inj hr
  exact ⟨p, hp, Replaced.put (_, ps.toCounters)⟩

theorem onConnected_spec {counters : ℕ} (h : ps.onConnected a counters = some ps') :
    ∃ p, ps.get a = some p ∧
      Replaced ps a (some { p with outgoingConnections := u32Inc p.outgoingConnections })
        ps.liveOutgoingPeers ps' := by
  obtain ⟨p, r, hp, hr, rfl⟩ := withPeerMut_eq_some h
  split_ifs at hr
  obtain rfl := Option.some.inj hr
  exact ⟨p, hp, Replaced.put (_, ps.toCounters)⟩

theorem dropPeer_spec (h : ps.dropPeer a = some ps') :
    ∃ p, ps.get a = some p ∧ Replaced ps a none ps.liveOutgoingPeers ps' := by
  obtain ⟨p, hp, rfl⟩ := Option.map_eq_some_iff.1 h
  exact ⟨p, hp, AList.lookup_erase a ps.states, fun _ hb => AList.lookup_erase_ne hb, rfl⟩

theorem pruneDeadPeer_spec (h : ps.pruneDeadPeer a = some ps') :
    ∃ p, ps.get a = some p ∧ p.state.isLive = false ∧
      Replaced ps a none ps.liveOutgoingPeers ps' := by
  obtain ⟨p, hp, h⟩ := Option.bind_eq_some_iff.1 h
  split at h
  · rename_i hst
    obtain rfl := Option.some.inj h
    exact ⟨p, hp, by rw [hst]; rfl, AList.lookup_erase a ps.states,
      fun _ hb => AList.lookup_erase_ne hb, rfl⟩
  · rename_i hst
    obtain rfl := Option.some.inj h
    exact ⟨p, hp, by rw [hst]; rfl, AList.lookup_erase a ps.states,
      fun _ hb => AList.lookup_erase_ne hb, rfl⟩
  · cases h

theorem onPeerDied_spec {hasPieces error finished incoming : Bool} {after : AfterDeath}
    (h : ps.onPeerDied a hasPieces error finished incoming = some (ps', after)) :
    ∃ p new, Moved ps a p new ps' ∧ Peer.Died hasPieces p.state new after := by
  obtain ⟨p, hp, he⟩ := Option.map_eq_some_iff.1 h
  obtain ⟨new, hdied, hmoved, hout⟩ :=
    p.onPeerDied_diedAs hasPieces error finished incoming ps.toCounters
  have hps' := congrArg Prod.fst he
  have hafter := congrArg Prod.snd he
  dsimp only at hps' hafter
  rw [hafter] at hdied
  refine ⟨p, new, ⟨hp, ?_⟩, hdied⟩
  rw [← hmoved, ← hout, ← hps']
  exact ⟨get_put_self _, fun _ hb => get_put_ne _ hb, rfl⟩

end PeerStates

end Rtbit.Peers
