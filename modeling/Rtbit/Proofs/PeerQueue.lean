import Rtbit.Sanity.Swarm

/-! `Queued` peers and the queue of addresses. A queued peer is in the queue, with the adder or
with a task that starts, as long as `try_send` finds room and an entry, nothing is pruned that is
in the queue, and `on_peer_died` finds no queued or dead peer. -/

namespace Rtbit.Peers

open Lib

theorem PeerStates.markPeerConnecting_none {ps : PeerStates} {a : PeerHandle} {tx : PeerTx}
    (h : ps.markPeerConnecting a tx = none) {p : Peer} (hp : ps.get a = some p) :
    p.state ≠ .queued := by
  intro hst
  simp [PeerStates.markPeerConnecting, PeerStates.withPeerMut, hp, Peer.idleToConnecting, hst] at h

theorem PeerStates.markPeerNotNeeded_none {ps : PeerStates} {a : PeerHandle}
    (h : ps.markPeerNotNeeded a = none) : ps.get a = none := by
  cases hp : ps.get a with
  | none => rfl
  | some p => simp [PeerStates.markPeerNotNeeded, PeerStates.withPeerMut, hp] at h

namespace Swarm

variable {cfg : Config} {s s' : Swarm} {a : PeerHandle} {p q : Peer} {lo : Finset PeerHandle}

/-- A queued peer that the adder would accept is on its way, and what is in the queue has an
entry. -/
structure ReallyQueued (cfg : Config) (s : Swarm) : Prop where
  queued : ∀ a p, s.peers.get a = some p → p.state = .queued → cfg.filters.accepts a = true →
    a ∈ s.queue ∨ s.adder = some a ∨ a ∈ s.starting
  entries : ∀ a ∈ s.queue, ∃ p, s.peers.get a = some p

/-- The address is in the queue or with its sender, the adder or a task that starts. -/
def Waits (s : Swarm) (a : PeerHandle) : Prop :=
  a ∈ s.queue ∨ s.adder = some a ∨ a ∈ s.starting ∨ a ∈ s.sending

structure Tracked (cfg : Config) (s : Swarm) : Prop where
  keyed : ∀ a p, s.peers.get a = some p → p.addr = a
  queued : ∀ a p, s.peers.get a = some p → p.state = .queued → cfg.filters.accepts a = true →
    s.Waits a
  entries : ∀ a ∈ s.queue, ∃ p, s.peers.get a = some p
  dropping : s.dropping = []

/-- `try_send` finds room and sends an address that has an entry; no address in the queue is
pruned; `on_peer_died` does not find a queued or dead peer. -/
def KeepsQueue (cfg : Config) (s : Swarm) : SwarmOp → Prop
  | .trySend k => s.queue.length < cfg.capacity ∧
      ∀ a ∈ s.sending[k]?, (s.peers.get a).isSome = true
  | .pruneDeadPeer a => a ∉ s.queue
  | .onPeerDied i _ _ => ∀ t ∈ s.tasks[i]?, ∀ p ∈ s.peers.get t.addr,
      p.state ≠ .queued ∧ p.state ≠ .dead
  | _ => True

instance (cfg : Config) (s : Swarm) : (op : SwarmOp) → Decidable (s.KeepsQueue cfg op)
  | .trySend k => inferInstanceAs (Decidable (s.queue.length < cfg.capacity ∧
      ∀ a ∈ s.sending[k]?, (s.peers.get a).isSome = true))
  | .pruneDeadPeer a => inferInstanceAs (Decidable (a ∉ s.queue))
  | .onPeerDied i _ _ => inferInstanceAs (Decidable (∀ t ∈ s.tasks[i]?,
      ∀ p ∈ s.peers.get t.addr, p.state ≠ .queued ∧ p.state ≠ .dead))
  | .addPeerIfNotSeen _ | .addIncomingPeer _ _ | .adderReceive | .adderNotNeeded | .adderSkip
  | .adderSpawn | .markPeerConnecting _ | .onConnected _ | .onHandshake _ _ | .updateBitfield _ _
  | .onExtendedHandshake _ _ _ | .disconnectFull _ | .reconnectNotNeeded _ | .requeueDead _
  | .dropPeer _ | .waitForPeer _ => isTrue trivial

/-- The entry of `a` has changed. The other addresses wait as before. -/
theorem Tracked.replaced (h : s.Tracked cfg) (hr : s.peers.Replaced a (some q) lo s'.peers)
    (haddr : q.addr = a)
    (hq : q.state = .queued → cfg.filters.accepts a = true → s'.Waits a)
    (hwaits : ∀ b, b ≠ a → s.Waits b → s'.Waits b) (hqueue : s'.queue = s.queue)
    (hd : s'.dropping = s.dropping) : s'.Tracked cfg := by
  refine ⟨?_, ?_, ?_, hd.trans h.dropping⟩
  · intro b p hp
    by_cases hb : b = a
    · subst hb
      rw [hr.entry] at hp
      obtain rfl := Option.some.inj hp
      exact haddr
    · rw [hr.other b hb] at hp
      exact h.keyed b p hp
  · intro b p hp hst hacc
    by_cases hb : b = a
    · subst hb
      rw [hr.entry] at hp
      obtain rfl := Option.some.inj hp
      exact hq hst hacc
    · rw [hr.other b hb] at hp
      exact hwaits b hb (h.queued b p hp hst hacc)
  · intro b hb
    rw [hqueue] at hb
    by_cases hba : b = a
    · exact ⟨q, by rw [hba]; exact hr.entry⟩
    · rw [hr.other b hba]
      exact h.entries b hb

/-- A change of state, with nothing else. -/
theorem Tracked.moved {new : PeerState} (h : s.Tracked cfg) (hm : s.peers.Moved a p new s'.peers)
    (hnew : new = .queued → cfg.filters.accepts a = true → s'.Waits a)
    (hwaits : ∀ b, b ≠ a → s.Waits b → s'.Waits b) (hqueue : s'.queue = s.queue)
    (hd : s'.dropping = s.dropping) : s'.Tracked cfg :=
  h.replaced hm.after (h.keyed a p hm.before) hnew hwaits hqueue hd

/-- The entries stay. -/
theorem Tracked.unchanged (h : s.Tracked cfg) (hp : s'.peers = s.peers)
    (hwaits : ∀ b p, s.peers.get b = some p → p.state = .queued →
      cfg.filters.accepts b = true → s.Waits b → s'.Waits b)
    (hqueue : ∀ b ∈ s'.queue, b ∈ s.queue ∨ ∃ p, s.peers.get b = some p)
    (hd : s'.dropping = s.dropping) : s'.Tracked cfg := by
  refine ⟨hp ▸ h.keyed, ?_, ?_, hd.trans h.dropping⟩
  · intro b p hb hst hacc
    rw [hp] at hb
    exact hwaits b p hb hst hacc (h.queued b p hb hst hacc)
  · intro b hb
    rw [hp]
    rcases hqueue b hb with hb | hb
    · exact h.entries b hb
    · exact hb

/-- The addresses wait while one more is on its way to the queue. -/
theorem Waits.send {ps : PeerStates} {x b : PeerHandle} (h : s.Waits b) :
    Waits { s with peers := ps, sending := s.sending ++ [x] } b := by
  rcases h with h | h | h | h
  · exact Or.inl h
  · exact Or.inr (Or.inl h)
  · exact Or.inr (Or.inr (Or.inl h))
  · exact Or.inr (Or.inr (Or.inr (List.mem_append_left _ h)))

theorem waits_sent (s : Swarm) (ps : PeerStates) (a : PeerHandle) :
    Waits { s with peers := ps, sending := s.sending ++ [a] } a :=
  Or.inr (Or.inr (Or.inr (List.mem_append_right _ (List.mem_singleton_self a))))

theorem Tracked.addPeerIfNotSeen (h : s.Tracked cfg)
    (hs : s.step cfg (.addPeerIfNotSeen a) = some s') : s'.Tracked cfg := by
  obtain ⟨ps, hps, rfl⟩ := Option.map_eq_some_iff.1 hs
  obtain ⟨-, hr⟩ := PeerStates.addIfNotSeen_spec hps
  exact h.replaced hr rfl (fun _ _ => waits_sent s ps a) (fun _ _ hb => hb.send) rfl rfl

theorem Tracked.trySend {k : ℕ} (h : s.Tracked cfg) (hok : s.KeepsQueue cfg (.trySend k))
    (hs : s.step cfg (.trySend k) = some s') : s'.Tracked cfg := by
  obtain ⟨a, ha, rfl⟩ := Option.map_eq_some_iff.1 hs
  obtain ⟨hroom, hentry⟩ := hok
  rw [if_pos hroom]
  refine h.unchanged rfl ?_ ?_ rfl
  · intro b p _ _ _ hb
    rcases hb with hb | hb | hb | hb
    · exact Or.inl (List.mem_append_left _ hb)
    · exact Or.inr (Or.inl hb)
    · exact Or.inr (Or.inr (Or.inl hb))
    · by_cases hba : b = a
      · exact Or.inl (List.mem_append_right _ (List.mem_singleton.2 hba))
      · exact Or.inr (Or.inr (Or.inr (mem_eraseIdx_of_ne ha hb hba)))
  · intro b hb
    rcases List.mem_append.1 hb with hb | hb
    · exact Or.inl hb
    · obtain rfl := List.mem_singleton.1 hb
      exact Or.inr (Option.isSome_iff_exists.1 (hentry b ha))

theorem Tracked.adderReceive (h : s.Tracked cfg) (hs : s.step cfg .adderReceive = some s') :
    s'.Tracked cfg := by
  simp only [Swarm.step] at hs
  split at hs
  · rename_i a queue hadder hqueue
    obtain rfl := Option.some.inj hs
    refine h.unchanged rfl ?_ ?_ rfl
    · intro b p _ _ _ hb
      rcases hb with hb | hb | hb | hb
      · rw [hqueue] at hb
        rcases List.mem_cons.1 hb with rfl | hb
        · exact Or.inr (Or.inl rfl)
        · exact Or.inl hb
      · rw [hadder] at hb
        cases hb
      · exact Or.inr (Or.inr (Or.inl hb))
      · exact Or.inr (Or.inr (Or.inr hb))
    · intro b hb
      rw [hqueue]
      exact Or.inl (List.mem_cons_of_mem a hb)
  · cases hs

/-- The adder is done with its address, for which `b` does not stand. -/
theorem Waits.adderDone {b : PeerHandle} {ps : PeerStates} (h : s.Waits b)
    (hb : s.adder ≠ some b) : Waits { s with peers := ps, adder := none } b := by
  rcases h with h | h | h | h
  · exact Or.inl h
  · exact absurd h hb
  · exact Or.inr (Or.inr (Or.inl h))
  · exact Or.inr (Or.inr (Or.inr h))

theorem Tracked.adderNotNeeded (h : s.Tracked cfg) (hs : s.step cfg .adderNotNeeded = some s') :
    s'.Tracked cfg := by
  obtain ⟨a, ha, hs⟩ := Option.bind_eq_some_iff.1 hs
  split_ifs at hs
  obtain rfl := Option.some.inj hs
  cases hps : s.peers.markPeerNotNeeded a with
  | none =>
    have hnone := PeerStates.markPeerNotNeeded_none hps
    refine h.unchanged rfl ?_ (fun _ hb => Or.inl hb) rfl
    intro b p hp _ _ hb
    refine hb.adderDone ?_
    rw [ha]
    rintro ⟨rfl⟩
    rw [hnone] at hp
    cases hp
  | some ps =>
    obtain ⟨p, hmoved⟩ := PeerStates.markPeerNotNeeded_spec hps
    refine h.moved hmoved (fun hnew => by cases hnew) ?_ rfl rfl
    intro b hne hb
    refine hb.adderDone ?_
    rw [ha]
    rintro ⟨rfl⟩
    exact hne rfl

theorem Tracked.adderSkip (h : s.Tracked cfg) (hs : s.step cfg .adderSkip = some s') :
    s'.Tracked cfg := by
  obtain ⟨a, ha, hs⟩ := Option.bind_eq_some_iff.1 hs
  split_ifs at hs with hacc
  obtain rfl := Option.some.inj hs
  refine h.unchanged rfl ?_ (fun _ hb => Or.inl hb) rfl
  intro b p _ _ hb hw
  refine hw.adderDone ?_
  rw [ha]
  rintro ⟨rfl⟩
  exact hacc hb

theorem Tracked.adderSpawn (h : s.Tracked cfg) (hs : s.step cfg .adderSpawn = some s') :
    s'.Tracked cfg := by
  obtain ⟨a, ha, hs⟩ := Option.bind_eq_some_iff.1 hs
  split_ifs at hs
  obtain rfl := Option.some.inj hs
  refine h.unchanged rfl ?_ (fun _ hb => Or.inl hb) rfl
  intro b p _ _ _ hb
  rcases hb with hb | hb | hb | hb
  · exact Or.inl hb
  · rw [ha] at hb
    obtain rfl := Option.some.inj hb
    exact Or.inr (Or.inr (Or.inl (List.mem_append_right _ (List.mem_singleton_self a))))
  · exact Or.inr (Or.inr (Or.inl (List.mem_append_left _ hb)))
  · exact Or.inr (Or.inr (Or.inr hb))

theorem Tracked.markPeerConnecting {k : ℕ} (h : s.Tracked cfg)
    (hs : s.step cfg (.markPeerConnecting k) = some s') : s'.Tracked cfg := by
  obtain ⟨a, ha, rfl⟩ := Option.map_eq_some_iff.1 hs
  have hwaits (b : PeerHandle) (hne : b ≠ a) (hb : s.Waits b) : b ∈ s.queue ∨ s.adder = some b ∨
      b ∈ s.starting.eraseIdx k ∨ b ∈ s.sending := by
    rcases hb with hb | hb | hb | hb
    · exact Or.inl hb
    · exact Or.inr (Or.inl hb)
    · exact Or.inr (Or.inr (Or.inl (mem_eraseIdx_of_ne ha hb hne)))
    · exact Or.inr (Or.inr (Or.inr hb))
  dsimp only
  split
  · rename_i hps
    refine h.unchanged rfl ?_ (fun _ hb => Or.inl hb) rfl
    intro b p hp hst _ hb
    refine hwaits b ?_ hb
    rintro rfl
    exact PeerStates.markPeerConnecting_none hps hp hst
  · rename_i ps hps
    obtain ⟨p, hmoved, -⟩ := PeerStates.markPeerConnecting_spec hps
    exact h.moved hmoved (fun hnew => by cases hnew) hwaits rfl rfl

theorem Tracked.deadToQueued {ps : PeerStates} (h : s.Tracked cfg)
    (hps : s.peers.deadToQueued a = some ps) :
    Tracked cfg { s with peers := ps, sending := s.sending ++ [a] } := by
  obtain ⟨p, -, hmoved⟩ := PeerStates.deadToQueued_spec hps
  exact h.moved hmoved (fun _ _ => waits_sent s ps a) (fun _ _ hb => hb.send) rfl rfl

theorem Tracked.reconnectNotNeeded (h : s.Tracked cfg)
    (hs : s.step cfg (.reconnectNotNeeded a) = some s') : s'.Tracked cfg := by
  obtain ⟨⟨x, ps⟩, hps, rfl⟩ := Option.map_eq_some_iff.1 hs
  obtain ⟨p, r, hst, -, ⟨haddr, hmoved⟩ | ⟨-, hp, hr⟩⟩ := PeerStates.reconnectNotNeeded_spec hps
  · obtain rfl : a = x := (h.keyed a p hmoved.before).symm.trans haddr
    exact h.moved hmoved (fun _ _ => waits_sent s ps a) (fun _ _ hb => hb.send) rfl rfl
  · refine h.replaced hr (h.keyed a p hp) ?_ (fun _ _ hb => hb.send) rfl rfl
    intro hqueued
    rw [hst] at hqueued
    cases hqueued

theorem Tracked.onPeerDied {i : ℕ} {error finished : Bool} (h : s.Tracked cfg)
    (hok : s.KeepsQueue cfg (.onPeerDied i error finished))
    (hs : s.step cfg (.onPeerDied i error finished) = some s') : s'.Tracked cfg := by
  obtain ⟨t, ht, rfl⟩ := Option.map_eq_some_iff.1 hs
  have hnew {p : Peer} {new : PeerState} {after : AfterDeath} (hp : s.peers.get t.addr = some p)
      (hdied : Peer.Died true p.state new after) : new ≠ .queued := by
    rintro rfl
    obtain ⟨hq, hd⟩ := hok t ht p hp
    rcases hdied.nothing_to_close (Or.inl rfl) with hst | hst
    · exact hq hst
    · exact hd hst
  unfold Swarm.onPeerDied
  split
  · exact h.unchanged rfl (fun _ _ _ _ _ hb => hb) (fun _ hb => Or.inl hb) rfl
  all_goals
    rename_i ps hps
    obtain ⟨p, new, hmoved, hdied⟩ := PeerStates.onPeerDied_spec hps
  · exact h.moved hmoved (fun hq => absurd hq (hnew hmoved.before hdied)) (fun _ _ hb => hb) rfl rfl
  · exact h.moved hmoved (fun hq => absurd hq (hnew hmoved.before hdied)) (fun _ _ hb => hb) rfl rfl
  · -- there is nothing to drop
    obtain ⟨hq, hd⟩ := hok t ht p hmoved.before
    rcases hdied.nothing_to_close (Or.inr rfl) with hst | hst
    · exact absurd hst hq
    · exact absurd hst hd

theorem Tracked.pruneDeadPeer (h : s.Tracked cfg) (hok : s.KeepsQueue cfg (.pruneDeadPeer a))
    (hs : s.step cfg (.pruneDeadPeer a) = some s') : s'.Tracked cfg := by
  obtain ⟨ps, hps, rfl⟩ := Option.map_eq_some_iff.1 hs
  obtain ⟨p, -, -, hr⟩ := PeerStates.pruneDeadPeer_spec hps
  have hother {b : PeerHandle} {q : Peer} (hb : ps.get b = some q) : s.peers.get b = some q := by
    rw [← hr.other b]
    · exact hb
    · rintro rfl
      rw [hr.entry] at hb
      cases hb
  refine ⟨fun b q hb => h.keyed b q (hother hb), fun b q hb => h.queued b q (hother hb), ?_,
    h.dropping⟩
  intro b hb
  rw [hr.other b fun he => hok (he ▸ hb)]
  exact h.entries b hb

theorem Tracked.step {op : SwarmOp} (h : s.Tracked cfg) (hok : s.KeepsQueue cfg op)
    (hs : s.step cfg op = some s') : s'.Tracked cfg := by
  cases op with
  | addPeerIfNotSeen a => exact h.addPeerIfNotSeen hs
  | addIncomingPeer a kind =>
    obtain ⟨ps, hps, rfl⟩ := Option.map_eq_some_iff.1 hs
    rcases PeerStates.addIncomingPeer_spec hps with ⟨-, hr⟩ | ⟨p, hmoved, -⟩
    · exact h.replaced hr rfl (fun hq => by cases hq) (fun _ _ hb => hb) rfl rfl
    · exact h.moved hmoved (fun hq => by cases hq) (fun _ _ hb => hb) rfl rfl
  | trySend k => exact h.trySend hok hs
  | adderReceive => exact h.adderReceive hs
  | adderNotNeeded => exact h.adderNotNeeded hs
  | adderSkip => exact h.adderSkip hs
  | adderSpawn => exact h.adderSpawn hs
  | markPeerConnecting k => exact h.markPeerConnecting hs
  | onConnected i =>
    obtain ⟨t, -, hs⟩ := Option.bind_eq_some_iff.1 hs
    split_ifs at hs
    obtain ⟨ps, hps, rfl⟩ := Option.map_eq_some_iff.1 hs
    obtain ⟨p, hp, hr⟩ := PeerStates.onConnected_spec hps
    exact h.replaced hr (h.keyed _ p hp) (fun hq hacc => h.queued _ p hp hq hacc)
      (fun _ _ hb => hb) rfl rfl
  | onHandshake i kind =>
    obtain ⟨t, -, hs⟩ := Option.bind_eq_some_iff.1 hs
    obtain ⟨ps, hps, rfl⟩ := Option.map_eq_some_iff.1 hs
    obtain ⟨p, tx, -, hmoved⟩ := PeerStates.setPeerLive_spec hps
    exact h.moved hmoved (fun hq => by cases hq) (fun _ _ hb => hb) rfl rfl
  | updateBitfield i b =>
    obtain ⟨t, -, hs⟩ := Option.bind_eq_some_iff.1 hs
    obtain ⟨ps, hps, rfl⟩ := Option.map_eq_some_iff.1 hs
    obtain ⟨p, l, hp, -, hr⟩ := PeerStates.updateBitfield_spec hps
    exact h.replaced hr (h.keyed _ p hp) (fun hq => by cases hq) (fun _ _ hb => hb) rfl rfl
  | onExtendedHandshake i ip port =>
    obtain ⟨t, -, hs⟩ := Option.bind_eq_some_iff.1 hs
    split_ifs at hs
    obtain ⟨ps, hps, rfl⟩ := Option.map_eq_some_iff.1 hs
    obtain ⟨p, hp, hr⟩ := PeerStates.updateOutgoingAddr_spec hps
    exact h.replaced hr (h.keyed _ p hp) (fun hq hacc => h.queued _ p hp hq hacc)
      (fun _ _ hb => hb) rfl rfl
  | disconnectFull a =>
    obtain ⟨ps, hps, rfl⟩ := Option.map_eq_some_iff.1 hs
    obtain ⟨p, hmoved⟩ := PeerStates.disconnectFull_spec hps
    exact h.moved hmoved (fun hq => by cases hq) (fun _ _ hb => hb) rfl rfl
  | reconnectNotNeeded a => exact h.reconnectNotNeeded hs
  | requeueDead a =>
    obtain ⟨ps, hps, rfl⟩ := Option.map_eq_some_iff.1 hs
    exact h.deadToQueued hps
  | onPeerDied i error finished => exact h.onPeerDied hok hs
  | dropPeer k =>
    obtain ⟨a, ha, -⟩ := Option.map_eq_some_iff.1 hs
    simp [h.dropping] at ha
  | waitForPeer k =>
    obtain ⟨a, -, rfl⟩ := Option.map_eq_some_iff.1 hs
    have hwait : Tracked cfg { s with waiting := s.waiting.eraseIdx k } :=
      h.unchanged rfl (fun _ _ _ _ _ hb => hb) (fun _ hb => Or.inl hb) rfl
    dsimp only
    split
    · exact hwait
    · rename_i ps hps
      exact hwait.deadToQueued hps
  | pruneDeadPeer a => exact h.pruneDeadPeer hok hs

theorem start_tracked (cfg : Config) : start.Tracked cfg := by
  have hnone (a : PeerHandle) (p : Peer) (h : start.peers.get a = some p) : False := by cases h
  exact ⟨fun a p h => (hnone a p h).elim, fun a p h => (hnone a p h).elim,
    fun a h => absurd h List.not_mem_nil, rfl⟩

/-- In every run with these conditions, a queued peer that the adder accepts is in the queue or
with its sender, the adder or a task that starts, and what is in the queue has an entry; between
the calls that queue peers, the property is as it should be. -/
theorem keepsQueue_queued {ops : List SwarmOp}
    (hr : Run (step cfg) (KeepsQueue cfg) start ops s) :
    s.Tracked cfg ∧ (s.sending = [] → s.ReallyQueued cfg) := by
  have h : s.Tracked cfg :=
    hr.inv (Tracked cfg) (start_tracked cfg) fun _ _ _ h hok hs => h.step hok hs
  refine ⟨h, fun hsend => ⟨?_, h.entries⟩⟩
  intro a p hp hst hacc
  rcases h.queued a p hp hst hacc with hw | hw | hw | hw
  · exact Or.inl hw
  · exact Or.inr (Or.inl hw)
  · exact Or.inr (Or.inr hw)
  · rw [hsend] at hw
    cases hw

/-- A connection fails, and the peer is queued again. -/
def retryOps : List SwarmOp :=
  [.addPeerIfNotSeen seeder, .trySend 0, .adderReceive, .adderSpawn, .markPeerConnecting 0,
    .onPeerDied 0 true false, .waitForPeer 0, .trySend 0]

theorem retry_queued : ∃ s, Run (step onePiece) (KeepsQueue onePiece) start retryOps s ∧
    (s.peers.get seeder).map Peer.state = some .queued ∧ s.ReallyQueued onePiece := by
  have hex : (exec (step onePiece) (KeepsQueue onePiece) start retryOps).any (fun s =>
      decide ((s.peers.get seeder).map Peer.state = some .queued) &&
        decide (s.sending = [])) = true := by
    decide +kernel
  obtain ⟨s, hr, hq⟩ := Run.exists_of_exec hex
  simp only [Bool.and_eq_true, decide_eq_true_eq] at hq
  exact ⟨s, hr, hq.1, (keepsQueue_queued hr).2 hq.2⟩

/-- A queue of one address. -/
def shortQueue : Config := ⟨1, false, ⟨false, fun _ => false, none⟩, 1⟩

/-- The second address finds the queue full. -/
def fullQueueOps : List SwarmOp :=
  [.addPeerIfNotSeen seeder, .trySend 0, .addPeerIfNotSeen leecher, .trySend 0]

/-- A peer that has connected to us says that it listens on another port, and we disconnect;
then files are selected. -/
def otherPortOps : List SwarmOp :=
  [.addIncomingPeer leecher .tcp, .onExtendedHandshake 0 none 6881, .onPeerDied 0 false false,
    .reconnectNotNeeded leecher, .trySend 0]

/-- A peer stays queued without being in the queue; and the queue has an address without an
entry. -/
theorem queued_not_in_queue :
    (∃ s, Run (step shortQueue) Any start fullQueueOps s ∧ s.sending = [] ∧
      (s.peers.get leecher).map Peer.state = some .queued ∧ s.queue = [seeder] ∧
        s.adder = none ∧ s.starting = [] ∧ ¬s.ReallyQueued shortQueue) ∧
    ∃ s, Run (step onePiece) Any start otherPortOps s ∧ s.sending = [] ∧
      s.queue = [⟨leecher.ip, 6881⟩] ∧ s.peers.get ⟨leecher.ip, 6881⟩ = none ∧
        ¬s.ReallyQueued onePiece := by
  constructor
  · have hex : (exec (step shortQueue) Any start fullQueueOps).any (fun s =>
        decide (s.sending = [] ∧ (s.peers.get leecher).map Peer.state = some .queued ∧
          s.queue = [seeder] ∧ s.adder = none ∧ s.starting = [])) = true := by
      decide +kernel
    obtain ⟨s, hr, hq⟩ := Run.exists_of_exec hex
    obtain ⟨hsend, hst, hqueue, hadder, hstart⟩ := of_decide_eq_true hq
    refine ⟨s, hr, hsend, hst, hqueue, hadder, hstart, ?_⟩
    intro h
    obtain ⟨p, hp, hqueued⟩ := Option.map_eq_some_iff.1 hst
    have hw := h.queued leecher p hp hqueued (by decide)
    rw [hqueue, hadder, hstart] at hw
    exact absurd hw (by decide)
  · have hex : (exec (step onePiece) Any start otherPortOps).any (fun s =>
        decide (s.sending = [] ∧ s.queue = [⟨leecher.ip, 6881⟩]) &&
          (s.peers.get ⟨leecher.ip, 6881⟩).isNone) = true := by
      decide +kernel
    obtain ⟨s, hr, hq⟩ := Run.exists_of_exec hex
    rw [Bool.and_eq_true, decide_eq_true_eq, Option.isNone_iff_eq_none] at hq
    obtain ⟨⟨hsend, hqueue⟩, hnone⟩ := hq
    refine ⟨s, hr, hsend, hqueue, hnone, ?_⟩
    intro h
    obtain ⟨p, hp⟩ := h.entries _ (by rw [hqueue]; exact List.mem_singleton_self _)
    rw [hnone] at hp
    cases hp

end Swarm

end Rtbit.Peers
