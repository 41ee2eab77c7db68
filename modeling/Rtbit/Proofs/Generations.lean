import Rtbit.Sanity.Swarm

/-! Connection generations. A manage-peer task that ends finds in the peer map its own state, or
the `NotNeeded` that replaced it, provided that no attempt on an address begins while a task for
the address is still running. -/

namespace Rtbit.Peers

open Lib

/-- When the task `t` calls `on_peer_died`, it finds its own state, the `NotNeeded` that replaced
it, or no entry. -/
def PeerStates.Own (ps : PeerStates) (t : ManagePeer) : Prop :=
  ∀ p, ps.get t.addr = some p → p.state.task = some t.tx

section Own

variable {ps ps' : PeerStates} {a : PeerHandle} {p q : Peer} {e : Option Peer}
  {lo : Finset PeerHandle} {t : ManagePeer}

theorem PeerStates.Own.other (h : ps.Own t) (hr : ps.Replaced a e lo ps') (hne : t.addr ≠ a) :
    ps'.Own t := by
  intro p hp
  rw [hr.other _ hne] at hp
  exact h p hp

/-- The new state belongs to the same task as the old one. -/
theorem PeerStates.Own.same (h : ps.Own t) (hr : ps.Replaced a (some q) lo ps')
    (hp : ps.get a = some p) (hq : q.state.task = p.state.task) : ps'.Own t := by
  by_cases ht : t.addr = a
  · intro p' hp'
    rw [ht, hr.entry] at hp'
    obtain rfl := Option.some.inj hp'
    rw [hq]
    exact h p (by rw [ht]; exact hp)
  · exact h.other hr ht

theorem PeerStates.Own.removed (h : ps.Own t) (hr : ps.Replaced a none lo ps') : ps'.Own t := by
  by_cases ht : t.addr = a
  · intro p' hp'
    rw [ht, hr.entry] at hp'
    cases hp'
  · exact h.other hr ht

/-- A dead peer has no task. -/
theorem PeerStates.Own.deadToQueued (h : ps.Own t) (hps : ps.deadToQueued a = some ps') :
    ps'.Own t := by
  obtain ⟨p, hst, hmoved⟩ := PeerStates.deadToQueued_spec hps
  refine h.other hmoved.after ?_
  intro ht
  have htask := h p (by rw [ht]; exact hmoved.before)
  rw [hst] at htask
  cases htask

end Own

namespace Swarm

/-- No manage-peer task for `a` is running. -/
def Idle (s : Swarm) (a : PeerHandle) : Prop := ∀ t ∈ s.tasks, t.addr ≠ a

instance (s : Swarm) (a : PeerHandle) : Decidable (s.Idle a) :=
  inferInstanceAs (Decidable (∀ t ∈ s.tasks, t.addr ≠ a))

/-- A step that begins an attempt on an address finds no task for it. -/
def StartsIdle (s : Swarm) : SwarmOp → Prop
  | .addPeerIfNotSeen a => s.Idle a
  | .addIncomingPeer a _ => s.Idle a
  | .markPeerConnecting k => ∀ a ∈ s.starting[k]?,
      (s.peers.markPeerConnecting a s.nextTx).isSome = true → s.Idle a
  | .reconnectNotNeeded a => ∀ p ∈ s.peers.get a, p.outgoingAddress = some p.addr → s.Idle a
  | _ => True

instance (s : Swarm) : (op : SwarmOp) → Decidable (s.StartsIdle op)
  | .addPeerIfNotSeen a => inferInstanceAs (Decidable (s.Idle a))
  | .addIncomingPeer a _ => inferInstanceAs (Decidable (s.Idle a))
  | .markPeerConnecting k => inferInstanceAs (Decidable (∀ a ∈ s.starting[k]?,
      (s.peers.markPeerConnecting a s.nextTx).isSome = true → s.Idle a))
  | .reconnectNotNeeded a => inferInstanceAs (Decidable (∀ p ∈ s.peers.get a,
      p.outgoingAddress = some p.addr → s.Idle a))
  | .trySend _ | .adderReceive | .adderNotNeeded | .adderSkip | .adderSpawn | .onConnected _
  | .onHandshake _ _ | .updateBitfield _ _ | .onExtendedHandshake _ _ _ | .disconnectFull _
  | .requeueDead _ | .onPeerDied _ _ _ | .dropPeer _ | .waitForPeer _ | .pruneDeadPeer _ =>
    isTrue trivial

structure Generations (s : Swarm) : Prop where
  nodup : (s.tasks.map ManagePeer.addr).Nodup
  own : ∀ t ∈ s.tasks, s.peers.Own t
  dropping : s.dropping = []

variable {cfg : Config} {s s' : Swarm} {ps : PeerStates} {a : PeerHandle} {p q : Peer}
  {lo : Finset PeerHandle}

/-- The peer map and fields that do not matter have changed. -/
theorem Generations.peers (h : s.Generations) (hown : ∀ t ∈ s.tasks, s.peers.Own t → s'.peers.Own t)
    (ht : s'.tasks = s.tasks) (hd : s'.dropping = s.dropping) : s'.Generations := by
  refine ⟨ht ▸ h.nodup, ?_, hd.trans h.dropping⟩
  intro t hmem
  rw [ht] at hmem
  exact hown t hmem (h.own t hmem)

theorem Generations.spawn {incoming : Bool} (h : s.Generations) (hidle : s.Idle a)
    (hr : s.peers.Replaced a (some q) lo ps) (hq : q.state.task = some s.nextTx) :
    (s.spawn ps a incoming).Generations := by
  have htasks : (s.spawn ps a incoming).tasks =
      s.tasks ++ [⟨a, s.nextTx, incoming, q.counters⟩] := by
    rw [Swarm.spawn, hr.entry]
    rfl
  refine ⟨?_, ?_, h.dropping⟩
  · rw [htasks, List.map_append, List.map_singleton, List.nodup_append]
    refine ⟨h.nodup, List.nodup_singleton a, ?_⟩
    intro x hx y hy
    obtain ⟨t, ht, rfl⟩ := List.mem_map.1 hx
    obtain rfl := List.mem_singleton.1 hy
    exact hidle t ht
  · intro t ht
    rw [htasks] at ht
    rcases List.mem_append.1 ht with ht | ht
    · exact (h.own t ht).other hr (hidle t ht)
    · obtain rfl := List.mem_singleton.1 ht
      intro p hp
      have hp' : ps.get a = some p := hp
      rw [hr.entry] at hp'
      obtain rfl := Option.some.inj hp'
      exact hq

/-- The other tasks are for other addresses. -/
theorem Generations.erase {i : ℕ} {t : ManagePeer} (h : s.Generations)
    (ht : s.tasks[i]? = some t) : ∀ u ∈ s.tasks.eraseIdx i, u.addr ≠ t.addr := by
  intro u hu he
  obtain ⟨j, hji, hj⟩ := List.mem_eraseIdx_iff_getElem?.1 hu
  have hmap : (s.tasks.map ManagePeer.addr)[j]? = (s.tasks.map ManagePeer.addr)[i]? := by
    rw [List.getElem?_map, List.getElem?_map, hj, ht, Option.map_some, Option.map_some, he]
  have hlt : j < (s.tasks.map ManagePeer.addr).length := by
    rw [List.length_map]
    exact (List.getElem?_eq_some_iff.1 hj).1
  exact hji ((List.getElem?_inj hlt h.nodup).1 hmap)

theorem Generations.onPeerDied {i : ℕ} {t : ManagePeer} (error finished : Bool) (h : s.Generations)
    (ht : s.tasks[i]? = some t) :
    ({ s with tasks := s.tasks.eraseIdx i }.onPeerDied t error finished).Generations := by
  have hnodup : ((s.tasks.eraseIdx i).map ManagePeer.addr).Nodup :=
    h.nodup.sublist ((List.eraseIdx_sublist s.tasks i).map _)
  have hmem (u) (hu : u ∈ s.tasks.eraseIdx i) : s.peers.Own u :=
    h.own u (List.mem_of_mem_eraseIdx hu)
  unfold Swarm.onPeerDied
  split
  · exact ⟨hnodup, hmem, h.dropping⟩
  all_goals
    rename_i ps hps
    obtain ⟨p, new, hmoved, hdied⟩ := PeerStates.onPeerDied_spec hps
    have hown : ∀ u ∈ s.tasks.eraseIdx i, ps.Own u := fun u hu =>
      (hmem u hu).other hmoved.after (h.erase ht u hu)
  · exact ⟨hnodup, hown, h.dropping⟩
  · exact ⟨hnodup, hown, h.dropping⟩
  · -- the state is the task's own, so it is neither `Queued` nor `Dead`
    have htask := h.own t (List.mem_of_getElem? ht) p hmoved.before
    rcases hdied.nothing_to_close (Or.inr rfl) with hst | hst
    · rw [hst] at htask
      cases htask
    · rw [hst] at htask
      cases htask

theorem Generations.step {op : SwarmOp} (h : s.Generations) (hok : s.StartsIdle op)
    (hs : s.step cfg op = some s') : s'.Generations := by
  cases op with
  | addPeerIfNotSeen a =>
    obtain ⟨ps, hps, rfl⟩ := Option.map_eq_some_iff.1 hs
    obtain ⟨-, hr⟩ := PeerStates.addIfNotSeen_spec hps
    exact h.peers (fun t ht hown => hown.other hr (hok t ht)) rfl rfl
  | addIncomingPeer a kind =>
    obtain ⟨ps, hps, rfl⟩ := Option.map_eq_some_iff.1 hs
    rcases PeerStates.addIncomingPeer_spec hps with ⟨-, hr⟩ | ⟨p, hmoved, -⟩
    · exact h.spawn hok hr rfl
    · exact h.spawn hok hmoved.after rfl
  | trySend k =>
    obtain ⟨a, -, rfl⟩ := Option.map_eq_some_iff.1 hs
    exact h.peers (fun _ _ hown => hown) rfl rfl
  | adderReceive =>
    simp only [Swarm.step] at hs
    split at hs
    · obtain rfl := Option.some.inj hs
      exact h.peers (fun _ _ hown => hown) rfl rfl
    · cases hs
  | adderNotNeeded =>
    obtain ⟨a, -, hs⟩ := Option.bind_eq_some_iff.1 hs
    split_ifs at hs
    obtain rfl := Option.some.inj hs
    refine h.peers (fun t _ hown => ?_) rfl rfl
    cases hps : s.peers.markPeerNotNeeded a with
    | none => simpa [hps] using hown
    | some ps =>
      obtain ⟨p, hmoved⟩ := PeerStates.markPeerNotNeeded_spec hps
      exact hown.same hmoved.after hmoved.before rfl
  | adderSkip =>
    obtain ⟨a, -, hs⟩ := Option.bind_eq_some_iff.1 hs
    split_ifs at hs
    obtain rfl := Option.some.inj hs
    exact h.peers (fun _ _ hown => hown) rfl rfl
  | adderSpawn =>
    obtain ⟨a, -, hs⟩ := Option.bind_eq_some_iff.1 hs
    split_ifs at hs
    obtain rfl := Option.some.inj hs
    exact h.peers (fun _ _ hown => hown) rfl rfl
  | markPeerConnecting k =>
    obtain ⟨a, ha, rfl⟩ := Option.map_eq_some_iff.1 hs
    have hstart : Generations { s with starting := s.starting.eraseIdx k } :=
      h.peers (fun _ _ hown => hown) rfl rfl
    dsimp only
    split
    · exact hstart
    · rename_i ps hps
      have hidle : s.Idle a := hok a ha (by rw [hps]; rfl)
      obtain ⟨p, hmoved, -⟩ := PeerStates.markPeerConnecting_spec hps
      exact hstart.spawn hidle hmoved.after rfl
  | onConnected i =>
    obtain ⟨t, -, hs⟩ := Option.bind_eq_some_iff.1 hs
    split_ifs at hs
    obtain ⟨ps, hps, rfl⟩ := Option.map_eq_some_iff.1 hs
    obtain ⟨p, hp, hr⟩ := PeerStates.onConnected_spec hps
    exact h.peers (fun _ _ hown => hown.same hr hp rfl) rfl rfl
  | onHandshake i kind =>
    obtain ⟨t, -, hs⟩ := Option.bind_eq_some_iff.1 hs
    obtain ⟨ps, hps, rfl⟩ := Option.map_eq_some_iff.1 hs
    obtain ⟨p, tx, hst, hmoved⟩ := PeerStates.setPeerLive_spec hps
    exact h.peers (fun _ _ hown => hown.same hmoved.after hmoved.before (by rw [hst]; rfl)) rfl rfl
  | updateBitfield i b =>
    obtain ⟨t, -, hs⟩ := Option.bind_eq_some_iff.1 hs
    obtain ⟨ps, hps, rfl⟩ := Option.map_eq_some_iff.1 hs
    obtain ⟨p, l, hp, hst, hr⟩ := PeerStates.updateBitfield_spec hps
    exact h.peers (fun _ _ hown => hown.same hr hp (by rw [hst]; rfl)) rfl rfl
  | onExtendedHandshake i ip port =>
    obtain ⟨t, -, hs⟩ := Option.bind_eq_some_iff.1 hs
    split_ifs at hs
    obtain ⟨ps, hps, rfl⟩ := Option.map_eq_some_iff.1 hs
    obtain ⟨p, hp, hr⟩ := PeerStates.updateOutgoingAddr_spec hps
    exact h.peers (fun _ _ hown => hown.same hr hp rfl) rfl rfl
  | disconnectFull a =>
    obtain ⟨ps, hps, rfl⟩ := Option.map_eq_some_iff.1 hs
    obtain ⟨p, hmoved⟩ := PeerStates.disconnectFull_spec hps
    exact h.peers (fun _ _ hown => hown.same hmoved.after hmoved.before rfl) rfl rfl
  | reconnectNotNeeded a =>
    obtain ⟨⟨x, ps⟩, hps, rfl⟩ := Option.map_eq_some_iff.1 hs
    obtain ⟨p, r, -, hout, ⟨rfl, hmoved⟩ | ⟨-, hp, hr⟩⟩ := PeerStates.reconnectNotNeeded_spec hps
    · have hidle : s.Idle a := hok p hmoved.before hout
      exact h.peers (fun t ht hown => hown.other hmoved.after (hidle t ht)) rfl rfl
    · exact h.peers (fun _ _ hown => hown.same hr hp rfl) rfl rfl
  | requeueDead a =>
    obtain ⟨ps, hps, rfl⟩ := Option.map_eq_some_iff.1 hs
    exact h.peers (fun t _ hown => hown.deadToQueued hps) rfl rfl
  | onPeerDied i error finished =>
    obtain ⟨t, ht, rfl⟩ := Option.map_eq_some_iff.1 hs
    exact h.onPeerDied error finished ht
  | dropPeer k =>
    obtain ⟨a, ha, -⟩ := Option.map_eq_some_iff.1 hs
    simp [h.dropping] at ha
  | waitForPeer k =>
    obtain ⟨a, -, rfl⟩ := Option.map_eq_some_iff.1 hs
    dsimp only
    split
    · exact h.peers (fun _ _ hown => hown) rfl rfl
    · rename_i ps hps
      exact h.peers (fun t _ hown => hown.deadToQueued hps) rfl rfl
  | pruneDeadPeer a =>
    obtain ⟨ps, hps, rfl⟩ := Option.map_eq_some_iff.1 hs
    obtain ⟨p, -, -, hr⟩ := PeerStates.pruneDeadPeer_spec hps
    exact h.peers (fun _ _ hown => hown.removed hr) rfl rfl

theorem start_generations : start.Generations :=
  ⟨List.nodup_nil, fun _ ht => absurd ht List.not_mem_nil, rfl⟩

/-- In every run in which an attempt on an address only begins when no task for the address is
running, a task that ends finds its own state, the `NotNeeded` that replaced it, or no entry. -/
theorem startsIdle_generations {ops : List SwarmOp} (hr : Run (step cfg) StartsIdle start ops s) :
    (∀ t ∈ s.tasks, s.peers.Own t) ∧ s.dropping = [] := by
  have hgen : s.Generations :=
    hr.inv Generations start_generations fun _ _ _ h hok hs => h.step hok hs
  exact ⟨hgen.own, hgen.dropping⟩

theorem connect_generations : ∃ s t, Run (step onePiece) StartsIdle start connectOps s ∧
    t ∈ s.tasks ∧ s.peers.Own t := by
  have hex : (exec (step onePiece) StartsIdle start connectOps).any
      (fun s => decide (⟨seeder, 0, false, 0⟩ ∈ s.tasks)) = true := by
    decide +kernel
  obtain ⟨s, hr, ht⟩ := Run.exists_of_exec hex
  have hmem := of_decide_eq_true ht
  exact ⟨s, _, hr, hmem, (startsIdle_generations hr).1 _ hmem⟩

/-- Our last piece completes, and we disconnect it; before its task has ended, files are
selected and it is queued again. -/
def requeueOps : List SwarmOp :=
  connectOps ++ [.disconnectFull seeder, .reconnectNotNeeded seeder, .trySend 0]

/-- The task of the first connection then finds the `Queued` of the second attempt, and the peer
is forgotten. -/
theorem requeued_peer_dropped : ∃ s t, Run (step onePiece) Any start requeueOps s ∧ t ∈ s.tasks ∧
    t.addr = seeder ∧ (s.peers.get seeder).map Peer.state = some .queued ∧ ¬s.peers.Own t ∧
      ∃ s', Run (step onePiece) Any s [.onPeerDied 0 false false, .dropPeer 0] s' ∧
        s'.peers.get seeder = none := by
  have hex : (exec (step onePiece) Any start requeueOps).any (fun s =>
      decide (⟨seeder, 0, false, 0⟩ ∈ s.tasks) &&
        decide ((s.peers.get seeder).map Peer.state = some .queued) &&
        (exec (step onePiece) Any s [.onPeerDied 0 false false, .dropPeer 0]).any fun s' =>
          (s'.peers.get seeder).isNone) = true := by
    decide +kernel
  obtain ⟨s, hr, hq⟩ := Run.exists_of_exec hex
  simp only [Bool.and_eq_true, decide_eq_true_eq] at hq
  obtain ⟨⟨ht, hst⟩, hend⟩ := hq
  obtain ⟨s', hr', hnone⟩ := Run.exists_of_exec hend
  refine ⟨s, _, hr, ht, rfl, hst, ?_, s', hr', Option.isNone_iff_eq_none.1 hnone⟩
  intro hown
  obtain ⟨p, hp, hqueued⟩ := Option.map_eq_some_iff.1 hst
  have htask := hown p hp
  rw [hqueued] at htask
  cases htask

end Swarm

end Rtbit.Peers
