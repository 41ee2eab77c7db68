import Rtbit.Lib.Runs
import Rtbit.Spec.PeerRetry

/-! A dead peer whose retry sleeps. Dead peers are pruned after 300 seconds, while a retry may
sleep for up to an hour, and for 600 seconds when the backoff is exhausted. Only a prune that comes
too late for the peer, or a second death in a wrong state, takes a peer from its retry; retries of
at most 300 seconds that fire in time are spared the first. -/

namespace Rtbit

open Lib

namespace PeerRetry

namespace Peers

variable {s s' : Peers} {a : PeerHandle}

/-- Every retry that sleeps has its peer in the table. -/
def Kept (s : Peers) : Prop := ∀ r ∈ s.retries, (s.states r.addr).isSome

instance (s : Peers) : Decidable s.Kept :=
  inferInstanceAs (Decidable (∀ r ∈ s.retries, (s.states r.addr).isSome))

/-- Every retry that sleeps is due before its peer is pruned. -/
structure Inv (s : Peers) : Prop where
  past : ∀ a p, s.states a = some p → p.lastStateChange ≤ s.now
  kept : ∀ r ∈ s.retries, s.now ≤ r.deadline ∧
    ∃ p, s.states r.addr = some p ∧ r.deadline ≤ p.lastStateChange + pruneRetention

/-- The peer is in a state in which `on_peer_died` drops it. -/
def Wrong (s : Peers) (a : PeerHandle) : Prop :=
  ∃ p, s.states a = some p ∧ (p.state = .queued ∨ p.state = .dead)

instance (s : Peers) (a : PeerHandle) : Decidable (s.Wrong a) :=
  match h : s.states a with
  | some p => decidable_of_iff (p.state = .queued ∨ p.state = .dead) (by simp [Wrong, h])
  | none => isFalse (by simp [Wrong, h])

/-- No peer is pruned or dropped while a retry for it sleeps. -/
def Spares (s : Peers) : Event → Prop
  | .prune => ∀ r ∈ s.retries, ((s.states r.addr).any (pruned s.now)) = false
  | .onPeerDied a _ _ _ _ => s.Wrong a → ∀ r ∈ s.retries, r.addr ≠ a
  | _ => True

instance (s : Peers) : (e : Event) → Decidable (s.Spares e)
  | .prune =>
    inferInstanceAs (Decidable (∀ r ∈ s.retries, ((s.states r.addr).any (pruned s.now)) = false))
  | .onPeerDied a _ _ _ _ =>
    inferInstanceAs (Decidable (s.Wrong a → ∀ r ∈ s.retries, r.addr ≠ a))
  | .advance _ | .addIfNotSeen _ | .markPeerConnecting _ | .connectingToLive _
  | .incomingConnection _ | .markPeerNotNeeded _ | .reconnectNotNeeded _ | .requeueDead _
  | .fire _ => isTrue trivial

/-- A retry is not scheduled for later than the retention, it fires when it is due, and
`on_peer_died` does not find a peer with a retry queued or dead. -/
def InTime (s : Peers) : Event → Prop
  | .advance d => ∀ r ∈ s.retries, s.now + d ≤ r.deadline
  | .onPeerDied a incoming error finished backoff =>
    (s.Wrong a → ∀ r ∈ s.retries, r.addr ≠ a) ∧
      (incoming = false → error = true → finished = false → delay backoff ≤ pruneRetention)
  | _ => True

instance (s : Peers) : (e : Event) → Decidable (s.InTime e)
  | .advance d => inferInstanceAs (Decidable (∀ r ∈ s.retries, s.now + d ≤ r.deadline))
  | .onPeerDied _ _ _ _ _ => inferInstanceAs (Decidable (_ ∧ _))
  | .addIfNotSeen _ | .markPeerConnecting _ | .connectingToLive _ | .incomingConnection _
  | .markPeerNotNeeded _ | .reconnectNotNeeded _ | .requeueDead _ | .fire _ | .prune =>
    isTrue trivial

theorem set_states (s : Peers) (a b : PeerHandle) (state : PeerStateName) :
    (s.set a state).states b = if b = a then some ⟨state, s.now⟩ else s.states b :=
  Function.update_apply ..

/-- A state change moves the time of the last one to now. -/
theorem Inv.set (h : s.Inv) (a : PeerHandle) (state : PeerStateName) : (s.set a state).Inv := by
  refine ⟨?_, ?_⟩
  · intro b p hp
    rw [set_states] at hp
    split_ifs at hp
    · obtain rfl := Option.some.inj hp
      exact le_rfl
    · exact h.past b p hp
  · intro r hr
    obtain ⟨hdue, p, hp, hle⟩ := h.kept r hr
    refine ⟨hdue, ?_⟩
    rw [set_states]
    split_ifs with ha
    · have hpast := h.past r.addr p hp
      exact ⟨_, rfl, hle.trans (Nat.add_le_add_right hpast _)⟩
    · exact ⟨p, hp, hle⟩

theorem change_eq_some {old : List PeerStateName} {new : PeerStateName}
    (h : s.change a old new = some s') : s' = s.set a new := by
  unfold change at h
  split at h
  · split_ifs at h
    exact (Option.some.inj h).symm
  · cases h

theorem Inv.change (h : s.Inv) {old : List PeerStateName} {new : PeerStateName}
    (hs : s.change a old new = some s') : s'.Inv := by
  rw [change_eq_some hs]
  exact h.set a new

theorem Inv.deadToQueued (h : s.Inv) (a : PeerHandle) : (s.deadToQueued a).Inv := by
  unfold Peers.deadToQueued
  cases hc : s.change a [.dead] .queued with
  | none => exact h
  | some t => exact h.change hc

theorem Inv.onPeerDied (h : s.Inv) {incoming error finished : Bool} {backoff : Option ℕ}
    (hok : s.InTime (.onPeerDied a incoming error finished backoff)) :
    (s.onPeerDied a incoming error finished backoff).Inv := by
  unfold Peers.onPeerDied
  split
  · exact h
  · rename_i p hp
    -- a peer in a wrong state is dropped, and has no retry
    have hdrop : p.state = .queued ∨ p.state = .dead →
        Inv { s with states := Function.update s.states a none } := by
      intro hw
      have hno := hok.1 ⟨p, hp, hw⟩
      refine ⟨?_, ?_⟩
      · intro b q hq
        have hq : Function.update s.states a none b = some q := hq
        rw [Function.update_apply] at hq
        split_ifs at hq
        exact h.past b q hq
      · intro r hr
        obtain ⟨hdue, q, hq, hle⟩ := h.kept r hr
        exact ⟨hdue, q, (Function.update_of_ne (hno r hr) _ _).trans hq, hle⟩
    split
    · exact h.set a _
    · rename_i hq
      exact hdrop (Or.inl hq)
    · rename_i hd
      exact hdrop (Or.inr hd)
    all_goals
      split_ifs with hf hin
      · exact h.set a _
      · exact h.set a _
      · have hset := h.set a .dead
        simp only [Bool.or_eq_true, Bool.not_eq_true', not_or, Bool.not_eq_false,
          Bool.not_eq_true] at hf hin
        have hdelay := hok.2 hin hf.1 hf.2
        refine ⟨hset.past, ?_⟩
        intro r hr
        rcases List.mem_append.1 hr with hr | hr
        · exact hset.kept r hr
        · rw [List.mem_singleton.1 hr]
          refine ⟨Nat.le_add_right _ _, ⟨.dead, s.now⟩, ?_, Nat.add_le_add_left hdelay _⟩
          exact Function.update_self ..

/-- Only peers without a retry are old enough to be pruned. -/
theorem Inv.prune (h : s.Inv) : s.pruneDeadPeers.Inv := by
  refine ⟨?_, ?_⟩
  · intro a p hp
    exact h.past a p (Option.filter_eq_some_iff.1 hp).1
  · intro r hr
    obtain ⟨hdue, p, hp, hle⟩ := h.kept r hr
    refine ⟨hdue, p, ?_, hle⟩
    have hkeep : pruned s.now p = false := by
      have hage : ¬pruneRetention < s.now - p.lastStateChange := by omega
      simp [pruned, hage]
    change (s.states r.addr).filter _ = some p
    rw [hp, Option.filter_some, hkeep]
    rfl

theorem Inv.step {e : Event} (h : s.Inv) (hok : s.InTime e) (hs : s.step e = some s') :
    s'.Inv := by
  cases e with
  | advance d =>
    obtain rfl := Option.some.inj hs
    refine ⟨?_, ?_⟩
    · intro a p hp
      exact (h.past a p hp).trans (Nat.le_add_right _ _)
    · intro r hr
      exact ⟨hok r hr, (h.kept r hr).2⟩
  | addIfNotSeen a =>
    simp only [Peers.step] at hs
    split_ifs at hs
    obtain rfl := Option.some.inj hs
    exact h.set a _
  | markPeerConnecting a | connectingToLive a | markPeerNotNeeded a | reconnectNotNeeded a
  | requeueDead a => exact h.change hs
  | incomingConnection a =>
    simp only [Peers.step, addIncomingPeer] at hs
    split at hs
    · exact h.change hs
    · obtain rfl := Option.some.inj hs
      exact h.set a _
  | onPeerDied a incoming error finished backoff =>
    obtain rfl := Option.some.inj hs
    exact h.onPeerDied hok
  | fire i =>
    simp only [Peers.step] at hs
    split at hs
    · rename_i r hr
      split_ifs at hs
      obtain rfl := Option.some.inj hs
      have hfired : Inv { s with retries := s.retries.eraseIdx i } := by
        refine ⟨h.past, ?_⟩
        intro r' hr'
        exact h.kept r' (List.mem_of_mem_eraseIdx hr')
      exact hfired.deadToQueued r.addr
    · cases hs
  | prune =>
    obtain rfl := Option.some.inj hs
    exact h.prune

theorem start_inv : start.Inv := by
  refine ⟨?_, ?_⟩
  · intro a p hp
    cases hp
  · intro r hr
    cases hr

/-- A retry of at most 300 seconds fires before its peer is old enough to be pruned. -/
theorem Inv.spares {e : Event} (h : s.Inv) (hok : s.InTime e) : s.Spares e := by
  cases e with
  | prune =>
    intro r hr
    obtain ⟨hdue, p, hp, hle⟩ := h.kept r hr
    have hage : ¬pruneRetention < s.now - p.lastStateChange := by omega
    simp [hp, pruned, hage]
  | onPeerDied a incoming error finished backoff => exact hok.1
  | advance d | addIfNotSeen a | markPeerConnecting a | connectingToLive a
  | incomingConnection a | markPeerNotNeeded a | reconnectNotNeeded a | requeueDead a
  | fire i => trivial

theorem inTime_spares {evs : List Event} {t : Peers} (hr : Run step InTime start evs t) :
    Run step Spares start evs t := by
  suffices h : Run step Spares start evs t ∧ t.Inv from h.1
  induction hr with
  | nil => exact ⟨Run.nil, start_inv⟩
  | snoc _ hok hs ih =>
    obtain ⟨hrun, hinv⟩ := ih
    exact ⟨hrun.snoc (hinv.spares hok) hs, hinv.step hok hs⟩

theorem Kept.set (h : s.Kept) (a : PeerHandle) (state : PeerStateName) : (s.set a state).Kept := by
  intro r hr
  rw [set_states]
  split_ifs
  · rfl
  · exact h r hr

theorem Kept.change (h : s.Kept) {old : List PeerStateName} {new : PeerStateName}
    (hs : s.change a old new = some s') : s'.Kept := by
  rw [change_eq_some hs]
  exact h.set a new

theorem Kept.deadToQueued (h : s.Kept) (a : PeerHandle) : (s.deadToQueued a).Kept := by
  unfold Peers.deadToQueued
  cases hc : s.change a [.dead] .queued with
  | none => exact h
  | some t => exact h.change hc

/-- `on_peer_died` of a peer in a wrong state drops the peer, and does nothing else. -/
theorem onPeerDied_of_wrong (hw : s.Wrong a) (incoming error finished : Bool)
    (backoff : Option ℕ) : s.onPeerDied a incoming error finished backoff =
      { s with states := Function.update s.states a none } := by
  obtain ⟨p, hp, hq | hd⟩ := hw
  · simp [Peers.onPeerDied, hp, hq]
  · simp [Peers.onPeerDied, hp, hd]

theorem Kept.onPeerDied_of_not_wrong (h : s.Kept) (hw : ¬s.Wrong a)
    (incoming error finished : Bool) (backoff : Option ℕ) :
    (s.onPeerDied a incoming error finished backoff).Kept := by
  unfold Peers.onPeerDied
  split
  · exact h
  · rename_i p hp
    split
    · exact h.set a _
    · rename_i hq
      exact absurd ⟨p, hp, Or.inl hq⟩ hw
    · rename_i hd
      exact absurd ⟨p, hp, Or.inr hd⟩ hw
    all_goals
      split_ifs
      · exact h.set a _
      · exact h.set a _
      · intro r hr
        rcases List.mem_append.1 hr with hr | hr
        · exact h.set a _ r hr
        · have hself : (s.set a .dead).states a = some ⟨.dead, s.now⟩ := Function.update_self ..
          rw [List.mem_singleton.1 hr]
          exact Option.isSome_iff_exists.2 ⟨_, hself⟩

/-- Exactly the spared steps leave every sleeping retry its peer. -/
theorem Kept.step_iff {e : Event} (h : s.Kept) (hs : s.step e = some s') :
    s'.Kept ↔ s.Spares e := by
  cases e with
  | prune =>
    obtain rfl := Option.some.inj hs
    refine forall₂_congr fun r hr => ?_
    obtain ⟨p, hp⟩ := Option.isSome_iff_exists.1 (h r hr)
    change ((s.states r.addr).filter _).isSome ↔ _
    rw [hp]
    cases hold : pruned s.now p with
    | false => simp [hold]
    | true => simp [hold]
  | onPeerDied a incoming error finished backoff =>
    obtain rfl := Option.some.inj hs
    by_cases hw : s.Wrong a
    · rw [onPeerDied_of_wrong hw]
      refine ⟨?_, ?_⟩
      · intro hk _ r hr ha
        have hgone : (Function.update s.states a none r.addr).isSome := hk r hr
        rw [ha, Function.update_self] at hgone
        cases hgone
      · intro hno r hr
        change (Function.update s.states a none r.addr).isSome
        rw [Function.update_of_ne (hno hw r hr)]
        exact h r hr
    · exact ⟨fun _ hw' => absurd hw' hw, fun _ => h.onPeerDied_of_not_wrong hw _ _ _ _⟩
  | advance d =>
    obtain rfl := Option.some.inj hs
    exact iff_of_true h trivial
  | addIfNotSeen a =>
    simp only [Peers.step] at hs
    split_ifs at hs
    obtain rfl := Option.some.inj hs
    exact iff_of_true (h.set a _) trivial
  | markPeerConnecting a | connectingToLive a | markPeerNotNeeded a | reconnectNotNeeded a
  | requeueDead a => exact iff_of_true (h.change hs) trivial
  | incomingConnection a =>
    simp only [Peers.step, addIncomingPeer] at hs
    split at hs
    · exact iff_of_true (h.change hs) trivial
    · obtain rfl := Option.some.inj hs
      exact iff_of_true (h.set a _) trivial
  | fire i =>
    simp only [Peers.step] at hs
    split at hs
    · rename_i r hr
      split_ifs at hs
      obtain rfl := Option.some.inj hs
      have hfired : Kept { s with retries := s.retries.eraseIdx i } := by
        intro r' hr'
        exact h r' (List.mem_of_mem_eraseIdx hr')
      exact iff_of_true (hfired.deadToQueued r.addr) trivial
    · cases hs

/-- A retry that fires finds its peer and queues it, or the peer is no longer dead. -/
theorem deadToQueued_states (h : (s.states a).isSome) :
    ∃ p, (s.deadToQueued a).states a = some p ∧ p.state ≠ .dead := by
  obtain ⟨p, hp⟩ := Option.isSome_iff_exists.1 h
  by_cases hd : p.state = .dead
  · have hc : s.deadToQueued a = s.set a .queued := by
      simp [Peers.deadToQueued, Peers.change, hp, hd]
    refine ⟨⟨.queued, s.now⟩, ?_, by simp⟩
    rw [hc, set_states, if_pos rfl]
  · have hc : s.deadToQueued a = s := by
      simp [Peers.deadToQueued, Peers.change, hp, hd]
    exact ⟨p, by rw [hc, hp], hd⟩

def flaky : PeerHandle := ⟨.v4 0x0a000001, 6881⟩

/-- The peer is added and connects, and its connection breaks. -/
def died (backoff : Option ℕ) : List Event :=
  [.addIfNotSeen flaky, .markPeerConnecting flaky, .connectingToLive flaky,
    .onPeerDied flaky false true false backoff]

end Peers

end PeerRetry

end Rtbit
