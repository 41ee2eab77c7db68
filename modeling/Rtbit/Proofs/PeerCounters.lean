import Rtbit.Sanity.Peers

/-! The peer counters of a session. Each counter is the number of entries in its state modulo
`2 ^ 32`, and no decrement is applied to zero as long as the session has fewer than `2 ^ 32`
entries. -/

namespace Rtbit.Peers

open Lib

/-- What the counter `k` counts. -/
def PeerState.countedBy : Counter → PeerState → Bool
  | .queued, .queued => true
  | .connecting, .connecting _ => true
  | .live, .live _ => true
  | .liveTcp, .live l => l.connectionKind == .tcp
  | .liveUtp, .live l => l.connectionKind == .utp
  | .liveSocks, .live l => l.connectionKind == .socks
  | .dead, .dead => true
  | .notNeeded, .notNeeded _ => true
  | _, _ => false

/-- The number of states that `k` counts. -/
def number (k : Counter) (l : List PeerState) : ℕ := l.countP (PeerState.countedBy k)

theorem number_cons (k : Counter) (st : PeerState) (l : List PeerState) :
    number k (st :: l) = number k l + if st.countedBy k then 1 else 0 := List.countP_cons

theorem number_le_length (k : Counter) (l : List PeerState) : number k l ≤ l.length :=
  List.countP_le_length

namespace AggregatePeerStats

theorem update_value (f : ℕ → ℕ) (v : Counter → ℕ) (k k' : Counter) :
    Function.update v k' (f (v k')) k = if k = k' then f (v k) else v k := by
  rw [Function.update_apply]
  split_ifs with h
  · rw [h]
  · rfl

theorem atomicInc_value (s : AggregatePeerStats) (k k' : Counter) :
    (s.atomicInc k').value k = if k = k' then u32Inc (s.value k) else s.value k :=
  update_value u32Inc s.value k k'

theorem atomicDec_value (s : AggregatePeerStats) (k k' : Counter) :
    (s.atomicDec k').value k = if k = k' then u32Dec (s.value k) else s.value k :=
  update_value u32Dec s.value k k'

/-- A live state has two counters, which are different. -/
theorem countedBy_live (f : ℕ → ℕ) (n : ℕ) (l : LivePeerState) (k : Counter) :
    (if k = .live then f (if k = liveKindCounter l then f n else n)
      else if k = liveKindCounter l then f n else n) =
      if PeerState.countedBy k (.live l) then f n else n := by
  unfold liveKindCounter
  cases hk : l.connectionKind <;> cases k <;> simp [PeerState.countedBy, hk]

theorem countedBy_counter (f : ℕ → ℕ) (n : ℕ) {st : PeerState} (hst : st.isLive = false)
    (k : Counter) :
    (if k = counter st then f n else n) = if st.countedBy k then f n else n := by
  cases st with
  | live l => cases hst
  | _ => cases k <;> simp [counter, PeerState.countedBy]

theorem inc_value (s : AggregatePeerStats) (st : PeerState) (k : Counter) :
    (s.inc st).value k = if st.countedBy k then u32Inc (s.value k) else s.value k := by
  cases st with
  | live l =>
    have hlive : s.inc (.live l) = (s.atomicInc (liveKindCounter l)).atomicInc .live := rfl
    rw [hlive, atomicInc_value, atomicInc_value, countedBy_live]
  | _ => exact (s.atomicInc_value k _).trans (countedBy_counter _ _ rfl k)

theorem dec_value (s : AggregatePeerStats) (st : PeerState) (k : Counter) :
    (s.dec st).value k = if st.countedBy k then u32Dec (s.value k) else s.value k := by
  cases st with
  | live l =>
    have hlive : s.dec (.live l) = (s.atomicDec (liveKindCounter l)).atomicDec .live := rfl
    rw [hlive, atomicDec_value, atomicDec_value, countedBy_live]
  | _ => exact (s.atomicDec_value k _).trans (countedBy_counter _ _ rfl k)

theorem inc_underflow (s : AggregatePeerStats) (st : PeerState) :
    (s.inc st).underflow = s.underflow := by
  cases st <;> rfl

theorem dec_underflow {s : AggregatePeerStats} {st : PeerState}
    (h : ∀ k, st.countedBy k = true → s.value k ≠ 0) : (s.dec st).underflow = s.underflow := by
  have hdec (s : AggregatePeerStats) (k : Counter) (hk : s.value k ≠ 0) :
      (s.atomicDec k).underflow = s.underflow := by
    simp [atomicDec, hk]
  cases st with
  | live l =>
    have hkind : s.value (liveKindCounter l) ≠ 0 := by
      apply h
      rcases l with ⟨tx, b, kind⟩
      cases kind <;> rfl
    have hlive : (s.atomicDec (liveKindCounter l)).value .live ≠ 0 := by
      have hne : Counter.live ≠ liveKindCounter l := by
        rcases l with ⟨tx, b, kind⟩
        cases kind <;> simp [liveKindCounter]
      rw [atomicDec_value, if_neg hne]
      exact h .live rfl
    exact (hdec _ _ hlive).trans (hdec _ _ hkind)
  | queued => exact hdec s .queued (h .queued rfl)
  | connecting tx => exact hdec s .connecting (h .connecting rfl)
  | dead => exact hdec s .dead (h .dead rfl)
  | notNeeded r => exact hdec s .notNeeded (h .notNeeded rfl)

end AggregatePeerStats

section Tally

variable {small : Prop} {o : Counter → ℕ} {l l' : List PeerState} {s : AggregatePeerStats}

/-- The counters `s` count the states `l` on top of the numbers `o`; no decrement was applied
to zero if `small` holds. -/
structure Tally (small : Prop) (o : Counter → ℕ) (s : AggregatePeerStats) (l : List PeerState) :
    Prop where
  value : ∀ k, s.value k = (o k + number k l) % 2 ^ 32
  sound : small → s.underflow = false

/-- There is room to count one state more. -/
def Room (small : Prop) (o : Counter → ℕ) (l : List PeerState) : Prop :=
  small → ∀ k, o k + l.length + 1 < 2 ^ 32

theorem Tally.inc (h : Tally small o s l) (st : PeerState) : Tally small o (s.inc st) (st :: l) := by
  refine ⟨?_, fun hs => (s.inc_underflow st).trans (h.sound hs)⟩
  intro k
  rw [s.inc_value, h.value k, number_cons, u32Inc]
  split_ifs <;> omega

theorem Tally.dec {st : PeerState} (h : Tally small o s (st :: l)) (hroom : Room small o l) :
    Tally small o (s.dec st) l := by
  have hnum (k : Counter) : number k (st :: l) = number k l + if st.countedBy k then 1 else 0 :=
    number_cons k st l
  constructor
  · intro k
    rw [s.dec_value, h.value k, hnum k, u32Dec]
    split_ifs <;> omega
  · intro hs
    rw [AggregatePeerStats.dec_underflow]
    · exact h.sound hs
    · intro k hk
      have hle := number_le_length k l
      have hlt := hroom hs k
      rw [h.value k, hnum k, if_pos hk, Nat.mod_eq_of_lt (by omega)]
      omega

theorem Tally.perm (h : Tally small o s l) (hp : l.Perm l') : Tally small o s l' :=
  ⟨fun k => by rw [h.value k, number, number, hp.countP_eq], h.sound⟩

/-- Both copies of the counters: those of the torrent, whose states are `l`, and those of the
session, where the other torrents have the numbers `o`. -/
structure Tallied (small : Prop) (o : Counter → ℕ) (c : Counters) (l : List PeerState) :
    Prop where
  stats : Tally small (fun _ => 0) c.stats l
  session : Tally small o c.sessionStats l

variable {c : Counters}

theorem Tallied.perm (h : Tallied small o c l) (hp : l.Perm l') : Tallied small o c l' :=
  ⟨h.stats.perm hp, h.session.perm hp⟩

theorem Tallied.inc (h : Tallied small o c l) (st : PeerState) :
    Tallied small o (c.forEach (·.inc st)) (st :: l) :=
  ⟨h.stats.inc st, h.session.inc st⟩

theorem Tallied.dec {st : PeerState} (h : Tallied small o c (st :: l)) (hroom : Room small o l) :
    Tallied small o (c.forEach (·.dec st)) l := by
  refine ⟨h.stats.dec ?_, h.session.dec hroom⟩
  intro hs k
  have hlt := hroom hs k
  rw [Nat.zero_add]
  omega

/-- `seen` is not a counter of states. -/
theorem Tallied.incSeen (h : Tallied small o c l) :
    Tallied small o { c with stats := c.stats.incSeen } l :=
  ⟨⟨h.stats.value, h.stats.sound⟩, h.session⟩

/-! Changes of one peer, next to the states `l` of the others -/

/-- The peer with the counters after a call. -/
def Tallies (small : Prop) (o : Counter → ℕ) (l : List PeerState) (r : Peer × Counters) : Prop :=
  Tallied small o r.2 (r.1.state :: l)

variable {p : Peer} {r : Peer × Counters}

theorem Tallies.setState (h : Tallies small o l r) (hroom : Room small o l) (new : PeerState) :
    Tallies small o l (r.1.setState new r.2) := by
  have hmoved := (Tallied.dec h hroom).inc new
  constructor
  · rw [r.1.setState_stats]
    exact hmoved.stats
  · rw [r.1.setState_sessionStats]
    exact hmoved.session

variable (h : Tallies small o l (p, c)) (hroom : Room small o l)
include h hroom

theorem Tallies.retake (new : PeerState) :
    Tallies small o l ((p.takeState c).1.setState new (p.takeState c).2) :=
  (Tallies.setState h hroom .queued).setState hroom new

theorem Tallies.idleToConnecting {tx : PeerTx} (hr : p.idleToConnecting tx c = some r) :
    Tallies small o l r := by
  unfold Peer.idleToConnecting at hr
  split at hr
  · obtain rfl := Option.some.inj hr
    exact Tallies.setState h hroom _
  · obtain rfl := Option.some.inj hr
    exact Tallies.setState h hroom _
  · cases hr

theorem Tallies.incomingConnection {tx : PeerTx} {kind : ConnectionKind}
    (hr : p.incomingConnection tx kind c = some r) : Tallies small o l r := by
  unfold Peer.incomingConnection at hr
  split at hr
  · cases hr
  · cases hr
  · obtain rfl := Option.some.inj hr
    exact Tallies.retake h hroom _

theorem Tallies.connectingToLive {kind : ConnectionKind}
    (hr : p.connectingToLive kind c = some r) : Tallies small o l r := by
  unfold Peer.connectingToLive at hr
  split at hr
  · obtain rfl := Option.some.inj hr
    exact Tallies.retake h hroom _
  · cases hr

theorem Tallies.deadToQueued (hr : p.deadToQueued c = some r) : Tallies small o l r := by
  unfold Peer.deadToQueued at hr
  split at hr
  · obtain rfl := Option.some.inj hr
    exact Tallies.setState h hroom _
  · cases hr

theorem Tallies.disconnectFull {totalPieces : ℕ} (hr : p.disconnectFull totalPieces c = some r) :
    Tallies small o l r := by
  unfold Peer.disconnectFull at hr
  split at hr
  · split_ifs at hr
    obtain rfl := Option.some.inj hr
    exact Tallies.setState h hroom _
  · cases hr

theorem Tallies.reconnectNotNeededPeer {x : PeerHandle}
    (hr : p.reconnectNotNeededPeer c = some (x, r)) : Tallies small o l r := by
  unfold Peer.reconnectNotNeededPeer at hr
  split at hr
  · split at hr
    · cases hr
    · split_ifs at hr
      · obtain ⟨-, rfl⟩ := Prod.mk.inj (Option.some.inj hr)
        exact Tallies.setState h hroom _
      · obtain ⟨-, rfl⟩ := Prod.mk.inj (Option.some.inj hr)
        exact h
  · cases hr

theorem Tallies.close (prev : Option PeerTx) (error finished incoming : Bool) :
    Tallies small o l ((p.close prev error finished incoming c).1,
      (p.close prev error finished incoming c).2.1) := by
  unfold Peer.close
  split_ifs
  · exact Tallies.setState h hroom _
  · exact Tallies.setState h hroom _
  · exact Tallies.setState h hroom _

theorem Tallies.onPeerDied (hasPieces error finished incoming : Bool) :
    Tallies small o l ((p.onPeerDied hasPieces error finished incoming c).1,
      (p.onPeerDied hasPieces error finished incoming c).2.1) := by
  have htaken := Tallies.setState h hroom .queued
  unfold Peer.onPeerDied
  dsimp only
  split
  · exact Tallies.close htaken hroom _ _ _ _
  · split_ifs
    · exact Tallies.close htaken hroom _ _ _ _
    · exact htaken
  · exact Tallies.setState htaken hroom _
  · exact htaken
  · exact htaken

end Tally

/-! One torrent -/

/-- The states of the entries. -/
def PeerStates.stateList (ps : PeerStates) : List PeerState := (values ps.states).map Peer.state

section Torrent

variable {small : Prop} {o : Counter → ℕ} {ps ps' : PeerStates} {a : PeerHandle} {p : Peer}

/-- The counters of the torrent and of the session are right, and the session has fewer than
`2 ^ 32` entries if `small` holds. -/
structure PeerStates.Counted (small : Prop) (o : Counter → ℕ) (ps : PeerStates) : Prop where
  tallied : Tallied small o ps.toCounters ps.stateList
  bound : small → ∀ k, o k + ps.stateList.length < 2 ^ 32

/-- The states of the other entries. -/
def PeerStates.others (ps : PeerStates) (a : PeerHandle) : List PeerState :=
  (values (ps.states.erase a)).map Peer.state

theorem stateList_perm (hp : ps.get a = some p) : ps.stateList.Perm (p.state :: ps.others a) :=
  (values_perm hp).map Peer.state

theorem PeerStates.Counted.at_entry (h : ps.Counted small o) (hp : ps.get a = some p) :
    Room small o (ps.others a) ∧ Tallies small o (ps.others a) (p, ps.toCounters) := by
  have hperm := stateList_perm hp
  refine ⟨?_, h.tallied.perm hperm⟩
  intro hs k
  have hlt := h.bound hs k
  rw [hperm.length_eq, List.length_cons] at hlt
  omega

/-- A change of one entry. -/
theorem PeerStates.Counted.withPeerMut {f : Peer → Counters → Option (Peer × Counters)}
    (h : ps.Counted small o) (hf : ∀ l p r, Room small o l → Tallies small o l (p, ps.toCounters) →
      f p ps.toCounters = some r → Tallies small o l r)
    (hps : ps.withPeerMut a f = some ps') : Tallied small o ps'.toCounters ps'.stateList := by
  obtain ⟨p, r, hp, hr, rfl⟩ := withPeerMut_eq_some hps
  obtain ⟨hroom, hat⟩ := h.at_entry hp
  exact hf _ p r hroom hat hr

theorem PeerStates.Counted.erase (h : ps.Counted small o) (hp : ps.get a = some p) :
    Tallied small o (ps.toCounters.forEach (·.dec p.state)) (ps.others a) := by
  obtain ⟨hroom, hat⟩ := h.at_entry hp
  exact Tallied.dec hat hroom

theorem stateList_insert_new (hp : ps.get a = none) (q : Peer) :
    (values (ps.states.insert a q)).map Peer.state = q.state :: ps.stateList := by
  rw [values_insert_new hp]
  rfl

theorem PeerStates.Counted.addIfNotSeen (h : ps.Counted small o)
    (hps : ps.addIfNotSeen a = some ps') : Tallied small o ps'.toCounters ps'.stateList := by
  unfold PeerStates.addIfNotSeen at hps
  split at hps
  · cases hps
  · rename_i hp
    obtain rfl := Option.some.inj hps
    have hinc := h.tallied.inc .queued
    unfold PeerStates.stateList
    rw [stateList_insert_new hp]
    exact ⟨⟨hinc.stats.value, hinc.stats.sound⟩, ⟨hinc.session.value, hinc.session.sound⟩⟩

theorem PeerStates.Counted.addIncomingPeer {tx : PeerTx} {kind : ConnectionKind}
    (h : ps.Counted small o) (hps : ps.addIncomingPeer a tx kind = some ps') :
    Tallied small o ps'.toCounters ps'.stateList := by
  unfold PeerStates.addIncomingPeer at hps
  split at hps
  · rename_i p hp
    obtain ⟨r, hr, rfl⟩ := Option.map_eq_some_iff.1 hps
    obtain ⟨hroom, hat⟩ := h.at_entry hp
    exact Tallies.incomingConnection hat hroom hr
  · rename_i hp
    obtain rfl := Option.some.inj hps
    unfold PeerStates.stateList
    dsimp only [PeerStates.put]
    rw [stateList_insert_new hp]
    exact h.tallied.incSeen.inc _

theorem PeerStates.Counted.pruneDeadPeer (h : ps.Counted small o)
    (hps : ps.pruneDeadPeer a = some ps') : Tallied small o ps'.toCounters ps'.stateList := by
  obtain ⟨p, hp, hps⟩ := Option.bind_eq_some_iff.1 hps
  split at hps
  · obtain rfl := Option.some.inj hps
    exact h.erase hp
  · obtain rfl := Option.some.inj hps
    exact h.erase hp
  · cases hps

theorem PeerStates.Counted.updateBitfield {b : Bits} (h : ps.Counted small o)
    (hps : ps.updateBitfield a b = some ps') : Tallied small o ps'.toCounters ps'.stateList := by
  refine PeerStates.Counted.withPeerMut h ?_ hps
  intro l p r _ hat hr
  split at hr
  · rename_i live hlive
    obtain rfl := Option.some.inj hr
    -- neither the state nor the kind of the connection changes
    have hsame (k : Counter) : number k (.live { live with bitfield := b } :: l) =
        number k (p.state :: l) := by
      rw [number_cons, number_cons, hlive]
      cases k <;> rfl
    exact ⟨⟨fun k => (hat.stats.value k).trans (by rw [hsame k]), hat.stats.sound⟩,
      ⟨fun k => (hat.session.value k).trans (by rw [hsame k]), hat.session.sound⟩⟩
  · cases hr

theorem PeerStates.Counted.updateOutgoingAddr {out : PeerHandle} (h : ps.Counted small o)
    (hps : ps.updateOutgoingAddr a out = some ps') :
    Tallied small o ps'.toCounters ps'.stateList := by
  refine PeerStates.Counted.withPeerMut h ?_ hps
  intro l p r _ hat hr
  obtain rfl := Option.some.inj hr
  exact hat

theorem PeerStates.Counted.onConnected {counters : ℕ} (h : ps.Counted small o)
    (hps : ps.onConnected a counters = some ps') :
    Tallied small o ps'.toCounters ps'.stateList := by
  refine PeerStates.Counted.withPeerMut h ?_ hps
  intro l p r _ hat hr
  split_ifs at hr
  obtain rfl := Option.some.inj hr
  exact hat

theorem PeerStates.Counted.markPeerNotNeeded (h : ps.Counted small o)
    (hps : ps.markPeerNotNeeded a = some ps') :
    Tallied small o ps'.toCounters ps'.stateList := by
  refine PeerStates.Counted.withPeerMut h ?_ hps
  intro l p r hroom hat hr
  obtain rfl := Option.some.inj hr
  exact Tallies.setState hat hroom _

theorem PeerStates.Counted.reconnectNotNeeded {x : PeerHandle} (h : ps.Counted small o)
    (hps : ps.reconnectNotNeeded a = some (x, ps')) :
    Tallied small o ps'.toCounters ps'.stateList := by
  obtain ⟨p, hp, hr⟩ := Option.bind_eq_some_iff.1 hps
  obtain ⟨⟨y, r⟩, hy, he⟩ := Option.map_eq_some_iff.1 hr
  obtain ⟨-, rfl⟩ := Prod.mk.inj he
  obtain ⟨hroom, hat⟩ := h.at_entry hp
  exact Tallies.reconnectNotNeededPeer hat hroom hy

theorem PeerStates.Counted.onPeerDied {pieces error finished incoming : Bool} {after : AfterDeath}
    (h : ps.Counted small o) (hps : ps.onPeerDied a pieces error finished incoming = some (ps', after)) :
    Tallied small o ps'.toCounters ps'.stateList := by
  obtain ⟨p, hp, he⟩ := Option.map_eq_some_iff.1 hps
  obtain ⟨rfl, -⟩ := Prod.mk.inj he
  obtain ⟨hroom, hat⟩ := h.at_entry hp
  exact Tallies.onPeerDied hat hroom pieces error finished incoming

/-- Every operation keeps the counters right. -/
theorem PeerStates.Counted.apply {op : PeerOp} (h : ps.Counted small o)
    (hps : ps.apply op = some ps') : Tallied small o ps'.toCounters ps'.stateList := by
  cases op with
  | addIfNotSeen a => exact h.addIfNotSeen hps
  | addIncomingPeer a tx kind => exact h.addIncomingPeer hps
  | markPeerConnecting a tx =>
    exact h.withPeerMut (fun _ _ _ hroom hat hr => Tallies.idleToConnecting hat hroom hr) hps
  | setPeerLive a kind =>
    exact h.withPeerMut (fun _ _ _ hroom hat hr => Tallies.connectingToLive hat hroom hr) hps
  | markPeerNotNeeded a => exact h.markPeerNotNeeded hps
  | disconnectFull n a =>
    exact h.withPeerMut (fun _ _ _ hroom hat hr => Tallies.disconnectFull hat hroom hr) hps
  | deadToQueued a =>
    exact h.withPeerMut (fun _ _ _ hroom hat hr => Tallies.deadToQueued hat hroom hr) hps
  | reconnectNotNeeded a =>
    obtain ⟨⟨x, _⟩, hx, rfl⟩ := Option.map_eq_some_iff.1 hps
    exact h.reconnectNotNeeded hx
  | updateBitfield a b => exact h.updateBitfield hps
  | updateOutgoingAddr a out => exact h.updateOutgoingAddr hps
  | onConnected a counters => exact h.onConnected hps
  | onPeerDied a pieces error finished incoming =>
    obtain ⟨⟨_, after⟩, hx, rfl⟩ := Option.map_eq_some_iff.1 hps
    exact h.onPeerDied hx
  | dropPeer a =>
    obtain ⟨p, hp, rfl⟩ := Option.map_eq_some_iff.1 hps
    exact h.erase hp
  | pruneDeadPeer a => exact h.pruneDeadPeer hps

/-- `Drop` takes all the entries out of the counters. -/
theorem PeerStates.Counted.drop (h : ps.Counted small o) : Tallied small o ps.drop [] := by
  have hfold (l : List Peer) (c : Counters) (hc : Tallied small o c (l.map Peer.state))
      (hb : small → ∀ k, o k + l.length < 2 ^ 32) :
      Tallied small o (l.foldl (fun c p => p.destroy c) c) [] := by
    induction l generalizing c with
    | nil => exact hc
    | cons p l ih =>
      have hroom : Room small o (l.map Peer.state) := by
        intro hs k
        have hlt := hb hs k
        rw [List.length_cons] at hlt
        rw [List.length_map]
        omega
      have hdec := Tallied.dec hc hroom
      have hdestroy : Tallied small o (p.destroy c) (l.map Peer.state) := by
        unfold Peer.destroy
        dsimp only
        split
        · split_ifs
          · exact ⟨hdec.stats, hdec.session⟩
          · exact hdec
        · exact hdec
      refine ih _ hdestroy ?_
      intro hs k
      have hlt := hb hs k
      rw [List.length_cons] at hlt
      omega
  refine hfold (values ps.states) ps.toCounters h.tallied ?_
  intro hs k
  have hlt := h.bound hs k
  rwa [PeerStates.stateList, List.length_map] at hlt

end Torrent

/-! The session -/

namespace Torrent

def stateList : Torrent → List PeerState
  | .added ps => ps.stateList
  | .dropped _ => []

def stats : Torrent → AggregatePeerStats
  | .added ps => ps.stats
  | .dropped stats => stats

end Torrent

namespace Session

/-- The number of entries that `k` counts, in the torrents not yet dropped. -/
def number (s : Session) (k : Counter) : ℕ :=
  (s.torrents.map fun t => Peers.number k t.stateList).sum

/-- The number of all the entries. -/
def len (s : Session) : ℕ := (s.torrents.map fun t => t.stateList.length).sum

/-- The counters of every torrent and of the session. -/
structure Tallied (small : Prop) (s : Session) : Prop where
  torrents : ∀ t ∈ s.torrents, Tally small (fun _ => 0) t.stats t.stateList
  session : ∀ k, s.stats.value k = s.number k % 2 ^ 32
  sound : small → s.stats.underflow = false

variable {small : Prop} {s s' : Session} {i : ℕ} {ps : PeerStates}

/-- What the counter `k` counts in the torrents other than `i`. -/
def elsewhere (s : Session) (i : ℕ) (k : Counter) : ℕ :=
  ((s.torrents.set i (.dropped .default)).map fun t => Peers.number k t.stateList).sum

theorem number_eq {t : Torrent} (ht : s.torrents[i]? = some t) (k : Counter) :
    s.number k = s.elsewhere i k + Peers.number k t.stateList := by
  have hout := sum_map_set (fun t => Peers.number k t.stateList) ht (y := .dropped .default)
  have hzero : Peers.number k (Torrent.dropped .default).stateList = 0 := rfl
  unfold elsewhere number
  omega

theorem number_set {t t' : Torrent} (ht : s.torrents[i]? = some t) (k : Counter) :
    ((s.torrents.set i t').map fun t => Peers.number k t.stateList).sum =
      s.elsewhere i k + Peers.number k t'.stateList := by
  have hin := sum_map_set (fun t => Peers.number k t.stateList) ht (y := t')
  have hold := number_eq ht k
  unfold number at hold
  omega

theorem elsewhere_add_le {t : Torrent} (ht : s.torrents[i]? = some t) (k : Counter) :
    s.elsewhere i k + t.stateList.length ≤ s.len := by
  have hlen := sum_map_set (fun t => t.stateList.length) ht (y := .dropped .default)
  have hle : s.elsewhere i k ≤
      ((s.torrents.set i (.dropped .default)).map fun t => t.stateList.length).sum :=
    List.sum_le_sum fun t _ => number_le_length k t.stateList
  have hzero : (Torrent.dropped .default).stateList.length = 0 := rfl
  unfold len
  omega

theorem get_eq_some (h : s.get i = some ps) :
    ∃ ps₀, s.torrents[i]? = some (.added ps₀) ∧ ps = { ps₀ with sessionStats := s.stats } := by
  unfold get at h
  split at h
  · rename_i ps₀ hps
    exact ⟨ps₀, hps, (Option.some.inj h).symm⟩
  · cases h

theorem Tallied.counted (h : s.Tallied small) (hb : small → s.len < 2 ^ 32)
    (hps : s.get i = some ps) : ps.Counted small (s.elsewhere i) := by
  obtain ⟨ps₀, ht, rfl⟩ := get_eq_some hps
  refine ⟨⟨h.torrents _ (List.mem_of_getElem? ht), ?_, h.sound⟩, ?_⟩
  · intro k
    have hk := h.session k
    rw [number_eq ht k] at hk
    exact hk
  · intro hs k
    exact lt_of_le_of_lt (elsewhere_add_le ht k) (hb hs)

/-- The torrent `i` has changed, with the counters of the session. -/
theorem Tallied.set {t t' : Torrent} {c : Counters} (h : s.Tallied small)
    (ht : s.torrents[i]? = some t) (hstats : t'.stats = c.stats)
    (hc : Peers.Tallied small (s.elsewhere i) c t'.stateList) :
    Tallied small ⟨c.sessionStats, s.torrents.set i t'⟩ := by
  refine ⟨?_, ?_, hc.session.sound⟩
  · intro u hu
    rcases List.mem_or_eq_of_mem_set hu with hu | rfl
    · exact h.torrents u hu
    · rw [hstats]
      exact hc.stats
  · intro k
    rw [number, number_set ht k]
    exact hc.session.value k

theorem Tallied.step {op : SessionOp} (h : s.Tallied small) (hb : small → s.len < 2 ^ 32)
    (hs : s.step op = some s') : s'.Tallied small := by
  cases op with
  | newTorrent =>
    obtain rfl := Option.some.inj hs
    refine ⟨?_, ?_, h.sound⟩
    · intro t ht
      rcases List.mem_append.1 ht with ht | ht
      · exact h.torrents t ht
      · obtain rfl := List.mem_singleton.1 ht
        exact ⟨fun k => rfl, fun _ => rfl⟩
    · intro k
      have hnew : Peers.number k (Torrent.added (.new s.stats)).stateList = 0 := rfl
      rw [number, List.map_append, List.sum_append, List.map_singleton, List.sum_singleton, hnew]
      exact h.session k
  | torrent i op =>
    obtain ⟨ps, hps, hs⟩ := Option.bind_eq_some_iff.1 hs
    obtain ⟨ps', hop, rfl⟩ := Option.map_eq_some_iff.1 hs
    obtain ⟨ps₀, ht, -⟩ := get_eq_some hps
    exact h.set ht rfl ((h.counted hb hps).apply hop)
  | dropTorrent i =>
    obtain ⟨ps, hps, rfl⟩ := Option.map_eq_some_iff.1 hs
    obtain ⟨ps₀, ht, -⟩ := get_eq_some hps
    exact h.set ht rfl (h.counted hb hps).drop

theorem start_tallied (small : Prop) : start.Tallied small :=
  ⟨by simp [start], fun k => rfl, fun _ => rfl⟩

theorem run_tallied {ops : List SessionOp} (hr : Run step Any start ops s) : s.Tallied False :=
  hr.inv (Tallied False) (start_tallied False) fun _ _ _ h _ hs => h.step False.elim hs

theorem number_kinds (l : List PeerState) :
    Peers.number .liveTcp l + Peers.number .liveUtp l + Peers.number .liveSocks l =
      Peers.number .live l := by
  induction l with
  | nil => rfl
  | cons st l ih =>
    simp only [number_cons]
    cases st with
    | live live =>
      cases hk : live.connectionKind <;> simp [PeerState.countedBy, hk] <;> omega
    | _ => simpa [PeerState.countedBy] using ih

/-- The counters are the numbers of entries in the states. -/
structure Counted (s : Session) : Prop where
  torrents : ∀ t ∈ s.torrents, ∀ k, t.stats.value k = Peers.number k t.stateList
  kinds : ∀ t ∈ s.torrents,
    t.stats.value .liveTcp + t.stats.value .liveUtp + t.stats.value .liveSocks = t.stats.value .live
  session : ∀ k, s.stats.value k = s.number k
  noUnderflow : s.stats.underflow = false ∧ ∀ t ∈ s.torrents, t.stats.underflow = false

theorem Tallied.exact (h : s.Tallied True) (hb : s.len < 2 ^ 32) : s.Counted := by
  have htorrent (t) (ht : t ∈ s.torrents) (k : Counter) :
      t.stats.value k = Peers.number k t.stateList := by
    obtain ⟨j, hj⟩ := List.mem_iff_getElem?.1 ht
    have hle := elsewhere_add_le hj k
    have hnum := number_le_length k t.stateList
    have hval := (h.torrents t ht).value k
    rwa [Nat.zero_add, Nat.mod_eq_of_lt (by omega)] at hval
  refine ⟨htorrent, ?_, ?_, h.sound trivial, fun t ht => (h.torrents t ht).sound trivial⟩
  · intro t ht
    rw [htorrent t ht, htorrent t ht, htorrent t ht, htorrent t ht, number_kinds]
  · intro k
    have hle : s.number k ≤ s.len := List.sum_le_sum fun t _ => number_le_length k t.stateList
    rw [h.session k, Nat.mod_eq_of_lt (by omega)]

/-- The session has fewer than `2 ^ 32` entries before the operation. -/
def Below (s : Session) (_ : SessionOp) : Prop := s.len < 2 ^ 32

instance (s : Session) (op : SessionOp) : Decidable (Below s op) :=
  inferInstanceAs (Decidable (s.len < 2 ^ 32))

/-- In every run, each counter is the number of its entries modulo `2 ^ 32`. As long as the
session has fewer entries than that, the counters are these numbers, and no decrement is applied
to zero. -/
theorem counters_count {ops : List SessionOp} (hr : Run step Any start ops s) :
    (∀ t ∈ s.torrents, ∀ k, t.stats.value k = Peers.number k t.stateList % 2 ^ 32) ∧
      (∀ k, s.stats.value k = s.number k % 2 ^ 32) ∧
      (Run step Below start ops s → s.len < 2 ^ 32 → s.Counted) := by
  have hmod := run_tallied hr
  refine ⟨?_, hmod.session, ?_⟩
  · intro t ht k
    rw [(hmod.torrents t ht).value k, Nat.zero_add]
  · intro hr' hb
    have hall : s.Tallied True :=
      hr'.inv (Tallied True) (start_tallied True) fun _ _ _ h hlt hs => h.step (fun _ => hlt) hs
    exact hall.exact hb

/-- The addresses `::i`. -/
def addrs (i : ℕ) : PeerHandle := ⟨.v6 (BitVec.ofNat 128 i), 6881⟩

/-- A peer connects twice, in two torrents. -/
def connectOps : List SessionOp :=
  [.newTorrent, .newTorrent, .torrent 0 (.addIfNotSeen (addrs 0)),
    .torrent 0 (.markPeerConnecting (addrs 0) 0), .torrent 0 (.setPeerLive (addrs 0) .utp),
    .torrent 1 (.addIncomingPeer (addrs 1) 1 .tcp),
    .torrent 1 (.onPeerDied (addrs 1) true true false true), .dropTorrent 0]

theorem connectOps_counted : ∃ s, Run step Below start connectOps s ∧ s.Counted := by
  have hex : (exec step Below start connectOps).any (fun s => decide (s.len < 2 ^ 32)) = true := by
    decide +kernel
  obtain ⟨s, hr, hb⟩ := Run.exists_of_exec hex
  have hany : Run step Any start connectOps s := hr.mono fun _ _ _ => trivial
  exact ⟨s, hr, (counters_count hany).2.2 hr (of_decide_eq_true hb)⟩

/-- A torrent is told `n` addresses. -/
def manyPeers (n : ℕ) : List SessionOp :=
  .newTorrent :: (List.range n).map fun i => .torrent 0 (.addIfNotSeen (addrs i))

theorem addrs_ne {i j : ℕ} (hi : i < 2 ^ 128) (hj : j < 2 ^ 128) (h : i ≠ j) : addrs i ≠ addrs j := by
  intro he
  have hbits : BitVec.ofNat 128 i = BitVec.ofNat 128 j := by
    simpa [addrs] using he
  have hnat := congrArg BitVec.toNat hbits
  rw [BitVec.toNat_ofNat, BitVec.toNat_ofNat, Nat.mod_eq_of_lt hi, Nat.mod_eq_of_lt hj] at hnat
  exact h hnat

/-- They are all queued. -/
theorem manyPeers_run (n : ℕ) (hn : n ≤ 2 ^ 128) : ∃ s ps, Run step Any start (manyPeers n) s ∧
    s.torrents = [.added ps] ∧ ps.stateList = List.replicate n .queued ∧
      ∀ i, n ≤ i → i < 2 ^ 128 → ps.get (addrs i) = none := by
  induction n with
  | zero => exact ⟨_, _, Run.single trivial rfl, rfl, rfl, fun _ _ _ => rfl⟩
  | succ n ih =>
    obtain ⟨s, ps, hr, ht, hl, hnone⟩ := ih (by omega)
    have hget : s.get 0 = some { ps with sessionStats := s.stats } := by
      rw [get, ht]
      rfl
    have hnew := hnone n le_rfl (by omega)
    obtain ⟨ps', hadd, hstates⟩ : ∃ ps', PeerStates.addIfNotSeen
        { ps with sessionStats := s.stats } (addrs n) = some ps' ∧
          ps'.states = ps.states.insert (addrs n) (.newWithOutgoingAddress (addrs n) ps.nextCounters) := by
      unfold PeerStates.addIfNotSeen
      have hget' : PeerStates.get { ps with sessionStats := s.stats } (addrs n) = none := hnew
      rw [hget']
      exact ⟨_, rfl, rfl⟩
    have hstep : s.step (.torrent 0 (.addIfNotSeen (addrs n))) =
        some ⟨ps'.sessionStats, [.added ps']⟩ := by
      simp only [step, hget, Option.bind_some, PeerStates.apply, hadd, Option.map_some, ht,
        List.set_cons_zero]
    have hops : manyPeers (n + 1) = manyPeers n ++ [.torrent 0 (.addIfNotSeen (addrs n))] := by
      simp [manyPeers, List.range_succ]
    refine ⟨_, ps', hops ▸ hr.snoc trivial hstep, rfl, ?_, ?_⟩
    · rw [PeerStates.stateList, hstates, stateList_insert_new hnew, hl]
      rfl
    · intro i hi hlt
      rw [PeerStates.get, hstates, AList.lookup_insert_ne (addrs_ne hlt (by omega) (by omega))]
      exact hnone i (by omega) hlt

/-- A torrent with `2 ^ 32` queued peers says that it has none. -/
theorem queued_counter_wraps : ∃ s, Run step Any start (manyPeers (2 ^ 32)) s ∧
    (∃ t ∈ s.torrents, Peers.number .queued t.stateList = 2 ^ 32 ∧ t.stats.value .queued = 0) ∧
      ¬s.Counted := by
  obtain ⟨s, ps, hr, ht, hl, -⟩ := manyPeers_run (2 ^ 32) (by norm_num)
  have hmem : Torrent.added ps ∈ s.torrents := by simp [ht]
  have hnum : Peers.number .queued (Torrent.added ps).stateList = 2 ^ 32 := by
    rw [Torrent.stateList, hl, Peers.number, List.countP_replicate]
    rfl
  have hval : (Torrent.added ps).stats.value .queued = 0 := by
    rw [((run_tallied hr).torrents _ hmem).value .queued, hnum]
    norm_num
  refine ⟨s, hr, ⟨_, hmem, hnum, hval⟩, ?_⟩
  intro hc
  have heq := hc.torrents _ hmem .queued
  rw [hval, hnum] at heq
  exact absurd heq (by norm_num)

end Session

end Rtbit.Peers
