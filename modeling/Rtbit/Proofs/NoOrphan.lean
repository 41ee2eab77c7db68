import Rtbit.Sanity.Live

/-! The owner of a piece in flight is a live peer, or one whose `on_peer_died` is about to
release the piece. The two functions that set a live peer to `NotNeeded` do not release its
pieces, and the `on_peer_died` that comes later finds `NotNeeded` and does not either. -/

namespace Rtbit

open Lib

namespace Live

variable {l : Lengths} {fs : List FileInfo} {s s' : Live l}

structure NoOrphan (s : Live l) : Prop where
  owned : ∀ p a, s.owner p = some a → s.IsLive a ∨ ∃ error, s.dying a = some (.releasing error)
  /-- `on_peer_died` has taken the state of the entry it holds. -/
  locked : ∀ a, s.dying a ≠ none → ¬s.IsLive a

/-- A live peer that owns a piece in flight is not set to `NotNeeded`. -/
def KeepsOwners (s : Live l) : LiveOp l → Prop
  | .peer a .disconnectFull | .peer a .markPeerNotNeeded => s.IsLive a → ∀ p, s.owner p ≠ some a
  | _ => True

instance (s : Live l) : (op : LiveOp l) → Decidable (KeepsOwners s op)
  | .peer a .disconnectFull | .peer a .markPeerNotNeeded =>
    inferInstanceAs (Decidable (s.IsLive a → ∀ p, s.owner p ≠ some a))
  | .peer _ .addIfNotSeen | .peer _ .markPeerConnecting | .peer _ .connectingToLive
  | .peer _ .incomingConnection | .peer _ (.updateBitfield _) | .peer _ (.updateOutgoingAddr _)
  | .peer _ .deadToQueued | .peer _ .reconnectNotNeeded | .peer _ .prune | .acquire _ _ | .onSteal _
  | .addRequest _ | .receive _ _ | .write _ _ _ | .disconnected | .died _ _ | .release _
  | .close _ _ | .updateOnlyFiles _ | .reconnected => isTrue trivial

/-- The other changes of an entry leave a live peer live. -/
theorem apply_live {a : PeerHandle} {m : PeerMove} {n : ℕ} {live : LivePeerState}
    {out : Option PeerHandle} {p : Option Peer}
    (h : m.apply n a (some ⟨.live live, out⟩) = some p) :
    m = .disconnectFull ∨ m = .markPeerNotNeeded ∨ ∃ live' out', p = some ⟨.live live', out'⟩ := by
  cases m with
  | disconnectFull => exact Or.inl rfl
  | markPeerNotNeeded => exact Or.inr (Or.inl rfl)
  | updateBitfield b | updateOutgoingAddr out =>
    injection h with h
    exact Or.inr (Or.inr ⟨_, _, h.symm⟩)
  | _ => cases h

theorem NoOrphan.peer (h : s.NoOrphan) {a : PeerHandle} {m : PeerMove} {p : Option Peer}
    (hok : KeepsOwners s (.peer a m)) (hd : s.dying a = none)
    (hm : m.apply l.totalPieces a (s.peers a) = some p) (q : ValidPieceIndex l)
    (hq : s.owner q = some a) : (s.setPeer a p).IsLive a := by
  have hlive : s.IsLive a := by
    rcases h.owned q a hq with hl | ⟨error, he⟩
    · exact hl
    · simp [hd] at he
  obtain ⟨live, out, hp⟩ := hlive
  rw [hp] at hm
  rw [setPeer_isLive_self]
  rcases apply_live hm with rfl | rfl | hl
  · exact absurd hq (hok ⟨live, out, hp⟩ q)
  · exact absurd hq (hok ⟨live, out, hp⟩ q)
  · exact hl

theorem NoOrphan.not_owner (h : s.NoOrphan) {a : PeerHandle} (hd : s.dying a = none)
    (hl : ¬s.IsLive a) (p : ValidPieceIndex l) : s.owner p ≠ some a := by
  intro hown
  rcases h.owned p a hown with hl' | ⟨error, he⟩
  · exact hl hl'
  · simp [hd] at he

/-- A step that leaves the peers alone and gives pieces to live peers only. -/
theorem NoOrphan.of_owner (h : s.NoOrphan) (hp : ∀ a, s'.IsLive a ↔ s.IsLive a)
    (hd : s'.dying = s.dying)
    (ho : ∀ p a, s'.owner p = some a → s.owner p = some a ∨ s.IsLive a) : s'.NoOrphan := by
  refine ⟨?_, ?_⟩
  · intro p a hown
    rw [hp, hd]
    rcases ho p a hown with hold | hl
    · exact h.owned p a hold
    · exact Or.inl hl
  · intro a hdy
    rw [hp]
    exact h.locked a (hd ▸ hdy)

/-- A step that changes the entry of `a`, and no owner. -/
theorem NoOrphan.of_entry (h : s.NoOrphan) {a : PeerHandle} (ho : s'.owner = s.owner)
    (hp : ∀ b, b ≠ a → (s'.IsLive b ↔ s.IsLive b)) (hd : ∀ b, b ≠ a → s'.dying b = s.dying b)
    (ha : ∀ p, s.owner p = some a → s'.IsLive a ∨ ∃ error, s'.dying a = some (.releasing error))
    (hl : s'.dying a ≠ none → ¬s'.IsLive a) : s'.NoOrphan := by
  refine ⟨?_, ?_⟩
  · intro p b hown
    rw [ho] at hown
    by_cases hb : b = a
    · subst hb
      exact ha p hown
    · rw [hp b hb, hd b hb]
      exact h.owned p b hown
  · intro b hdy
    by_cases hb : b = a
    · subst hb
      exact hl hdy
    · rw [hp b hb]
      exact h.locked b (hd b hb ▸ hdy)

theorem NoOrphan.step {op : LiveOp l} (h : s.NoOrphan) (hok : KeepsOwners s op)
    (hs : Live.step fs s op = some s') : s'.NoOrphan := by
  cases step_steps hs with
  | @peer a m p hd _ hm =>
    exact h.of_entry rfl (fun b hb => setPeer_isLive_ne hb p) (fun b _ => rfl)
      (fun q hq => Or.inl (h.peer hok hd hm q hq)) fun hne => absurd hd hne
  | @acquire i t live w req ht hr hl hw =>
    refine h.of_owner (fun a => Iff.rfl) rfl ?_
    intro p a hown
    have hown : w.pieces.owner p = some a := hown
    rcases Writes.acquire_owner hw p with he | ⟨he, -⟩
    · exact Or.inl (he.symm.trans hown)
    · obtain rfl : t.addr = a := Option.some.inj (he.symm.trans hown)
      exact Or.inr (getLive_isLive hl)
  | @onSteal i t a p live ht hr hl =>
    exact h.of_owner (fun b => setState_isLive (getLive_isLive hl) _ b) rfl fun _ _ => Or.inl
  | onStealGone => exact h.of_owner (fun b => Iff.rfl) rfl fun _ _ => Or.inl
  | @addRequest i t p c chunks live ht hr hl =>
    exact h.of_owner (fun b => setState_isLive (getLive_isLive hl) _ b) rfl fun _ _ => Or.inl
  | @receive i t m c live w ht hl hw =>
    refine h.of_owner (fun b => setState_isLive (getLive_isLive hl) _ b) rfl ?_
    intro p a hown
    have hown : w.pieces.owner p = some a := hown
    rw [Writes.recv_pieces hw] at hown
    exact Or.inl hown
  | @write j e w b n hw =>
    refine h.of_owner (fun _ => Iff.rfl) rfl ?_
    intro p a hown
    have hown : w.pieces.owner p = some a := hown
    rcases Writes.run_owner hw p with he | he
    · exact Or.inl (he.symm.trans hown)
    · simp [he] at hown
  | disconnected n => exact h.of_owner (fun _ => Iff.rfl) rfl fun _ _ => Or.inl
  | @diedLive i t error ht hd hl hns =>
    exact h.of_entry rfl (fun b hb => setPeer_isLive_ne hb _)
      (fun b hb => Function.update_of_ne hb _ _) (fun p _ => Or.inr ⟨error, Function.update_self ..⟩)
      fun _ => setState_not_isLive (by simp)
  | @diedConnecting i t error ht hd hl hns =>
    refine h.of_entry rfl (fun b hb => setPeer_isLive_ne hb _)
      (fun b hb => Function.update_of_ne hb _ _) (fun p hown => ?_)
      fun _ => setState_not_isLive (by simp)
    exact absurd hown (h.not_owner hd hl p)
  | @diedIdle i t error p ht hd hl hns hp =>
    refine h.of_entry rfl (fun b hb => setPeer_isLive_ne hb _) (fun b _ => rfl)
      (fun q hown => ?_) fun hne => absurd hd hne
    exact absurd hown (h.not_owner hd hl q)
  | @release a error w hd hw =>
    refine ⟨?_, ?_⟩
    · intro p b hown
      have hkept : w.pieces.owner p = some b := hown
      rw [Writes.die_owner hw p] at hkept
      split_ifs at hkept with ha
      have hb : b ≠ a := by
        rintro rfl
        exact ha hkept
      change s.IsLive b ∨ ∃ error', Function.update s.dying a _ b = some (.releasing error')
      rw [Function.update_of_ne hb]
      exact h.owned p b hkept
    · intro b hdy
      change Function.update s.dying a _ b ≠ none at hdy
      refine h.locked b ?_
      intro hn
      by_cases hb : b = a
      · subst hb; simp [hd] at hn
      · rw [Function.update_of_ne hb] at hdy
        exact hdy hn
  | @close a error b hd =>
    refine h.of_entry rfl (fun c hc => setPeer_isLive_ne hc _)
      (fun c hc => Function.update_of_ne hc _ _) (fun p hown => ?_) fun hne => ?_
    · rcases h.owned p a hown with hl | ⟨e, he⟩
      · exact absurd hl (h.locked a (by simp [hd]))
      · simp [hd] at he
    · exact absurd (Function.update_self ..) hne
  | @update only w n hw =>
    refine h.of_owner (fun _ => Iff.rfl) rfl ?_
    intro p a hown
    have hown : w.pieces.owner p = some a := hown
    rw [Writes.update_owner hw] at hown
    exact Or.inl hown
  | reconnected n => exact h.of_owner (fun _ => Iff.rfl) rfl fun _ _ => Or.inl

theorem start_noOrphan (c : ChunkTracker l) : (start c).NoOrphan := by
  refine ⟨?_, fun a hd => absurd rfl hd⟩
  intro p a hown
  cases hown

/-- Two peers that have everything connect; one of them reserves a piece. -/
def connectTwo : List (LiveOp twoPieces) :=
  [.peer peerA .incomingConnection, .peer peerA (.updateBitfield (somePieces 0 2)),
    .peer peerB .incomingConnection, .peer peerB (.updateBitfield (somePieces 0 2)),
    .acquire 0 (plainRequest peerA)]

/-- The piece of `peerA` is deselected; `peerB` completes the torrent, `peerA` is set to
`NotNeeded` and its task ends. -/
def orphanFirst : List (LiveOp twoPieces) :=
  connectTwo ++
    [.updateOnlyFiles {1}, .acquire 1 (plainRequest peerB), .addRequest 1,
      .receive 1 ⟨1, 0, 16384⟩, .write 0 .check false, .write 0 (.write true) false,
      .write 0 (.mark 1) false, .write 0 .unlock false, .write 0 (.hashed .ok) false,
      .write 0 .completed false, .peer peerA .disconnectFull, .died 0 false]

end Live

end Rtbit
