import Rtbit.Lib.LockOrder
import Rtbit.Sanity.Torrent
import Rtbit.Spec.Locks

/-! The locks of a live torrent are taken in the order peers, then global state; a per-piece
lock is taken under the global lock and held across it, but nobody waits for one. The
exception is `update_only_files`, which sweeps the peer map under the global lock when a
selected piece is missing. -/

namespace Rtbit

open Lib

namespace PeerStates

variable {l : Lengths} {ps : PeerStates} {fs : List FileInfo}

/-- Shards in the order of the iterators, then the per-piece locks, then the global lock. -/
def lockOrder (l : Lengths) (ps : PeerStates) : Discipline (Lock l ps.shards) ℕ where
  rank
    | .shard i => i
    | .piece _ => ps.shards
    | .global => ps.shards + 1
  guard
    | .piece _ => some .global
    | _ => none

/-- The locks a task holds. -/
abbrev Guards (ps : PeerStates) (l : Lengths) : Type := List (Lock l ps.shards × Mode)

/-- A task with these locks may wait for the global lock. -/
def Outside (held : ps.Guards l) : Prop :=
  ∀ h ∈ held, h.1 ≠ .global ∧ ∀ p, h ≠ (.piece p, .write)

theorem Outside.mayTake {held : ps.Guards l} (h : Outside held) (m : Mode) :
    (lockOrder l ps).MayTake held .global m := by
  intro x hx
  obtain ⟨y, my⟩ := x
  have hy := (h _ hx).1
  cases y with
  | shard i =>
    change (i : ℕ) < ps.shards + 1
    omega
  | piece p => exact Nat.lt_succ_self _
  | global => exact absurd rfl hy

theorem guarded_iff {held : ps.Guards l} :
    (lockOrder l ps).Guarded held ↔ ∀ p, (.piece p, .write) ∈ held → (.global, .write) ∈ held := by
  constructor
  · exact fun h p hp => h _ _ hp rfl
  · intro h x g hx hg
    cases x with
    | piece p =>
      cases hg
      exact h p hx
    | shard i => cases hg
    | global => cases hg

theorem Outside.guarded {held : ps.Guards l} (h : Outside held) :
    (lockOrder l ps).Guarded held :=
  guarded_iff.2 fun p hp => absurd rfl ((h _ hp).2 p)

theorem outside_nil : Outside ([] : ps.Guards l) := by
  intro h hh
  cases hh

theorem outside_shard (i : Fin ps.shards) (m : Mode) :
    Outside ([(.shard i, m)] : ps.Guards l) := by
  simp [Outside]

theorem outside_piece (p : ValidPieceIndex l) :
    Outside ([(.piece p, .read)] : ps.Guards l) := by
  simp [Outside]

theorem mayTake_shard (i : Fin ps.shards) (m : Mode) :
    (lockOrder l ps).MayTake [] (.shard i) m := by
  intro h hh
  cases hh

section Programs

variable {A : Shared l → Prop} {held : ps.Guards l} {Q : ps.Guards l → Unit → Prop}

theorem withPeer_keeps {a : PeerHandle} {Q : ps.Guards l → Shared l → Prop}
    (hq : ∀ d, Q [] d) : (lockOrder l ps).Keeps A (ps.withPeer a) [] Q :=
  Discipline.keeps_withLock (mayTake_shard _ _) outside_nil.guarded fun d _ => ⟨rfl, hq d⟩

theorem withPeerMut_keeps {a : PeerHandle} {f : Shared l → Shared l}
    {Q : ps.Guards l → Shared l → Prop} (hq : ∀ d, Q [] d) :
    (lockOrder l ps).Keeps A (ps.withPeerMut a f) [] Q :=
  Discipline.keeps_withLock (mayTake_shard _ _) outside_nil.guarded fun d _ => ⟨rfl, hq d⟩

theorem lockWrite_keeps {f : Shared l → Shared l}
    {Q : ps.Guards l → Shared l → Prop} (ho : Outside held) (hq : ∀ d, Q held d) :
    (lockOrder l ps).Keeps A (ps.lockWrite f) held Q :=
  Discipline.keeps_withLock (ho.mayTake _) ho.guarded fun d _ => ⟨rfl, hq d⟩

theorem lockRead_keeps {Q : ps.Guards l → Shared l → Prop} (ho : Outside held)
    (hq : ∀ d, Q held d) : (lockOrder l ps).Keeps A (Prog.get.withLock .global .read) held Q :=
  Discipline.keeps_withLock (ho.mayTake _) ho.guarded fun d _ => ⟨rfl, hq d⟩

theorem isFinished_keeps {active : Bool} {Q : ps.Guards l → Bool → Prop}
    (ho : Outside held) (hq : ∀ b, Q held b) :
    (lockOrder l ps).Keeps A (ps.isFinishedAndNoActiveStreams active) held Q := by
  simp only [isFinishedAndNoActiveStreams, isFinished, Discipline.keeps_bind]
  refine lockRead_keeps ho ?_
  intro d
  simp only [Discipline.keeps_pure]
  split_ifs
  · simp only [Discipline.keeps_bind]
    exact lockRead_keeps ho fun _ => hq _
  · exact hq _

/-- The iterator takes the shards in ascending order. -/
theorem iterMutFrom_keeps {sweep : Sweep ps.shards} {m : PeerMove} {rest : List (Fin ps.shards)}
    {current : Option (Fin ps.shards)}
    (hsorted : (current.toList ++ rest).Pairwise (· < ·)) (hq : Q [] ()) :
    (lockOrder l ps).Keeps A (ps.iterMutFrom sweep m current rest)
      (current.toList.map fun i => (.shard i, .write)) Q := by
  have hempty : (lockOrder l ps).Guarded [] := outside_nil.guarded
  induction rest generalizing current with
  | nil =>
    cases current with
    | none => exact hq
    | some i => exact Discipline.keeps_unlock_cons hempty hq
  | cons i rest ih =>
    have hrest : ((some i).toList ++ rest).Pairwise (· < ·) := hsorted.sublist (by simp)
    have hnext := ih hrest
    have hdrop : (lockOrder l ps).Keeps A (ps.dropShard current)
        ((.shard i, .write) :: current.toList.map fun i => (.shard i, .write))
        fun held _ => held = [(.shard i, .write)] := by
      cases current with
      | none => rfl
      | some j =>
        have hij : j < i := (List.pairwise_append.1 hsorted).2.2 j (by simp) i List.mem_cons_self
        have hne : dropGuard (.shard j) [(Lock.shard i, Mode.write), (.shard j, .write)] =
            ([(.shard i, .write)] : ps.Guards l) := by
          simp [dropGuard, hij.ne']
        simp [dropShard, hne, (outside_shard i .write).guarded]
    simp only [iterMutFrom, Discipline.keeps_bind, Discipline.keeps_lock, Discipline.keeps_modify]
    refine ⟨?_, hdrop.mono ?_⟩
    · intro h hh
      obtain ⟨j, hj, rfl⟩ := List.mem_map.1 hh
      exact (List.pairwise_append.1 hsorted).2.2 j hj i List.mem_cons_self
    · intro held _ he
      subst he
      intro d _
      split_ifs
      · exact Discipline.keeps_unlock_cons hempty hq
      · exact hnext

theorem iterMut_keeps {sweep : Sweep ps.shards} {m : PeerMove} (hq : Q [] ()) :
    (lockOrder l ps).Keeps A (ps.iterMut sweep m) [] Q :=
  have hsorted : ((none : Option (Fin ps.shards)).toList ++ List.finRange ps.shards).Pairwise (· < ·) :=
    List.pairwise_lt_finRange _
  iterMutFrom_keeps hsorted hq

theorem eachShard_keeps {mode : Mode} {f : Fin ps.shards → Shared l → Shared l}
    {is : List (Fin ps.shards)} (hq : Q [] ()) :
    (lockOrder l ps).Keeps A (ps.eachShard mode f is) [] Q := by
  induction is with
  | nil => exact hq
  | cons i rest ih =>
    simp only [eachShard, Discipline.keeps_bind]
    exact Discipline.keeps_withLock (mayTake_shard _ _) outside_nil.guarded fun d _ => ⟨rfl, ih⟩

theorem onSteal_keeps {fromPeer toPeer : PeerHandle} {p : ValidPieceIndex l} (hq : Q [] ()) :
    (lockOrder l ps).Keeps A (ps.onSteal fromPeer toPeer p) [] Q := by
  simp only [onSteal, Discipline.keeps_bind]
  exact withPeer_keeps fun _ => withPeer_keeps fun _ => withPeerMut_keeps fun _ => hq

/-- `try_write` under the global lock; its guard is gone before anything else happens. -/
theorem canSteal_keeps {p : Option (ValidPieceIndex l)}
    {Q : ps.Guards l → Bool → Prop} (hg : (lockOrder l ps).Guarded held)
    (hglobal : (.global, .write) ∈ held) (hq : ∀ b, Q held b) :
    (lockOrder l ps).Keeps A (ps.canSteal p) held Q := by
  cases p with
  | none => exact hq false
  | some p =>
    simp only [canSteal, Discipline.keeps_bind, Discipline.keeps_tryLock]
    refine ⟨guarded_iff.2 fun _ _ => List.mem_cons_of_mem _ hglobal, ?_, hq false⟩
    rw [if_pos trivial, Discipline.keeps_bind]
    exact Discipline.keeps_unlock_cons hg (hq true)

theorem acquireNextPieceLocked_keeps {a : PeerHandle} {live : LivePeerState} {req : AcquireRequest l}
    {Q : ps.Guards l → Option (AcquireResult l) → Prop} (ho : Outside held)
    (hq : ∀ r, Q held r) :
    (lockOrder l ps).Keeps A (ps.acquireNextPieceLocked fs a live req) held Q := by
  refine Discipline.keeps_withLock (ho.mayTake _) ho.guarded ?_
  have hg : (lockOrder l ps).Guarded ((.global, .write) :: held) :=
    guarded_iff.2 fun _ _ => List.mem_cons_self
  simp only [Discipline.keeps_bind, Discipline.keeps_get]
  intro d _
  cases d.pieces with
  | none => exact ⟨rfl, hq none⟩
  | some t =>
    simp only [acquirePiece, Discipline.keeps_bind]
    refine canSteal_keeps hg List.mem_cons_self ?_
    intro b
    refine canSteal_keeps hg List.mem_cons_self ?_
    intro b' d _
    exact ⟨rfl, hq _⟩

theorem afterAcquire_keeps {a : PeerHandle} {r : Option (AcquireResult l)}
    {Q : ps.Guards l → Option (Option (ValidPieceIndex l)) → Prop}
    (hq : ∀ r, Q [] r) : (lockOrder l ps).Keeps A (ps.afterAcquire a r) [] Q := by
  cases r with
  | none => exact hq _
  | some r =>
    cases r with
    | reserved p => exact hq _
    | stolen p fromPeer =>
      simp only [afterAcquire, Discipline.keeps_bind]
      exact onSteal_keeps (hq _)
    | noneAvailable => exact hq _

theorem acquireNextPiece_keeps {a : PeerHandle} {choked : Bool} {req : AcquireRequest l}
    {Q : ps.Guards l → Option (Option (ValidPieceIndex l)) → Prop}
    (hq : ∀ r, Q [] r) : (lockOrder l ps).Keeps A (ps.acquireNextPiece fs a choked req) [] Q := by
  simp only [acquireNextPiece, Discipline.keeps_bind]
  -- whatever the closure returns, the entry is unlocked before `on_steal`
  refine Discipline.keeps_withLock (mayTake_shard _ _) outside_nil.guarded ?_
  simp only [Discipline.keeps_bind, Discipline.keeps_get]
  intro d _
  cases d.getLive a with
  | none => exact ⟨rfl, afterAcquire_keeps hq⟩
  | some live =>
    dsimp only
    split_ifs
    · exact ⟨rfl, afterAcquire_keeps hq⟩
    · exact acquireNextPieceLocked_keeps (outside_shard _ _) fun r => ⟨rfl, afterAcquire_keeps hq⟩

theorem addRequests_keeps {a : PeerHandle} {chunks : List ChunkInfo} (hq : Q [] ()) :
    (lockOrder l ps).Keeps A (ps.addRequests a chunks) [] Q := by
  induction chunks with
  | nil => exact hq
  | cons c chunks ih =>
    simp only [addRequests, Discipline.keeps_bind]
    refine withPeerMut_keeps ?_
    intro d
    split_ifs
    · exact ih
    · exact hq

theorem chunkRequester_keeps {a : PeerHandle} {choked active : Bool} {req : AcquireRequest l}
    (hq : Q [] ()) :
    (lockOrder l ps).Keeps A (ps.chunkRequester fs a choked active req) [] Q := by
  simp only [chunkRequester, Discipline.keeps_bind]
  refine isFinished_keeps outside_nil ?_
  intro finished
  split_ifs
  · simp only [Discipline.keeps_bind]
    exact withPeer_keeps fun _ => hq
  · simp only [Discipline.keeps_bind]
    refine acquireNextPiece_keeps ?_
    intro next
    split
    · exact addRequests_keeps hq
    · exact hq

theorem onPieceCompleted_keeps {p : ValidPieceIndex l} {active : Bool} (hq : Q [] ()) :
    (lockOrder l ps).Keeps A (ps.onPieceCompleted fs p active) [] Q := by
  simp only [onPieceCompleted, Discipline.keeps_bind]
  refine lockWrite_keeps outside_nil ?_
  intro d
  split_ifs
  · exact iterMut_keeps hq
  · exact hq

theorem checkPiece_keeps {a : PeerHandle} {p : ValidPieceIndex l} {o : DiskOutcome} (hq : Q [] ()) :
    (lockOrder l ps).Keeps A (ps.checkPiece fs a p o) [] Q := by
  unfold checkPiece
  cases o.hash with
  | ok =>
    simp only [Discipline.keeps_bind]
    refine lockWrite_keeps outside_nil ?_
    intro d
    split_ifs
    · simp only [Discipline.keeps_bind]
      exact withPeerMut_keeps fun _ => onPieceCompleted_keeps hq
    · exact hq
  | failed =>
    simp only [Discipline.keeps_bind]
    exact lockWrite_keeps outside_nil fun _ => hq
  | ioError => exact hq

/-- The read side of the per-piece lock is taken under the global lock and kept when that is
dropped and taken again. -/
theorem writeToDisk_keeps {a : PeerHandle} {m : PieceMsg} {p : ValidPieceIndex l} {o : DiskOutcome}
    (hq : Q [] ()) : (lockOrder l ps).Keeps A (ps.writeToDisk fs a m p o) [] Q := by
  have hempty : (lockOrder l ps).Guarded [] := outside_nil.guarded
  have hglobal : dropGuard .global [(Lock.piece p, Mode.read), (.global, .read)] =
      ([(.piece p, .read)] : ps.Guards l) := by simp [dropGuard]
  simp only [writeToDisk, Discipline.keeps_bind, Discipline.keeps_lock, Discipline.keeps_get]
  refine ⟨outside_nil.mayTake _, ⟨rfl, by simp, by simp⟩, ?_⟩
  intro d _
  split_ifs with hown hwritten
  · simp only [Discipline.keeps_bind, Discipline.keeps_unlock, hglobal]
    refine ⟨(outside_piece p).guarded, lockWrite_keeps (outside_piece p) ?_⟩
    intro d
    simp only [Discipline.dropGuard_cons]
    refine ⟨hempty, ?_⟩
    split_ifs
    · exact checkPiece_keeps hq
    · exact hq
  · simp only [Discipline.keeps_bind, Discipline.keeps_unlock, hglobal]
    refine ⟨(outside_piece p).guarded, lockWrite_keeps (outside_piece p) ?_⟩
    intro _
    rw [Discipline.dropGuard_cons]
    exact ⟨hempty, hq⟩
  · simp only [Discipline.keeps_bind, Discipline.keeps_unlock, Discipline.dropGuard_cons]
    exact ⟨guarded_iff.2 (by simp), hempty, hq⟩

theorem onReceivedPiece_keeps {a : PeerHandle} {m : PieceMsg} {o : DiskOutcome} (hq : Q [] ()) :
    (lockOrder l ps).Keeps A (ps.onReceivedPiece fs a m o) [] Q := by
  unfold onReceivedPiece
  split
  · exact hq
  · split
    · exact hq
    · simp only [Discipline.keeps_bind]
      refine withPeerMut_keeps ?_
      intro d
      split_ifs
      · exact writeToDisk_keeps hq
      · exact hq

theorem unlockEntry_keeps {a : PeerHandle} (hq : Q [] ()) :
    (lockOrder l ps).Keeps A (.unlock (ps.lockOf a)) [(ps.lockOf a, .write)] Q :=
  Discipline.keeps_unlock_cons outside_nil.guarded hq

theorem closePeer_keeps {a : PeerHandle} {o : Death} (hq : Q [] ()) :
    (lockOrder l ps).Keeps A (ps.closePeer a o) [(ps.lockOf a, .write)] Q := by
  unfold closePeer
  split_ifs
  · simp only [Discipline.keeps_bind, Discipline.keeps_modify]
    refine isFinished_keeps (outside_shard _ _) ?_
    intro notNeeded d _
    refine unlockEntry_keeps ?_
    split_ifs
    · simp only [Discipline.keeps_bind]
      exact withPeerMut_keeps fun _ => hq
    · exact hq
  · simp only [Discipline.keeps_bind, Discipline.keeps_modify]
    exact fun d _ => unlockEntry_keeps hq

/-- The global lock is taken with the entry of the dead peer locked, never the other way. -/
theorem onPeerDied_keeps {a : PeerHandle} {o : Death} (hq : Q [] ()) :
    (lockOrder l ps).Keeps A (ps.onPeerDied a o) [] Q := by
  simp only [onPeerDied, Discipline.keeps_bind, Discipline.keeps_lock, Discipline.keeps_get]
  refine ⟨mayTake_shard _ _, ?_⟩
  intro d _
  cases (d.peers a).map Peer.state with
  | none => exact unlockEntry_keeps hq
  | some st =>
    cases st with
    | live live =>
      simp only [Discipline.keeps_bind]
      intro d _
      refine lockWrite_keeps (outside_shard _ _) ?_
      intro d
      split_ifs
      · exact closePeer_keeps hq
      · exact unlockEntry_keeps hq
    | connecting =>
      simp only [Discipline.keeps_bind]
      exact fun d _ => closePeer_keeps hq
    | notNeeded => exact unlockEntry_keeps hq
    | queued | dead =>
      simp only [Discipline.keeps_bind]
      exact fun d _ => unlockEntry_keeps (withPeerMut_keeps fun _ => hq)

theorem pruneDeadPeers_keeps {expired : PeerHandle → Bool} {logged : Bool} (hq : Q [] ()) :
    (lockOrder l ps).Keeps A (ps.pruneDeadPeers expired logged) [] Q := by
  simp only [pruneDeadPeers, Discipline.keeps_bind]
  refine eachShard_keeps ?_
  split_ifs
  · exact eachShard_keeps hq
  · exact hq

/-- Without the sweep, `update_only_files` takes the global lock only. -/
theorem updateOnlyFiles_keeps {only : Finset ℕ} {sweep : Sweep ps.shards}
   
    (hA : ∀ d, A d → d.leavesMissing fs only = false) (hq : Q [] ()) :
    (lockOrder l ps).Keeps A (ps.updateOnlyFiles fs only sweep) [] Q := by
  refine Discipline.keeps_withLock (outside_nil.mayTake _) outside_nil.guarded ?_
  simp only [Discipline.keeps_bind, Discipline.keeps_modify]
  intro d hd
  rw [hA d hd]
  exact ⟨rfl, hq⟩

end Programs

/-- `update_only_files` leaves no selected piece missing. -/
def SelectsPresent (fs : List FileInfo) : Call l ps.shards → Shared l → Prop
  | .updateOnlyFiles only _, d => d.leavesMissing fs only = false
  | _, _ => True

instance : (c : Call l ps.shards) → (d : Shared l) → Decidable (SelectsPresent fs c d)
  | .updateOnlyFiles only _, d => inferInstanceAs (Decidable (d.leavesMissing fs only = false))
  | .peer _ _, _ | .chunkRequester _ _ _ _, _ | .onReceivedPiece _ _ _, _ | .onPeerDied _ _, _
  | .requeueDeadPeers _, _ | .pruneDeadPeers _ _, _ | .pause, _ => isTrue trivial

theorem body_keeps (c : Call l ps.shards) :
    (lockOrder l ps).Keeps (SelectsPresent fs c) (ps.body fs c) [] fun held _ => held = [] := by
  cases c with
  | peer a m =>
    simp only [body, Discipline.keeps_bind]
    exact withPeerMut_keeps fun _ => rfl
  | chunkRequester a choked active req => exact chunkRequester_keeps rfl
  | onReceivedPiece a m o => exact onReceivedPiece_keeps rfl
  | onPeerDied a o => exact onPeerDied_keeps rfl
  | updateOnlyFiles only sweep => exact updateOnlyFiles_keeps (fun d hd => hd) rfl
  | requeueDeadPeers sweep => exact iterMut_keeps rfl
  | pruneDeadPeers expired logged => exact pruneDeadPeers_keeps rfl
  | pause =>
    simp only [body, pause, Discipline.keeps_bind]
    exact lockWrite_keeps outside_nil fun _ => rfl

/-- In every run in which `update_only_files` leaves no selected piece missing, no task takes
a shard of the peer map while it holds the global lock, and no tasks wait for each other in
a cycle. -/
theorem selectsPresent_lock_order (l : Lengths) (ps : PeerStates) (fs : List FileInfo)
    (c : ChunkTracker l) (evs : List (TaskEvent (Call l ps.shards)))
    (s : System (Lock l ps.shards) (Shared l) (Call l ps.shards))
    (hr : Run (System.step (ps.body fs)) (System.Meets (SelectsPresent fs))
      ⟨Shared.start c, []⟩ evs s) :
    (∀ i j m, s.tasks[i]?.bind (fun t => t.prog.next) = some (.shard j, m) → ¬s.Holds i .global) ∧
      ∀ i, ¬Relation.TransGen s.WaitsFor i i := by
  have hinv : (lockOrder l ps).Inv (SelectsPresent fs) s := Discipline.Inv.of_run body_keeps hr
  refine ⟨?_, hinv.no_cycle⟩
  intro i j m hnext hh
  obtain ⟨t, ht, hp⟩ := Option.bind_eq_some_iff.1 hnext
  obtain ⟨u, hu, h, hm, hglobal⟩ := hh
  obtain rfl := Option.some.inj (ht.symm.trans hu)
  have hrank := hinv.mayTake (List.mem_of_getElem? ht) hp h hm
  rw [hglobal] at hrank
  change ps.shards + 1 < (j : ℕ) at hrank
  omega

/-- Two shards, with `peerA` in the first. -/
def twoShards : PeerStates := ⟨2, fun a => if a = peerA then 0 else 1⟩

/-- `peerA` connects; `update_only_files` takes the global lock and `on_peer_died` the entry of
`peerA`, and each goes on to its next lock. -/
def selectWhileDying (only : Finset ℕ) : List (TaskEvent (Call twoPieces twoShards.shards)) :=
  [.call (.peer peerA .incomingConnection), .run 0, .run 0, .run 0,
    .call (.updateOnlyFiles only (.full _)), .call (.onPeerDied peerA ⟨true, true, false, false⟩),
    .run 1, .run 2, .run 1, .run 2, .run 2]

theorem selectWhileDying_lock_order : ∃ c s,
    ChunkTracker.new (l := twoPieces) (somePieces 0 0) (somePieces 0 2) twoFiles = .ok c ∧
      Run (System.step (twoShards.body twoFiles)) (System.Meets (SelectsPresent twoFiles))
        ⟨Shared.start c, []⟩ (selectWhileDying ∅) s ∧
      s.WaitsFor 2 1 ∧ ∀ i, ¬Relation.TransGen s.WaitsFor i i := by
  have hrun : ∃ c s,
      ChunkTracker.new (l := twoPieces) (somePieces 0 0) (somePieces 0 2) twoFiles = .ok c ∧
        Run (System.step (twoShards.body twoFiles)) (System.Meets (SelectsPresent twoFiles))
          ⟨Shared.start c, []⟩ (selectWhileDying ∅) s ∧
        decide (s.Waits 2 .global .write ∧ s.Holds 1 .global) = true := exists_run (by decide +kernel)
  obtain ⟨c, s, hc, hr, hq⟩ := hrun
  obtain ⟨hwaits, hholds⟩ := of_decide_eq_true hq
  exact ⟨c, s, hc, hr, ⟨_, _, hwaits, hholds⟩, (selectsPresent_lock_order _ _ _ _ _ _ hr).2⟩

/-- A selected piece is missing: `update_only_files` waits for the shard of `peerA` under the
global lock, for which `on_peer_died` waits with the shard locked. -/
theorem update_only_files_deadlocks : ∃ c s,
    ChunkTracker.new (l := twoPieces) (somePieces 0 0) (somePieces 0 2) twoFiles = .ok c ∧
      Run (System.step (twoShards.body twoFiles)) Any ⟨Shared.start c, []⟩ (selectWhileDying {0}) s ∧
      (s.Waits 1 (twoShards.lockOf peerA) .write ∧ s.Holds 1 .global) ∧
      Relation.TransGen s.WaitsFor 1 1 := by
  have hrun : ∃ c s,
      ChunkTracker.new (l := twoPieces) (somePieces 0 0) (somePieces 0 2) twoFiles = .ok c ∧
        Run (System.step (twoShards.body twoFiles)) Any ⟨Shared.start c, []⟩ (selectWhileDying {0}) s ∧
        decide ((s.Waits 1 (twoShards.lockOf peerA) .write ∧ s.Holds 1 .global) ∧
          s.Waits 2 .global .write ∧ s.Holds 2 (twoShards.lockOf peerA)) = true :=
    exists_run (by decide +kernel)
  obtain ⟨c, s, hc, hr, hq⟩ := hrun
  obtain ⟨h1, h2⟩ := of_decide_eq_true hq
  have h12 : s.WaitsFor 1 2 := ⟨_, _, h1.1, h2.2⟩
  have h21 : s.WaitsFor 2 1 := ⟨_, _, h2.1, h1.2⟩
  exact ⟨c, s, hc, hr, h1, (Relation.TransGen.single h12).tail h21⟩

end PeerStates

end Rtbit
