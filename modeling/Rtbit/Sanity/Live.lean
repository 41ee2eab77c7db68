import Rtbit.Sanity.WriteToDisk
import Rtbit.Spec.Live

/-! The steps of a live torrent, taken apart once, and what they do to the owners of the
pieces. -/

namespace Rtbit

open Lib

namespace Writes

variable {l : Lengths} {fs : List FileInfo} {s s' : Writes l} {p : ValidPieceIndex l}

/-- What `acquire_piece` returns, and who owns the pieces afterwards. -/
theorem acquire_spec {req : AcquireRequest l} (h : step fs s (.acquire req) = some s') :
    (∃ q, (s.pieces.acquirePiece (s.request req)).1 = .reserved q ∧
      ∀ p, s'.pieces.owner p = if q = p then some req.peer else s.pieces.owner p) ∨
    (∃ q a, (s.pieces.acquirePiece (s.request req)).1 = .stolen q a ∧ s.pieces.owner q = some a ∧
      a ≠ req.peer ∧ ∀ p, s'.pieces.owner p = if q = p then some req.peer else s.pieces.owner p) ∨
    (s.pieces.acquirePiece (s.request req)).1 = .noneAvailable ∧
      ∀ p, s'.pieces.owner p = s.pieces.owner p := by
  injection h with h
  obtain rfl : { s with pieces := (s.pieces.acquirePiece (s.request req)).2 } = s' := h
  have hacq := s.pieces.acquire_cases (s.request req)
  dsimp only
  generalize (s.pieces.acquirePiece (s.request req)).2 = t at hacq ⊢
  generalize (s.pieces.acquirePiece (s.request req)).1 = res at hacq ⊢
  cases hacq with
  | @steal _ q a hc hs =>
    obtain ⟨ho, hne, -⟩ := PieceTracker.stealCandidate_some hc
    exact Or.inr (Or.inl ⟨q, a, rfl, ho, hne, fun p => PieceTracker.stolenBy_owner ..⟩)
  | @priority q h10 hp => exact Or.inl ⟨q, rfl, fun p => PieceTracker.reservedBy_owner ..⟩
  | @queue q hp => exact Or.inl ⟨q, rfl, fun p => PieceTracker.reservedBy_owner ..⟩
  | nothing => exact Or.inr (Or.inr ⟨rfl, fun p => rfl⟩)

/-- A piece changes hands only to the peer that acquires it. -/
theorem acquire_owner {req : AcquireRequest l} (h : step fs s (.acquire req) = some s')
    (p : ValidPieceIndex l) : s'.pieces.owner p = s.pieces.owner p ∨
      s'.pieces.owner p = some req.peer ∧
        ((∃ a, (s.pieces.acquirePiece (s.request req)).1 = .stolen p a ∧ s.pieces.owner p = some a) ∨
          (s.pieces.acquirePiece (s.request req)).1 = .reserved p) := by
  rcases acquire_spec h with ⟨q, hres, ho⟩ | ⟨q, a, hres, hown, -, ho⟩ | ⟨-, ho⟩
  · by_cases hq : q = p
    · subst hq
      exact Or.inr ⟨by rw [ho, if_pos rfl], Or.inr hres⟩
    · exact Or.inl (by rw [ho, if_neg hq])
  · by_cases hq : q = p
    · subst hq
      exact Or.inr ⟨by rw [ho, if_pos rfl], Or.inl ⟨a, hres, hown⟩⟩
    · exact Or.inl (by rw [ho, if_neg hq])
  · exact Or.inl (ho p)

/-- A run takes a piece out of flight only when it marks the last chunk. -/
theorem run_owner {i : ℕ} {e : RunStep} (h : step fs s (.run i e) = some s')
    (p : ValidPieceIndex l) : s'.pieces.owner p = s.pieces.owner p ∨
      s'.pieces.owner p = none ∧ ∃ r now, s.runs[i]? = some r ∧ e = .mark now ∧ r.piece = p ∧
        (s.pieces.markChunkDownloaded r.msg).map Prod.fst = some .completed := by
  obtain ⟨r, t, ph, hr, hm, rfl⟩ := run_step h
  cases hm with
  | @mark now _ _ hp hph hmark howner _ hcompl =>
    change t.owner p = _ ∨ t.owner p = none ∧ _
    rw [howner]
    split_ifs with hw
    · exact Or.inr ⟨rfl, r, now, hr, rfl, hw.2, hcompl hw.1⟩
    · exact Or.inl rfl
  | _ => exact Or.inl rfl

theorem recv_pieces {a : PeerHandle} {m : PieceMsg} (h : step fs s (.recv a m) = some s') :
    s'.pieces = s.pieces := by
  obtain ⟨r, -, -, rfl⟩ := recv_step h
  rfl

theorem die_owner {a : PeerHandle} (h : step fs s (.die a) = some s') (p : ValidPieceIndex l) :
    s'.pieces.owner p = if s.pieces.owner p = some a then none else s.pieces.owner p := by
  injection h with h
  subst h
  exact s.pieces.released_owner p a

theorem update_owner {only : Finset ℕ} (h : step fs s (.updateOnlyFiles only) = some s')
    (p : ValidPieceIndex l) : s'.pieces.owner p = s.pieces.owner p := by
  injection h with h
  subst h
  rfl

end Writes

namespace Live

variable {l : Lengths} {fs : List FileInfo} {s s' : Live l}

/-- The entry of `a` is live. -/
def IsLive (s : Live l) (a : PeerHandle) : Prop := ∃ live out, s.peers a = some ⟨.live live, out⟩

theorem isLive_iff {a : PeerHandle} :
    ((s.peers a).any fun p => match p.state with | .live _ => true | _ => false) = true ↔ s.IsLive a := by
  simp only [Option.any_eq_true]
  constructor
  · rintro ⟨⟨st, out⟩, hp, hl⟩
    cases st with
    | live lp => exact ⟨lp, out, hp⟩
    | _ => cases hl
  · rintro ⟨lp, out, hp⟩
    exact ⟨_, hp, rfl⟩

instance (s : Live l) (a : PeerHandle) : Decidable (s.IsLive a) := decidable_of_iff _ isLive_iff

theorem getLive_some {a : PeerHandle} {live : LivePeerState} (h : s.getLive a = some live) :
    s.dying a = none ∧ ∃ out, s.peers a = some ⟨.live live, out⟩ := by
  unfold getLive at h
  split at h
  next out hd hp =>
    injection h with h
    subst h
    exact ⟨hd, out, hp⟩
  · cases h

theorem getLive_isLive {a : PeerHandle} {live : LivePeerState} (h : s.getLive a = some live) :
    s.IsLive a := by
  obtain ⟨-, out, hp⟩ := getLive_some h
  exact ⟨live, out, hp⟩

/-- The steps that are taken, with what they need and do. -/
inductive Steps (fs : List FileInfo) (s : Live l) : LiveOp l → Live l → Prop
  | peer {a m p} : s.dying a = none → s.allowed m = true →
      m.apply l.totalPieces a (s.peers a) = some p →
      Steps fs s (.peer a m) { s.setPeer a p with tasks := s.tasks ++ spawned a m }
  | acquire {i t live w} (req) : s.tasks[i]? = some t → t.requester = .idle →
      s.getLive t.addr = some live →
      s.writes.step fs (.acquire (request fs t.addr live req)) = some w →
      Steps fs s (.acquire i req)
        ((s.setWrites w).setRequester i (nextRequester (s.acquired fs t.addr live req)))
  | onSteal {i t a} {p : ValidPieceIndex l} {live} : s.tasks[i]? = some t → t.requester = .stealing a p →
      s.getLive a = some live →
      Steps fs s (.onSteal i) ((s.setState a (.live (live.cancel p))).setRequester i
        (.requesting p (l.iterChunkInfos p)))
  | onStealGone {i t a p} : s.tasks[i]? = some t → t.requester = .stealing a p →
      ¬s.IsLive a →
      Steps fs s (.onSteal i) (s.setRequester i (.requesting p (l.iterChunkInfos p)))
  | addRequest {i t p c chunks live} : s.tasks[i]? = some t →
      t.requester = .requesting p (c :: chunks) → s.getLive t.addr = some live →
      Steps fs s (.addRequest i)
        ((s.setState t.addr (.live (live.insert c (s.requeues p)))).setRequester i
          (if chunks.isEmpty then .idle else .requesting p chunks))
  | receive {i t m c live w} : s.tasks[i]? = some t → s.getLive t.addr = some live →
      s.writes.step fs (.recv t.addr m) = some w →
      Steps fs s (.receive i m) { s.setState t.addr (.live (live.remove c)) with writes := w }
  | write {j e w} (b n) : s.writes.step fs (.run j e) = some w →
      Steps fs s (.write j e b) { s.setWrites w with disconnecting := n }
  | disconnected (n) : Steps fs s .disconnected { s with disconnecting := n }
  | diedLive {i t} (error) : s.tasks[i]? = some t → s.dying t.addr = none → s.IsLive t.addr →
      (∀ a p, t.requester ≠ .stealing a p) →
      Steps fs s (.died i error)
        (take { s with tasks := s.tasks.eraseIdx i } t.addr (.releasing error))
  | diedConnecting {i t} (error) : s.tasks[i]? = some t → s.dying t.addr = none →
      ¬s.IsLive t.addr → (∀ a p, t.requester ≠ .stealing a p) →
      Steps fs s (.died i error)
        (take { s with tasks := s.tasks.eraseIdx i } t.addr (.closing error))
  | diedIdle {i t} (error p) : s.tasks[i]? = some t → s.dying t.addr = none → ¬s.IsLive t.addr →
      (∀ a p, t.requester ≠ .stealing a p) → p = s.peers t.addr ∨ p = none →
      Steps fs s (.died i error) (setPeer { s with tasks := s.tasks.eraseIdx i } t.addr p)
  | release {a error w} : s.dying a = some (.releasing error) →
      s.writes.step fs (.die a) = some w →
      Steps fs s (.release a)
        { s.setWrites w with dying := Function.update s.dying a (some (.closing error)) }
  | close {a error} (b) : s.dying a = some (.closing error) →
      Steps fs s (.close a b)
        { s.setState a (s.deadState error b) with dying := Function.update s.dying a none }
  | update {only w} (n) : s.writes.step fs (.updateOnlyFiles only) = some w →
      Steps fs s (.updateOnlyFiles only) { s.setWrites w with reconnecting := n }
  | reconnected (n) : Steps fs s .reconnected { s with reconnecting := n }

theorem onPeerDied_cases (a : PeerHandle) (error : Bool) :
    s.IsLive a ∧ s.onPeerDied a error = s.take a (.releasing error) ∨
      ¬s.IsLive a ∧ (s.onPeerDied a error = s.take a (.closing error) ∨
        s.onPeerDied a error = s ∨ s.onPeerDied a error = s.setPeer a none) := by
  have hnot (st : PeerState) (out : Option PeerHandle) (h : ∀ live, st ≠ .live live)
      (hp : s.peers a = some ⟨st, out⟩) : ¬s.IsLive a := by
    rintro ⟨live, out', he⟩
    rw [hp] at he
    injection he with he
    injection he with he
    exact h live he
  unfold onPeerDied
  cases hp : s.peers a with
  | none => exact Or.inr ⟨fun ⟨_, _, he⟩ => by simp [hp] at he, Or.inr (Or.inl rfl)⟩
  | some p =>
    obtain ⟨st, out⟩ := p
    cases st with
    | live lp => exact Or.inl ⟨⟨lp, out, hp⟩, rfl⟩
    | connecting => exact Or.inr ⟨hnot _ out (by simp) hp, Or.inl rfl⟩
    | notNeeded => exact Or.inr ⟨hnot _ out (by simp) hp, Or.inr (Or.inl rfl)⟩
    | queued => exact Or.inr ⟨hnot _ out (by simp) hp, Or.inr (Or.inr rfl)⟩
    | dead => exact Or.inr ⟨hnot _ out (by simp) hp, Or.inr (Or.inr rfl)⟩

theorem step_steps {op : LiveOp l} (h : step fs s op = some s') : Steps fs s op s' := by
  cases op with
  | peer a m =>
    simp only [step] at h
    split_ifs at h with hok
    obtain ⟨p, hp, rfl⟩ := Option.map_eq_some_iff.1 h
    exact .peer hok.1 hok.2 hp
  | acquire i req =>
    obtain ⟨t, ht, h⟩ := Option.bind_eq_some_iff.1 h
    cases hr : t.requester <;> simp only [hr, reduceCtorEq] at h
    obtain ⟨live, hl, h⟩ := Option.bind_eq_some_iff.1 h
    obtain ⟨w, hw, rfl⟩ := Option.map_eq_some_iff.1 h
    exact .acquire req ht hr hl hw
  | onSteal i =>
    obtain ⟨t, ht, h⟩ := Option.bind_eq_some_iff.1 h
    cases hr : t.requester <;> simp only [hr, reduceCtorEq] at h
    next a p =>
      split_ifs at h with hd
      cases hl : s.getLive a with
      | some live =>
        simp only [hl, Option.some.injEq] at h
        subst h
        exact .onSteal ht hr hl
      | none =>
        simp only [hl, Option.some.injEq] at h
        subst h
        refine .onStealGone ht hr ?_
        rintro ⟨live, out, hp⟩
        simp [getLive, hd, hp] at hl
  | addRequest i =>
    obtain ⟨t, ht, h⟩ := Option.bind_eq_some_iff.1 h
    cases hr : t.requester <;> simp only [hr, reduceCtorEq] at h
    next p chunks =>
      cases chunks with
      | nil => cases h
      | cons c chunks =>
        obtain ⟨live, hl, rfl⟩ := Option.map_eq_some_iff.1 h
        exact .addRequest ht hr hl
  | receive i m =>
    obtain ⟨t, ht, h⟩ := Option.bind_eq_some_iff.1 h
    obtain ⟨p, -, h⟩ := Option.bind_eq_some_iff.1 h
    obtain ⟨c, -, h⟩ := Option.bind_eq_some_iff.1 h
    obtain ⟨live, hl, h⟩ := Option.bind_eq_some_iff.1 h
    split_ifs at h
    obtain ⟨w, hw, rfl⟩ := Option.map_eq_some_iff.1 h
    exact .receive ht hl hw
  | write j e b =>
    obtain ⟨w, hw, rfl⟩ := Option.map_eq_some_iff.1 h
    simp only
    split_ifs
    · exact .write b _ hw
    · exact .write b s.disconnecting hw
  | disconnected =>
    simp only [step] at h
    split_ifs at h
    injection h with h
    exact h ▸ .disconnected _
  | died i error =>
    obtain ⟨t, ht, h⟩ := Option.bind_eq_some_iff.1 h
    split_ifs at h with hok
    injection h with h
    subst h
    have hns : ∀ a p, t.requester ≠ .stealing a p := by
      intro a p hr
      simp [hr, Requester.isStealing] at hok
    rcases onPeerDied_cases (s := { s with tasks := s.tasks.eraseIdx i }) t.addr error with
      ⟨hl, he⟩ | ⟨hl, he | he | he⟩
    · exact he ▸ .diedLive error ht hok.2 hl hns
    · exact he ▸ .diedConnecting error ht hok.2 hl hns
    · rw [he]
      have hself : setPeer { s with tasks := s.tasks.eraseIdx i } t.addr (s.peers t.addr) =
          { s with tasks := s.tasks.eraseIdx i } := by
        simp [setPeer]
      exact hself ▸ .diedIdle error _ ht hok.2 hl hns (Or.inl rfl)
    · exact he ▸ .diedIdle error none ht hok.2 hl hns (Or.inr rfl)
  | release a =>
    simp only [step] at h
    split at h
    next error hd =>
      obtain ⟨w, hw, rfl⟩ := Option.map_eq_some_iff.1 h
      exact .release hd hw
    · cases h
  | close a b =>
    simp only [step] at h
    split at h
    next error hd =>
      injection h with h
      exact h ▸ .close b hd
    · cases h
  | updateOnlyFiles only =>
    simp only [step] at h
    obtain ⟨w, hw, rfl⟩ := Option.map_eq_some_iff.1 h
    split_ifs
    · exact .update s.reconnecting hw
    · exact .update _ hw
  | reconnected =>
    simp only [step] at h
    split_ifs at h
    injection h with h
    exact h ▸ .reconnected _

/-- A piece changes hands only to a peer that acquires it. -/
theorem step_owner {op : LiveOp l} (h : step fs s op = some s') (p : ValidPieceIndex l) :
    s'.owner p = s.owner p ∨ s'.owner p = none ∨
      ∃ i req t live, op = .acquire i req ∧ s.tasks[i]? = some t ∧ s.getLive t.addr = some live ∧
        s'.owner p = some t.addr ∧ (s.acquired fs t.addr live req = .reserved p ∨
          ∃ a, s.acquired fs t.addr live req = .stolen p a) := by
  cases step_steps h with
  | @acquire i t live w req ht hr hl hw =>
    rcases Writes.acquire_owner hw p with he | ⟨ho, hres⟩
    · exact Or.inl he
    · refine Or.inr (Or.inr ⟨i, req, t, live, rfl, ht, hl, ho, ?_⟩)
      rcases hres with ⟨a, hst, -⟩ | hres
      · exact Or.inr ⟨a, hst⟩
      · exact Or.inl hres
  | @receive i t m c live w ht hl hw =>
    left
    change w.pieces.owner p = s.writes.pieces.owner p
    rw [Writes.recv_pieces hw]
  | write b n hw =>
    rcases Writes.run_owner hw p with he | ⟨he, -⟩
    · exact Or.inl he
    · exact Or.inr (Or.inl he)
  | release hd hw =>
    have hdie := Writes.die_owner hw p
    split_ifs at hdie
    · exact Or.inr (Or.inl hdie)
    · exact Or.inl hdie
  | update n hw => exact Or.inl (Writes.update_owner hw p)
  | _ => exact Or.inl rfl

/-! The entries of the peer map after a change of one of them. -/

theorem setPeer_isLive_ne {a b : PeerHandle} (h : b ≠ a) (p : Option Peer) :
    (s.setPeer a p).IsLive b ↔ s.IsLive b := by
  unfold IsLive
  simp only [setPeer, Function.update_of_ne h]

theorem setPeer_isLive_self {a : PeerHandle} (p : Option Peer) :
    (s.setPeer a p).IsLive a ↔ ∃ live out, p = some ⟨.live live, out⟩ := by
  unfold IsLive
  simp only [setPeer, Function.update_self]

theorem setState_isLive {a : PeerHandle} (h : s.IsLive a) (live : LivePeerState) (b : PeerHandle) :
    (s.setState a (.live live)).IsLive b ↔ s.IsLive b := by
  by_cases hb : b = a
  · subst hb
    obtain ⟨lp, out, hp⟩ := h
    refine ⟨fun _ => ⟨lp, out, hp⟩, ?_⟩
    intro _
    rw [setState, setPeer_isLive_self]
    exact ⟨live, out, by simp [hp]⟩
  · exact setPeer_isLive_ne hb _

theorem setState_not_isLive {a : PeerHandle} {st : PeerState} (h : ∀ live, st ≠ .live live) :
    ¬(s.setState a st).IsLive a := by
  rw [setState, setPeer_isLive_self]
  rintro ⟨live, out, he⟩
  obtain ⟨p, -, hp⟩ := Option.map_eq_some_iff.1 he
  injection hp with hst
  exact h live hst

theorem deadState_ne (error activeStreams : Bool) (live : LivePeerState) :
    s.deadState error activeStreams ≠ .live live := by
  unfold deadState
  split_ifs <;> simp

/-! The tasks after one of them has moved. -/

theorem mem_setRequester {i : ℕ} {r : Requester l} {k : PeerTask l}
    (h : k ∈ (s.setRequester i r).tasks) :
    (∃ k₀, s.tasks[i]? = some k₀ ∧ k = { k₀ with requester := r }) ∨ k ∈ s.tasks := by
  obtain ⟨j, h⟩ := List.mem_iff_getElem?.1 h
  change (s.tasks.modify i _)[j]? = some k at h
  by_cases hj : i = j
  · subst hj
    rw [List.getElem?_modify_eq] at h
    obtain ⟨k₀, hk₀, he⟩ := Option.map_eq_some_iff.1 h
    exact Or.inl ⟨k₀, hk₀, he.symm⟩
  · rw [List.getElem?_modify_ne _ _ hj] at h
    exact Or.inr (List.mem_of_getElem? h)

theorem setRequester_mem {i : ℕ} (r : Requester l) {t k : PeerTask l} (ht : s.tasks[i]? = some t)
    (hk : k ∈ s.tasks) (hne : k.requester ≠ t.requester) : k ∈ (s.setRequester i r).tasks := by
  obtain ⟨j, hj⟩ := List.mem_iff_getElem?.1 hk
  have hij : i ≠ j := by
    rintro rfl
    rw [ht] at hj
    exact hne (by rw [Option.some.inj hj])
  refine List.mem_of_getElem? (i := j) ?_
  change (s.tasks.modify i _)[j]? = some k
  rw [List.getElem?_modify_ne _ _ hij, hj]

theorem setRequester_mem_self {i : ℕ} (r : Requester l) {t : PeerTask l} (ht : s.tasks[i]? = some t) :
    { t with requester := r } ∈ (s.setRequester i r).tasks := by
  refine List.mem_of_getElem? (i := i) ?_
  change (s.tasks.modify i _)[i]? = _
  rw [List.getElem?_modify_eq, ht]
  rfl

theorem mem_eraseIdx {i : ℕ} {t k : PeerTask l} (ht : s.tasks[i]? = some t) (hk : k ∈ s.tasks)
    (hne : k.requester ≠ t.requester) : k ∈ s.tasks.eraseIdx i := by
  refine mem_eraseIdx_of_ne ht hk ?_
  rintro rfl
  exact hne rfl

end Live

end Rtbit
