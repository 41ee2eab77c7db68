import Rtbit.Sanity.Live

/-! The chunks a peer has requested are chunks of pieces it owns, up to steals whose
`on_steal` is still to run and pieces completed or requeued since. The chunk requester walks
all chunks of its piece without looking at the owner again, so this needs that the piece
stays with the peer while it does. -/

namespace Rtbit

open Lib

/-- The piece whose chunks the requester is going to request. -/
def Requester.wants {l : Lengths} : Requester l → Option (ValidPieceIndex l)
  | .stealing _ p => some p
  | .requesting p (_ :: _) => some p
  | _ => none

namespace Live

variable {l : Lengths} {fs : List FileInfo} {s s' : Live l}

/-- The chunk is in the `inflight_requests` of the live peer `a`, requested at `e`. -/
def Requested (s : Live l) (a : PeerHandle) (c : ChunkInfo) (e : ℕ) : Prop :=
  ∃ live out, s.peers a = some ⟨.live live, out⟩ ∧ (c, e) ∈ live.inflightRequests

/-- A steal of `p` from `a` is decided and its `on_steal` has not run. -/
def StealPending (s : Live l) (a : PeerHandle) (p : ValidPieceIndex l) : Prop :=
  ∃ k ∈ s.tasks, k.requester = .stealing a p

def Backed (s : Live l) (a : PeerHandle) (p : ValidPieceIndex l) (e : ℕ) : Prop :=
  s.owner p = some a ∨ s.StealPending a p ∨ e < s.requeues p

theorem requested_iff {a : PeerHandle} {c : ChunkInfo} {e : ℕ} :
    ((s.peers a).any fun p => match p.state with
      | .live live => decide ((c, e) ∈ live.inflightRequests)
      | _ => false) = true ↔ s.Requested a c e := by
  simp only [Option.any_eq_true]
  constructor
  · rintro ⟨⟨st, out⟩, hp, hm⟩
    cases st with
    | live live => exact ⟨live, out, hp, of_decide_eq_true hm⟩
    | _ => cases hm
  · rintro ⟨live, out, hp, hm⟩
    exact ⟨_, hp, decide_eq_true hm⟩

instance (s : Live l) (a : PeerHandle) (c : ChunkInfo) (e : ℕ) : Decidable (s.Requested a c e) :=
  decidable_of_iff _ requested_iff

instance (s : Live l) (a : PeerHandle) (p : ValidPieceIndex l) (e : ℕ) : Decidable (s.Backed a p e) :=
  inferInstanceAs (Decidable
    (s.owner p = some a ∨ (∃ k ∈ s.tasks, k.requester = .stealing a p) ∨ e < s.requeues p))

/-- A piece is stolen only if no requester of its owner is going to request its chunks, and
reserved only if it is not in flight. -/
def LeavesWanted (s : Live l) : AcquireResult l → Prop
  | .stolen p a => ∀ k ∈ s.tasks, k.addr = a → k.requester.wants ≠ some p
  | .reserved p => s.owner p = none
  | .noneAvailable => True

/-- A piece is neither stolen nor completed nor released while a requester of its owner is
going to request its chunks, and not reserved while it is in flight. -/
def Undisturbed (fs : List FileInfo) (s : Live l) : LiveOp l → Prop
  | .acquire i req => ∀ t ∈ s.tasks[i]?.toList, ∀ live ∈ (s.getLive t.addr).toList,
      s.LeavesWanted (s.acquired fs t.addr live req)
  | .write j (.mark _) _ => ∀ r ∈ s.writes.runs[j]?.toList,
      (s.writes.pieces.markChunkDownloaded r.msg).map Prod.fst = some .completed →
        ∀ k ∈ s.tasks, k.requester.wants ≠ some r.piece
  | .release a => ∀ k ∈ s.tasks, k.addr = a → k.requester.wants = none
  | _ => True

instance (s : Live l) : (res : AcquireResult l) → Decidable (s.LeavesWanted res)
  | .stolen p a => inferInstanceAs (Decidable (∀ k ∈ s.tasks, k.addr = a → k.requester.wants ≠ some p))
  | .reserved p => inferInstanceAs (Decidable (s.owner p = none))
  | .noneAvailable => isTrue trivial

instance (s : Live l) : (op : LiveOp l) → Decidable (Undisturbed fs s op)
  | .acquire i req => inferInstanceAs (Decidable
      (∀ t ∈ s.tasks[i]?.toList, ∀ live ∈ (s.getLive t.addr).toList,
        s.LeavesWanted (s.acquired fs t.addr live req)))
  | .write j (.mark _) _ => inferInstanceAs (Decidable (∀ r ∈ s.writes.runs[j]?.toList,
      (s.writes.pieces.markChunkDownloaded r.msg).map Prod.fst = some .completed →
        ∀ k ∈ s.tasks, k.requester.wants ≠ some r.piece))
  | .release a => inferInstanceAs (Decidable (∀ k ∈ s.tasks, k.addr = a → k.requester.wants = none))
  | .write _ .check _ | .write _ (.write _) _ | .write _ .unlock _ | .write _ (.hashed _) _
  | .write _ .completed _ | .peer _ _ | .onSteal _ | .addRequest _ | .receive _ _ | .disconnected
  | .died _ _ | .close _ _ | .updateOnlyFiles _ | .reconnected => isTrue trivial

/-- A requester in order: its piece belongs to the peer, a stolen piece was another peer's,
and the chunks are those of the piece. -/
structure InOrder (owner : ValidPieceIndex l → Option PeerHandle) (addr : PeerHandle)
    (r : Requester l) : Prop where
  wanted : ∀ p, r.wants = some p → owner p = some addr
  thief : ∀ a p, r = .stealing a p → addr ≠ a
  chunks : ∀ p cs c, r = .requesting p cs → c ∈ cs → c.pieceIndex = p

def TasksOwn (s : Live l) : Prop := ∀ k ∈ s.tasks, InOrder s.owner k.addr k.requester

theorem inOrder_idle (owner : ValidPieceIndex l → Option PeerHandle) (addr : PeerHandle) :
    InOrder owner addr .idle :=
  ⟨fun p h => by simp [Requester.wants] at h, by simp, by simp⟩

theorem InOrder.of_owner {owner owner' : ValidPieceIndex l → Option PeerHandle} {addr : PeerHandle}
    {r : Requester l} (h : InOrder owner addr r)
    (ho : ∀ p, r.wants = some p → owner' p = owner p) : InOrder owner' addr r :=
  ⟨fun p hp => (ho p hp).trans (h.wanted p hp), h.thief, h.chunks⟩

theorem inOrder_requesting {owner : ValidPieceIndex l → Option PeerHandle} {addr : PeerHandle}
    {p : ValidPieceIndex l} (h : owner p = some addr) :
    InOrder owner addr (.requesting p (l.iterChunkInfos p)) := by
  refine ⟨?_, by simp, ?_⟩
  · intro q hq
    cases hcs : l.iterChunkInfos p with
    | nil => simp [hcs, Requester.wants] at hq
    | cons c cs =>
      rw [hcs] at hq
      obtain rfl : p = q := by simpa [Requester.wants] using hq
      exact h
  · intro q cs c he hc
    obtain ⟨rfl, rfl⟩ : p = q ∧ l.iterChunkInfos p = cs := by simpa using he
    exact l.pieceIndex_iter p p.isLt c hc

/-- What `acquire_next_piece` leaves the requester with. -/
theorem acquire_inOrder {a : PeerHandle} {live : LivePeerState} {req : AcquireRequest l} {w : Writes l}
    (hw : s.writes.step fs (.acquire (request fs a live req)) = some w) :
    InOrder w.pieces.owner a (nextRequester (s.acquired fs a live req)) := by
  rcases Writes.acquire_spec hw with ⟨p, hres, ho⟩ | ⟨p, b, hres, -, hne, ho⟩ | ⟨hres, -⟩
  · have hres : s.acquired fs a live req = .reserved p := hres
    rw [hres]
    exact inOrder_requesting (by rw [ho, if_pos rfl]; rfl)
  · have hres : s.acquired fs a live req = .stolen p b := hres
    rw [hres]
    refine ⟨?_, ?_, by simp [nextRequester]⟩
    · intro q hq
      obtain rfl : p = q := by simpa [nextRequester, Requester.wants] using hq
      rw [ho, if_pos rfl]
      rfl
    · intro c q he
      obtain ⟨rfl, rfl⟩ : b = c ∧ p = q := by simpa [nextRequester] using he
      exact fun heq => hne heq.symm
  · have hres : s.acquired fs a live req = .noneAvailable := hres
    rw [hres]
    exact inOrder_idle _ _

theorem spawned_idle {a : PeerHandle} {m : PeerMove} {k : PeerTask l} (h : k ∈ spawned a m) :
    k.requester = .idle := by
  cases m <;> simp [spawned] at h <;> rw [h]

/-- Tasks that were there before, with the owners of the pieces they want. -/
theorem TasksOwn.of_mem (h : s.TasksOwn) (hm : ∀ k ∈ s'.tasks, k ∈ s.tasks)
    (ho : ∀ k ∈ s.tasks, ∀ p, k.requester.wants = some p → s'.owner p = s.owner p) : s'.TasksOwn :=
  fun k hk => (h k (hm k hk)).of_owner (ho k (hm k hk))

theorem TasksOwn.acquire (h : s.TasksOwn) {i : ℕ} {t : PeerTask l} {live : LivePeerState}
    {req : AcquireRequest l} {w : Writes l} (hok : Undisturbed fs s (.acquire i req))
    (ht : s.tasks[i]? = some t) (hl : s.getLive t.addr = some live)
    (hw : s.writes.step fs (.acquire (request fs t.addr live req)) = some w) {k : PeerTask l}
    (hk : k ∈ s.tasks) {p : ValidPieceIndex l} (hp : k.requester.wants = some p) :
    w.pieces.owner p = s.owner p := by
  have hcond := hok t (by simp [ht]) live (by simp [hl])
  have hown : s.owner p = some k.addr := (h k hk).wanted p hp
  rcases Writes.acquire_owner hw p with he | ⟨-, ⟨a, hst, ha⟩ | hres⟩
  · exact he
  · have hst : s.acquired fs t.addr live req = .stolen p a := hst
    rw [hst] at hcond
    have haddr : k.addr = a := Option.some.inj (hown.symm.trans ha)
    exact absurd hp (hcond k hk haddr)
  · have hres : s.acquired fs t.addr live req = .reserved p := hres
    rw [hres] at hcond
    have hnone : s.owner p = none := hcond
    simp [hown] at hnone

theorem write_wanted {j : ℕ} {e : RunStep} {b : Bool} {w : Writes l}
    (hok : Undisturbed fs s (.write j e b)) (hw : s.writes.step fs (.run j e) = some w)
    {k : PeerTask l} (hk : k ∈ s.tasks) {p : ValidPieceIndex l} (hp : k.requester.wants = some p) :
    w.pieces.owner p = s.owner p := by
  rcases Writes.run_owner hw p with he | ⟨-, r, now, hr, rfl, rfl, hcompl⟩
  · exact he
  · exact absurd hp (hok r (by simp [hr]) hcompl k hk)

/-- `on_steal` has run: the requester goes on with the piece it has stolen. -/
theorem TasksOwn.stolen (h : s.TasksOwn) {i : ℕ} {t : PeerTask l} {a : PeerHandle}
    {p : ValidPieceIndex l} (ht : s.tasks[i]? = some t) (hr : t.requester = .stealing a p) :
    (s.setRequester i (.requesting p (l.iterChunkInfos p))).TasksOwn := by
  intro k hk
  rcases mem_setRequester hk with ⟨k₀, hk₀, rfl⟩ | hold
  · obtain rfl : t = k₀ := Option.some.inj (ht.symm.trans hk₀)
    have hown := (h t (List.mem_of_getElem? ht)).wanted p (by simp [hr, Requester.wants])
    exact inOrder_requesting hown
  · exact h k hold

theorem TasksOwn.step {op : LiveOp l} (h : s.TasksOwn) (hok : Undisturbed fs s op)
    (hs : Live.step fs s op = some s') : s'.TasksOwn := by
  cases step_steps hs with
  | @peer a m p hd _ hm =>
    intro k hk
    rcases List.mem_append.1 hk with hold | hnew
    · exact h k hold
    · rw [spawned_idle hnew]
      exact inOrder_idle _ _
  | @acquire i t live w req ht hr hl hw =>
    intro k hk
    rcases mem_setRequester hk with ⟨k₀, hk₀, rfl⟩ | hold
    · obtain rfl : t = k₀ := Option.some.inj (ht.symm.trans hk₀)
      exact acquire_inOrder hw
    · exact (h k hold).of_owner fun p hp => h.acquire hok ht hl hw hold hp
  | @onSteal i t a p live ht hr hl => exact TasksOwn.stolen (s := s.setState a _) h ht hr
  | onStealGone ht hr hl => exact h.stolen ht hr
  | @addRequest i t p c chunks live ht hr hl =>
    intro k hk
    rcases mem_setRequester hk with ⟨k₀, hk₀, rfl⟩ | hold
    · obtain rfl : t = k₀ := Option.some.inj (ht.symm.trans hk₀)
      have hin := h t (List.mem_of_getElem? ht)
      split_ifs with hemp
      · exact inOrder_idle _ _
      · refine ⟨?_, by simp, ?_⟩
        · intro q hq
          cases chunks with
          | nil => simp at hemp
          | cons d ds =>
            obtain rfl : p = q := by simpa [Requester.wants] using hq
            exact hin.wanted p (by simp [hr, Requester.wants])
        · intro q cs d he hd
          obtain ⟨rfl, rfl⟩ : p = q ∧ chunks = cs := by simpa using he
          exact hin.chunks p _ d hr (List.mem_cons_of_mem c hd)
    · exact h k hold
  | @receive i t m c live w ht hl hw =>
    refine h.of_mem (fun _ hk => hk) ?_
    intro k _ p _
    change w.pieces.owner p = s.writes.pieces.owner p
    rw [Writes.recv_pieces hw]
  | @write j e w b n hw => exact h.of_mem (fun _ hk => hk) fun k hk p hp => write_wanted hok hw hk hp
  | disconnected n => exact h
  | diedLive error ht hd hl hns =>
    exact h.of_mem (fun _ hk => List.mem_of_mem_eraseIdx hk) fun _ _ _ _ => rfl
  | diedConnecting error ht hd hl hns =>
    exact h.of_mem (fun _ hk => List.mem_of_mem_eraseIdx hk) fun _ _ _ _ => rfl
  | diedIdle error p ht hd hl hns hp =>
    exact h.of_mem (fun _ hk => List.mem_of_mem_eraseIdx hk) fun _ _ _ _ => rfl
  | @release a error w hd hw =>
    refine h.of_mem (fun _ hk => hk) ?_
    intro k hk p hp
    have hown : s.writes.pieces.owner p = some k.addr := (h k hk).wanted p hp
    have hne : k.addr ≠ a := by
      intro ha
      have hnone := hok k hk ha
      simp [hp] at hnone
    change w.pieces.owner p = s.writes.pieces.owner p
    rw [Writes.die_owner hw, if_neg (fun he => hne (Option.some.inj (hown.symm.trans he)))]
  | close b hd => exact h
  | @update only w n hw => exact h.of_mem (fun _ hk => hk) fun k _ p _ => Writes.update_owner hw p
  | reconnected n => exact h

/-! The requests. -/

def Requests (s : Live l) : Prop :=
  ∀ a c e (p : ValidPieceIndex l), s.Requested a c e → c.pieceIndex = p →
    e ≤ s.requeues p ∧ s.Backed a p e

theorem Requests.of_step (h : s.Requests) (hre : ∀ p, s.requeues p ≤ s'.requeues p)
    (hreq : ∀ a c e, s'.Requested a c e → s.Requested a c e)
    (hown : ∀ a p, s.owner p = some a →
      s'.owner p = some a ∨ s'.StealPending a p ∨ s.requeues p < s'.requeues p)
    (hpend : ∀ a c e (p : ValidPieceIndex l), s'.Requested a c e → c.pieceIndex = p →
      s.StealPending a p → s'.StealPending a p) : s'.Requests := by
  intro a c e p hr hc
  obtain ⟨hle, hback⟩ := h a c e p (hreq a c e hr) hc
  refine ⟨hle.trans (hre p), ?_⟩
  rcases hback with ho | hp | hlt
  · rcases hown a p ho with h1 | h1 | h1
    · exact Or.inl h1
    · exact Or.inr (Or.inl h1)
    · exact Or.inr (Or.inr (lt_of_le_of_lt hle h1))
  · exact Or.inr (Or.inl (hpend a c e p hr hc hp))
  · exact Or.inr (Or.inr (lt_of_lt_of_le hlt (hre p)))

theorem requeues_setWrites (w : Writes l) (p : ValidPieceIndex l) :
    s.requeues p ≤ (s.setWrites w).requeues p := Nat.le_add_right _ _

theorem requeues_lt {w : Writes l} {p : ValidPieceIndex l} {a : PeerHandle}
    (ho : s.owner p = some a) (hn : w.pieces.owner p = none) :
    s.requeues p < (s.setWrites w).requeues p := by
  have ho : s.writes.pieces.owner p = some a := ho
  simp [setWrites, requeued, ho, hn]

theorem requested_setPeer {a b : PeerHandle} {p : Option Peer} {c : ChunkInfo} {e : ℕ}
    (h : (s.setPeer a p).Requested b c e) :
    b = a ∧ (∃ live out, p = some ⟨.live live, out⟩ ∧ (c, e) ∈ live.inflightRequests) ∨
      b ≠ a ∧ s.Requested b c e := by
  obtain ⟨live, out, hp, hm⟩ := h
  by_cases hb : b = a
  · subst hb
    simp only [setPeer, Function.update_self] at hp
    exact Or.inl ⟨rfl, live, out, hp, hm⟩
  · simp only [setPeer, Function.update_of_ne hb] at hp
    exact Or.inr ⟨hb, live, out, hp, hm⟩

theorem requested_setState {a b : PeerHandle} {st : PeerState} {c : ChunkInfo} {e : ℕ}
    (h : (s.setState a st).Requested b c e) :
    b = a ∧ (∃ live, st = .live live ∧ (c, e) ∈ live.inflightRequests) ∨
      b ≠ a ∧ s.Requested b c e := by
  rcases requested_setPeer h with ⟨hb, live, out, hp, hm⟩ | hb
  · obtain ⟨p, -, he⟩ := Option.map_eq_some_iff.1 hp
    injection he with hst
    exact Or.inl ⟨hb, live, hst, hm⟩
  · exact Or.inr hb

theorem getLive_requested {a : PeerHandle} {live : LivePeerState} (h : s.getLive a = some live)
    {c : ChunkInfo} {e : ℕ} (hm : (c, e) ∈ live.inflightRequests) : s.Requested a c e := by
  obtain ⟨-, out, hp⟩ := getLive_some h
  exact ⟨live, out, hp, hm⟩

/-- A peer that becomes live has requested nothing. -/
theorem apply_requested {a : PeerHandle} {m : PeerMove} {n : ℕ} {q p : Option Peer}
    (h : m.apply n a q = some p) {live : LivePeerState} {out : Option PeerHandle}
    (hp : p = some ⟨.live live, out⟩) :
    live.inflightRequests = [] ∨
      ∃ live₀ out₀, q = some ⟨.live live₀, out₀⟩ ∧ live.inflightRequests = live₀.inflightRequests := by
  subst hp
  cases q with
  | none =>
    cases m <;> simp [PeerMove.apply] at h
    exact Or.inl (by rw [← h.1]; rfl)
  | some q =>
    obtain ⟨st, out₀⟩ := q
    cases m <;> cases st <;> simp [PeerMove.apply] at h
    case updateBitfield.live b live₀ => exact Or.inr ⟨live₀, out₀, rfl, by rw [← h.1]⟩
    case updateOutgoingAddr.live b live₀ => exact Or.inr ⟨live₀, out₀, rfl, by rw [← h.1]⟩
    all_goals exact Or.inl (by rw [← h.1]; rfl)

theorem mem_insert {live : LivePeerState} {c d : ChunkInfo} {n e : ℕ}
    (h : (d, e) ∈ (live.insert c n).inflightRequests) :
    d = c ∧ e = n ∨ (d, e) ∈ live.inflightRequests := by
  unfold LivePeerState.insert at h
  split_ifs at h
  · exact Or.inr h
  · rcases List.mem_cons.1 h with he | hold
    · exact Or.inl (Prod.mk.inj he)
    · exact Or.inr hold

/-- The requester adds a chunk of the piece its peer owns. -/
theorem Requests.addRequest (h : s.Requests) (ho : s.TasksOwn) {i : ℕ} {t : PeerTask l}
    {p : ValidPieceIndex l} {c : ChunkInfo} {chunks : List ChunkInfo} {live : LivePeerState}
    (hti : s.tasks[i]? = some t) (hr : t.requester = .requesting p (c :: chunks))
    (hl : s.getLive t.addr = some live) (r : Requester l) :
    ((s.setState t.addr (.live (live.insert c (s.requeues p)))).setRequester i r).Requests := by
  have hin := ho t (List.mem_of_getElem? hti)
  have hpiece : c.pieceIndex = p := hin.chunks p _ c hr List.mem_cons_self
  have hkeep (b : PeerHandle) (d : ChunkInfo) (e : ℕ) (q : ValidPieceIndex l)
      (hreq : s.Requested b d e) (hd : d.pieceIndex = q) : e ≤ s.requeues q ∧
        ((s.setState t.addr (.live (live.insert c (s.requeues p)))).setRequester i r).Backed b q e := by
    obtain ⟨hle, hown | ⟨k, hk, hst⟩ | hlt⟩ := h b d e q hreq hd
    · exact ⟨hle, Or.inl hown⟩
    · exact ⟨hle, Or.inr (Or.inl ⟨k, setRequester_mem r (s := s.setState t.addr _) hti hk
        (by simp [hr, hst]), hst⟩)⟩
    · exact ⟨hle, Or.inr (Or.inr hlt)⟩
  intro b d e q hreq hd
  rcases requested_setState hreq with ⟨rfl, live', he, hmem⟩ | ⟨-, hold⟩
  · injection he with he
    subst he
    rcases mem_insert hmem with ⟨rfl, rfl⟩ | hold
    · obtain rfl : p = q := Fin.ext (hpiece.symm.trans hd)
      exact ⟨le_rfl, Or.inl (hin.wanted p (by simp [hr, Requester.wants]))⟩
    · exact hkeep _ d e q (getLive_requested hl hold) hd
  · exact hkeep b d e q hold hd

/-- A task that is not stealing ends, and the entry of its peer is not live afterwards. -/
theorem Requests.died (h : s.Requests) {i : ℕ} {t : PeerTask l} (hti : s.tasks[i]? = some t)
    (hns : ∀ a p, t.requester ≠ .stealing a p) (hre : s'.requeues = s.requeues)
    (ho : s'.owner = s.owner) (htasks : s'.tasks = s.tasks.eraseIdx i)
    (hreq : ∀ a c e, s'.Requested a c e → s.Requested a c e) : s'.Requests := by
  refine h.of_step (fun p => by rw [hre]) hreq (fun a q hown => Or.inl (by rw [ho, hown]))
    fun a c e q _ _ hp => ?_
  obtain ⟨k, hk, hst⟩ := hp
  refine ⟨k, ?_, hst⟩
  rw [htasks]
  exact mem_eraseIdx hti hk fun heq => hns a q (heq.symm.trans hst)

theorem requested_of_setState {a b : PeerHandle} {st : PeerState} {c : ChunkInfo} {e : ℕ}
    (hst : ∀ live, st ≠ .live live) (h : (s.setState a st).Requested b c e) : s.Requested b c e := by
  rcases requested_setState h with ⟨-, live, he, -⟩ | ⟨-, hold⟩
  · exact absurd he (hst live)
  · exact hold

theorem Requests.step {op : LiveOp l} (h : s.Requests) (ht : s.TasksOwn) (hok : Undisturbed fs s op)
    (hs : Live.step fs s op = some s') : s'.Requests := by
  cases step_steps hs with
  | @peer a m p hd _ hm =>
    refine h.of_step (fun _ => le_rfl) (fun b c e hr => ?_) (fun b q ho => Or.inl ho)
      fun b c e q _ _ hp => ?_
    · rcases requested_setPeer hr with ⟨rfl, live, out, rfl, hmem⟩ | ⟨-, hold⟩
      · rcases apply_requested hm rfl with he | ⟨live₀, out₀, hq, he⟩
        · simp [he] at hmem
        · exact ⟨live₀, out₀, hq, he ▸ hmem⟩
      · exact hold
    · obtain ⟨k, hk, hst⟩ := hp
      exact ⟨k, List.mem_append_left _ hk, hst⟩
  | @acquire i t live w req hti hr hl hw =>
    have hcond := hok t (by simp [hti]) live (by simp [hl])
    refine h.of_step (requeues_setWrites w) (fun b c e hr => hr) (fun b q ho => ?_)
      fun b c e q _ _ hp => ?_
    · rcases Writes.acquire_owner hw q with he | ⟨-, ⟨a, hst, ha⟩ | hres⟩
      · exact Or.inl (he.trans ho)
      · -- the steal is decided; `on_steal` comes later
        have hst : s.acquired fs t.addr live req = .stolen q a := hst
        obtain rfl : b = a := Option.some.inj (ho.symm.trans ha)
        refine Or.inr (Or.inl ⟨_, setRequester_mem_self _ (s := s.setWrites w) hti, ?_⟩)
        rw [hst]
        rfl
      · have hres : s.acquired fs t.addr live req = .reserved q := hres
        rw [hres] at hcond
        have hnone : s.owner q = none := hcond
        simp [ho] at hnone
    · obtain ⟨k, hk, hst⟩ := hp
      exact ⟨k, setRequester_mem _ (s := s.setWrites w) hti hk (by simp [hr, hst]), hst⟩
  | @onSteal i t a p live hti hr hl =>
    refine h.of_step (fun _ => le_rfl) (fun b c e hreq => ?_) (fun b q ho => Or.inl ho)
      fun b c e q hreq hc hp => ?_
    · rcases requested_setState hreq with ⟨rfl, live', he, hmem⟩ | ⟨-, hold⟩
      · injection he with he
        subst he
        exact getLive_requested hl (List.mem_filter.1 hmem).1
      · exact hold
    · obtain ⟨k, hk, hst⟩ := hp
      refine ⟨k, setRequester_mem _ (s := s.setState a _) hti hk ?_, hst⟩
      intro heq
      obtain ⟨rfl, rfl⟩ : b = a ∧ q = p := by simpa [hst, hr] using heq
      -- the requests of the victim for the piece are gone
      rcases requested_setState hreq with ⟨-, live', he, hmem⟩ | ⟨hne, -⟩
      · injection he with he
        subst he
        have hpiece := (List.mem_filter.1 hmem).2
        simp [hc] at hpiece
      · exact hne rfl
  | @onStealGone i t a p hti hr hl =>
    refine h.of_step (fun _ => le_rfl) (fun b c e hreq => hreq) (fun b q ho => Or.inl ho)
      fun b c e q hreq _ hp => ?_
    obtain ⟨k, hk, hst⟩ := hp
    refine ⟨k, setRequester_mem _ hti hk ?_, hst⟩
    intro heq
    obtain ⟨rfl, -⟩ : b = a ∧ q = p := by simpa [hst, hr] using heq
    obtain ⟨live, out, hp, -⟩ := hreq
    exact hl ⟨live, out, hp⟩
  | addRequest hti hr hl => exact h.addRequest ht hti hr hl _
  | @receive i t m c live w hti hl hw =>
    refine h.of_step (fun _ => le_rfl) (fun b d e hreq => ?_) (fun b q ho => ?_)
      fun b d e q _ _ hp => hp
    · rcases requested_setState (s := s) hreq with ⟨rfl, live', he, hmem⟩ | ⟨-, hold⟩
      · injection he with he
        subst he
        exact getLive_requested hl (List.mem_filter.1 hmem).1
      · exact hold
    · left
      change w.pieces.owner q = some b
      rw [Writes.recv_pieces hw]
      exact ho
  | @write j e w b n hw =>
    refine h.of_step (requeues_setWrites w) (fun _ _ _ hreq => hreq) (fun a q ho => ?_)
      fun _ _ _ _ _ _ hp => hp
    rcases Writes.run_owner hw q with he | ⟨he, -⟩
    · exact Or.inl (he.trans ho)
    · exact Or.inr (Or.inr (requeues_lt ho he))
  | disconnected n => exact h
  | diedLive error hti hd hl hns =>
    exact h.died hti hns rfl rfl rfl fun _ _ _ hreq => requested_of_setState (s := s) (by simp) hreq
  | diedConnecting error hti hd hl hns =>
    exact h.died hti hns rfl rfl rfl fun _ _ _ hreq => requested_of_setState (s := s) (by simp) hreq
  | diedIdle error p hti hd hl hns hp =>
    refine h.died hti hns rfl rfl rfl ?_
    intro a c e hreq
    rcases requested_setPeer (s := s) hreq with ⟨rfl, live, out, he, hmem⟩ | ⟨-, hold⟩
    · rcases hp with rfl | rfl
      · exact ⟨live, out, he, hmem⟩
      · cases he
    · exact hold
  | @release a error w hd hw =>
    refine h.of_step (requeues_setWrites w) (fun _ _ _ hreq => hreq) (fun b q ho => ?_)
      fun _ _ _ _ _ _ hp => hp
    have hdie := Writes.die_owner hw q
    split_ifs at hdie with ha
    · exact Or.inr (Or.inr (requeues_lt ho hdie))
    · exact Or.inl (hdie.trans ho)
  | @close a error b hd =>
    exact h.of_step (fun _ => le_rfl)
      (fun _ _ _ hreq => requested_of_setState (s := s) (deadState_ne error b) hreq)
      (fun _ _ ho => Or.inl ho) fun _ _ _ _ _ _ hp => hp
  | @update only w n hw =>
    exact h.of_step (requeues_setWrites w) (fun _ _ _ hreq => hreq)
      (fun a q ho => Or.inl ((Writes.update_owner hw q).trans ho)) fun _ _ _ _ _ _ hp => hp
  | reconnected n => exact h

/-- The step gives the piece to `a`. -/
def Acquires (fs : List FileInfo) (a : PeerHandle) (p : ValidPieceIndex l) (s : Live l)
    (op : LiveOp l) : Prop :=
  ∃ i req t live, op = .acquire i req ∧ s.tasks[i]? = some t ∧ t.addr = a ∧
    s.getLive t.addr = some live ∧ (s.acquired fs t.addr live req = .reserved p ∨
      ∃ b, s.acquired fs t.addr live req = .stolen p b)

theorem owner_ne_step {op : LiveOp l} {a : PeerHandle} {p : ValidPieceIndex l}
    (hne : s.owner p ≠ some a) (hacq : ¬Acquires fs a p s op) (h : Live.step fs s op = some s') :
    s'.owner p ≠ some a := by
  intro ho
  rcases step_owner h p with he | he | ⟨i, req, t, live, rfl, ht, hl, hown, hres⟩
  · exact hne (he.symm.trans ho)
  · simp [he] at ho
  · exact hacq ⟨i, req, t, live, rfl, ht, Option.some.inj (hown.symm.trans ho), hl, hres⟩

theorem onSteal_owner {i : ℕ} (h : Live.step fs s (.onSteal i) = some s') : s'.owner = s.owner := by
  cases step_steps h <;> rfl

theorem run_consistent {c : ChunkTracker l} {ops : List (LiveOp l)} {t : Live l}
    (hr : Run (Live.step fs) (Undisturbed fs) (start c) ops t) : t.TasksOwn ∧ t.Requests := by
  refine hr.inv (fun s => s.TasksOwn ∧ s.Requests) ⟨?_, ?_⟩
    fun _ _ _ hi hok hs => ⟨hi.1.step hok hs, hi.2.step hi.1 hok hs⟩
  · intro k hk
    cases hk
  · rintro a c e p ⟨live, out, hp, -⟩
    cases hp

/-- Along every undisturbed run the requested chunks of a live peer are backed, and after
`on_steal` the victim adds no chunk of the piece until it acquires the piece again. -/
theorem undisturbed_chunk_piece (l : Lengths) (fs : List FileInfo) (c : ChunkTracker l)
    (ops : List (LiveOp l)) (t : Live l)
    (hr : Run (Live.step fs) (Undisturbed fs) (start c) ops t) :
    (∀ a d e (p : ValidPieceIndex l), t.Requested a d e → d.pieceIndex = p →
      t.owner p = some a ∨ t.StealPending a p ∨ e < t.requeues p) ∧
    ∀ i k a p t₁, t.tasks[i]? = some k → k.requester = .stealing a p →
      Live.step fs t (.onSteal i) = some t₁ →
      ∀ ops₂ t₂, Run (Live.step fs) (fun s op => Undisturbed fs s op ∧ ¬Acquires fs a p s op)
        t₁ ops₂ t₂ →
      ∀ j k' chunks t₃, t₂.tasks[j]? = some k' → k'.requester = .requesting p chunks →
        Live.step fs t₂ (.addRequest j) = some t₃ → k'.addr ≠ a := by
  obtain ⟨htasks, hreqs⟩ := run_consistent hr
  refine ⟨fun a d e p hreq hd => (hreqs a d e p hreq hd).2, ?_⟩
  intro i k a p t₁ hk hst hs ops₂ t₂ hr₂ j k' chunks t₃ hk' hreq hadd
  -- the thief owns the piece when `on_steal` runs
  have hin := htasks k (List.mem_of_getElem? hk)
  have hne : t₁.owner p ≠ some a := by
    rw [onSteal_owner hs, hin.wanted p (by simp [hst, Requester.wants])]
    exact fun he => hin.thief a p hst (Option.some.inj he)
  have hund : Undisturbed fs t (.onSteal i) := trivial
  have hinv : t₂.TasksOwn ∧ t₂.owner p ≠ some a :=
    hr₂.inv (fun s => s.TasksOwn ∧ s.owner p ≠ some a) ⟨htasks.step hund hs, hne⟩
      fun _ _ _ hi hok hstep => ⟨hi.1.step hok.1 hstep, owner_ne_step hi.2 hok.2 hstep⟩
  have hwants : k'.requester.wants = some p := by
    cases step_steps hadd with
    | addRequest ht hr _ =>
      obtain rfl := Option.some.inj (hk'.symm.trans ht)
      obtain ⟨rfl, rfl⟩ : p = _ ∧ chunks = _ := by simpa [hr] using hreq.symm
      simp [hr, Requester.wants]
  have hown := (hinv.1 k' (List.mem_of_getElem? hk')).wanted p hwants
  rintro rfl
  exact hinv.2 hown

/-- Two peers that have everything connect; the first reserves a piece and requests `n` of
its chunks, the second steals it. -/
def stealAfter (n : ℕ) : List (LiveOp fourChunks) :=
  [.peer peerA .incomingConnection, .peer peerA (.updateBitfield (somePieces 0 2)),
    .peer peerB .incomingConnection, .peer peerB (.updateBitfield (somePieces 0 2)),
    .acquire 0 (requestFor fourChunks fourChunkFiles peerA)] ++
  List.replicate n (.addRequest 0) ++
  [.acquire 1 (eagerRequest fourChunks fourChunkFiles peerB)]

theorem stealAfter_two_chunk_piece : ∃ c t,
    ChunkTracker.new (l := fourChunks) (somePieces 0 0) (somePieces 0 2) fourChunkFiles = .ok c ∧
      Run (Live.step fourChunkFiles) (Undisturbed fourChunkFiles) (start c) (stealAfter 2) t ∧
      t.Requested peerA ⟨0, 1, 16384, 16384⟩ 0 ∧ t.owner ⟨0, by decide⟩ = some peerB ∧
      (t.owner ⟨0, by decide⟩ = some peerA ∨ t.StealPending peerA ⟨0, by decide⟩ ∨
        0 < t.requeues ⟨0, by decide⟩) := by
  have hrun : ∃ c t,
      ChunkTracker.new (l := fourChunks) (somePieces 0 0) (somePieces 0 2) fourChunkFiles = .ok c ∧
        Run (Live.step fourChunkFiles) (Undisturbed fourChunkFiles) (start c) (stealAfter 2) t ∧
        decide (t.Requested peerA ⟨0, 1, 16384, 16384⟩ 0 ∧
          t.owner ⟨0, by decide⟩ = some peerB) = true := exists_run (by decide +kernel)
  obtain ⟨c, t, hc, hr, hq⟩ := hrun
  obtain ⟨hreq, ho⟩ := of_decide_eq_true hq
  exact ⟨c, t, hc, hr, hreq, ho,
    (undisturbed_chunk_piece _ _ _ _ _ hr).1 _ _ _ ⟨0, by decide⟩ hreq rfl⟩

/-- The steal comes between the two chunks: `on_steal` cancels the first, and the victim then
requests the second, of a piece that belongs to the thief. -/
theorem victim_requests_stolen_piece : ∃ c t,
    ChunkTracker.new (l := fourChunks) (somePieces 0 0) (somePieces 0 2) fourChunkFiles = .ok c ∧
      Run (Live.step fourChunkFiles) Any (start c) (stealAfter 1 ++ [.onSteal 1, .addRequest 0]) t ∧
      t.Requested peerA ⟨0, 1, 16384, 16384⟩ 0 ∧ ¬t.Backed peerA ⟨0, by decide⟩ 0 := by
  have hrun : ∃ c t,
      ChunkTracker.new (l := fourChunks) (somePieces 0 0) (somePieces 0 2) fourChunkFiles = .ok c ∧
        Run (Live.step fourChunkFiles) Any (start c) (stealAfter 1 ++ [.onSteal 1, .addRequest 0]) t ∧
        decide (t.Requested peerA ⟨0, 1, 16384, 16384⟩ 0 ∧
          ¬t.Backed peerA ⟨0, by decide⟩ 0) = true := exists_run (by decide +kernel)
  obtain ⟨c, t, hc, hr, hq⟩ := hrun
  exact ⟨c, t, hc, hr, of_decide_eq_true hq⟩

end Live

end Rtbit
