import Rtbit.Lib.Runs
import Rtbit.Sanity.Connection
import Rtbit.Sanity.Torrent

/-! A peer that only answers our Requests, each once, is not dropped for a piece we did not ask
for, as long as no steal takes a request from `inflight_requests`: the Request is on its way,
the peer answers it, and nothing remembers that it was asked. -/

namespace Rtbit

open Lib

namespace RequestLoop

/-- The chunk that waits for its permit. -/
def chunk : RequestLoop → List ChunkInfo
  | .waiting c _ => [c]
  | _ => []

/-- The chunks the loop still knows. -/
def chunks : RequestLoop → List ChunkInfo
  | .idle => []
  | .requesting chunks => chunks
  | .waiting c chunks => c :: chunks

end RequestLoop

namespace Connection

variable {l : Lengths} {s s' : Connection}

/-- A Piece message answers a Request that the peer has and has not answered. -/
def Honest (s : Connection) : ConnectionEvent → Prop
  | .peerSends m => ∃ c ∈ s.unanswered, c.answer = m
  | _ => True

/-- A steal finds no request for the piece in flight. -/
def NothingToCancel (s : Connection) : ConnectionEvent → Prop
  | .onSteal p => ∀ c ∈ s.inflightRequests, c.pieceIndex ≠ p
  | _ => True

instance (s : Connection) : (e : ConnectionEvent) → Decidable (Honest s e)
  | .peerSends m => inferInstanceAs (Decidable (∃ c ∈ s.unanswered, c.answer = m))
  | .unchoke | .choke | .acquire _ | .addRequest | .sendRequest | .peerReceives _ | .receive
  | .onSteal _ => isTrue trivial

instance (s : Connection) : (e : ConnectionEvent) → Decidable (NothingToCancel s e)
  | .onSteal p => inferInstanceAs (Decidable (∀ c ∈ s.inflightRequests, c.pieceIndex ≠ p))
  | .unchoke | .choke | .acquire _ | .addRequest | .sendRequest | .peerReceives _ | .receive
  | .peerSends _ => isTrue trivial

/-- How often the chunk is on its way: waiting for its permit, as a Request, with the peer, or
as a Piece. -/
def onTheWay (s : Connection) (c : ChunkInfo) : ℕ :=
  s.requester.chunk.count c + s.toPeer.count (.request c) + s.unanswered.count c +
    s.replies.count c.answer

/-- Every chunk on its way is one of the torrent, is in flight, and is on its way once. -/
structure Asked (l : Lengths) (s : Connection) : Prop where
  notFailed : s.failed = none
  nodup : s.inflightRequests.Nodup
  once : ∀ c, IsChunk l c → s.onTheWay c ≤ s.inflightRequests.count c
  loop : ∀ c ∈ s.requester.chunks, IsChunk l c
  sent : ∀ c, .request c ∈ s.toPeer → IsChunk l c
  unanswered : ∀ c ∈ s.unanswered, IsChunk l c
  replies : ∀ m ∈ s.replies, ∃ c, IsChunk l c ∧ c.answer = m

/-- A steal that has nothing to cancel changes nothing. -/
theorem onSteal_eq {p : ℕ} (h : NothingToCancel s (.onSteal p)) : s.onSteal p = s := by
  have hkept : (s.inflightRequests.filter fun c => c.pieceIndex ≠ p) = s.inflightRequests :=
    List.filter_eq_self.2 fun c hc => decide_eq_true (h c hc)
  have hcancel : (s.inflightRequests.filter fun c => c.pieceIndex = p) = [] :=
    List.filter_eq_nil_iff.2 fun c hc => by simpa using h c hc
  simp only [onSteal, hkept, hcancel]
  simp

theorem request_beq (c d : ChunkInfo) : (WireMsg.request c == WireMsg.request d) = (c == d) := by
  simp [beq_eq_decide]

/-- The loop goes on without a chunk that waits. -/
theorem Asked.setLoop (h : Asked l s) {r : RequestLoop} (hs : s.requester.chunk = [])
    (hr : r.chunk = []) (hc : ∀ c ∈ r.chunks, IsChunk l c) : Asked l { s with requester := r } := by
  refine ⟨h.notFailed, h.nodup, ?_, hc, h.sent, h.unanswered, h.replies⟩
  intro c hc
  have honce := h.once c hc
  simp only [onTheWay, hs, hr] at honce ⊢
  exact honce

/-- The next chunk of the loop enters `inflight_requests`, and may wait for its permit. -/
theorem Asked.insert (h : Asked l s) {c : ChunkInfo} (hc : c ∉ s.inflightRequests) {r : RequestLoop}
    (hs : s.requester.chunk = []) (hr : r.chunk = [] ∨ r.chunk = [c])
    (hcs : ∀ d ∈ r.chunks, IsChunk l d) :
    Asked l { s with inflightRequests := c :: s.inflightRequests, requester := r } := by
  refine ⟨h.notFailed, List.nodup_cons.2 ⟨hc, h.nodup⟩, ?_, hcs, h.sent, h.unanswered, h.replies⟩
  intro d hd
  have honce := h.once d hd
  simp only [onTheWay, hs, List.count_nil, List.count_cons] at honce ⊢
  rcases hr with hr | hr
  · rw [hr, List.count_nil]
    omega
  · rw [hr, List.count_singleton]
    omega

theorem Asked.sendRequest (h : Asked l s) {c : ChunkInfo} {chunks : List ChunkInfo}
    (hr : s.requester = .waiting c chunks) : Asked l (s.sendRequest c chunks) := by
  have hloop := h.loop
  rw [hr] at hloop
  refine ⟨h.notFailed, h.nodup, ?_, fun d hd => hloop d (List.mem_cons_of_mem c hd), ?_,
    h.unanswered, h.replies⟩
  · intro d hd
    have honce := h.once d hd
    simp only [onTheWay, hr, Connection.sendRequest, RequestLoop.chunk, List.count_nil,
      List.count_append, List.count_singleton, request_beq] at honce ⊢
    omega
  · intro d hd
    rcases List.mem_append.1 hd with hold | hnew
    · exact h.sent d hold
    · obtain rfl : d = c := by simpa using hnew
      exact hloop d List.mem_cons_self

theorem Asked.getRequest (h : Asked l s) {c : ChunkInfo} {ms : List WireMsg}
    (hm : s.toPeer = .request c :: ms) :
    Asked l { s with toPeer := ms, unanswered := s.unanswered ++ [c] } := by
  have hsent := h.sent
  rw [hm] at hsent
  refine ⟨h.notFailed, h.nodup, ?_, h.loop, fun d hd => hsent d (List.mem_cons_of_mem _ hd), ?_,
    h.replies⟩
  · intro d hd
    have honce := h.once d hd
    simp only [onTheWay, hm, List.count_cons, List.count_append, List.count_nil,
      request_beq] at honce ⊢
    omega
  · intro d hd
    rcases List.mem_append.1 hd with hold | hnew
    · exact h.unanswered d hold
    · obtain rfl := List.mem_singleton.1 hnew
      exact hsent d List.mem_cons_self

theorem Asked.getCancel (h : Asked l s) {c : ChunkInfo} {ms : List WireMsg}
    (hm : s.toPeer = .cancel c :: ms) {us : List ChunkInfo} (hsub : us.Sublist s.unanswered) :
    Asked l { s with toPeer := ms, unanswered := us } := by
  have hsent := h.sent
  rw [hm] at hsent
  refine ⟨h.notFailed, h.nodup, ?_, h.loop, fun d hd => hsent d (List.mem_cons_of_mem _ hd),
    fun d hd => h.unanswered d (hsub.subset hd), h.replies⟩
  intro d hd
  have honce := h.once d hd
  have hle := hsub.count_le d
  simp only [onTheWay, hm, List.count_cons] at honce ⊢
  omega

theorem Asked.peerSends (h : Asked l s) {m : PieceMsg} (hm : ∃ c ∈ s.unanswered, c.answer = m) :
    Asked l (s.peerSends m) := by
  have hfind : (s.unanswered.find? fun c => c.answer = m).isSome = true := by
    rw [List.find?_isSome]
    simpa using hm
  obtain ⟨c, hc⟩ := Option.isSome_iff_exists.1 hfind
  have hmem := List.mem_of_find?_eq_some hc
  have hans : c.answer = m := by simpa using List.find?_some hc
  have hchunk := h.unanswered c hmem
  simp only [Connection.peerSends, hc]
  refine ⟨h.notFailed, h.nodup, ?_, h.loop, h.sent,
    fun d hd => h.unanswered d (List.mem_of_mem_erase hd), ?_⟩
  · intro d hd
    have honce := h.once d hd
    simp only [onTheWay, List.count_erase, List.count_append, List.count_singleton] at honce ⊢
    by_cases hdc : c = d
    · subst hdc
      have hpos := List.count_pos_iff.2 hmem
      simp only [hans, beq_self_eq_true, if_true] at honce ⊢
      omega
    · have hne : (m == d.answer) = false := by
        rw [beq_eq_false_iff_ne, ← hans]
        exact fun he => hdc (hchunk.answer_inj hd he)
      simp only [hne, beq_eq_false_iff_ne.2 hdc, Bool.false_eq_true, if_false] at honce ⊢
      omega
  · intro m' hm'
    rcases List.mem_append.1 hm' with hold | hnew
    · exact h.replies m' hold
    · rw [List.mem_singleton.1 hnew]
      exact ⟨c, hchunk, hans⟩

/-- The next Piece is for a chunk in flight. -/
theorem Asked.receive (h : Asked l s) {m : PieceMsg} {ms : List PieceMsg} (hm : s.replies = m :: ms) :
    Asked l (onReceivedPiece l { s with replies := ms } m) := by
  have hreplies := h.replies
  rw [hm] at hreplies
  obtain ⟨c, hchunk, rfl⟩ := hreplies m List.mem_cons_self
  have hin : c ∈ s.inflightRequests := by
    have honce := h.once c hchunk
    simp only [onTheWay, hm, List.count_cons, beq_self_eq_true, if_true] at honce
    exact List.count_pos_iff.1 (by omega)
  rw [onReceivedPiece_eq hchunk.received]
  simp only [if_pos hin]
  refine ⟨h.notFailed, h.nodup.erase c, ?_, h.loop, h.sent, h.unanswered,
    fun m hm => hreplies m (List.mem_cons_of_mem _ hm)⟩
  intro d hd
  have honce := h.once d hd
  simp only [onTheWay, hm, List.count_cons, List.count_erase] at honce ⊢
  by_cases hcd : c = d
  · subst hcd
    simp only [beq_self_eq_true, if_true] at honce ⊢
    omega
  · have hne : (c.answer == d.answer) = false := by
      rw [beq_eq_false_iff_ne]
      exact fun he => hcd (hchunk.answer_inj hd he)
    simp only [hne, beq_eq_false_iff_ne.2 hcd, Bool.false_eq_true, if_false] at honce ⊢
    omega

theorem Asked.step {e : ConnectionEvent} (h : Asked l s) (hok : Honest s e ∧ NothingToCancel s e)
    (hs : step l s e = some s') : Asked l s' := by
  obtain ⟨-, hst⟩ := step_steps hs
  have hloop := h.loop
  cases hst with
  | unchoke => exact ⟨h.notFailed, h.nodup, h.once, h.loop, h.sent, h.unanswered, h.replies⟩
  | choke => exact ⟨h.notFailed, h.nodup, h.once, h.loop, h.sent, h.unanswered, h.replies⟩
  | @acquire p hr hp => exact h.setLoop (by rw [hr]; rfl) rfl fun c hc => ⟨p, hp, hc⟩
  | loopEnd hr => exact h.setLoop (by rw [hr]; rfl) rfl (by simp [RequestLoop.chunks])
  | @skipRequest c chunks hr hmem =>
    rw [hr] at hloop
    exact h.setLoop (by rw [hr]; rfl) rfl fun d hd => hloop d (List.mem_cons_of_mem c hd)
  | @emptyRequest c chunks hr hmem =>
    rw [hr] at hloop
    exact h.insert hmem (by rw [hr]; rfl) (Or.inl rfl) fun d hd => hloop d (List.mem_cons_of_mem c hd)
  | @addRequest c chunks hr hmem =>
    rw [hr] at hloop
    exact h.insert hmem (by rw [hr]; rfl) (Or.inr rfl) hloop
  | sendRequest hr hp => exact h.sendRequest hr
  | getRequest forget hm => exact h.getRequest hm
  | @getCancel c ms forget hm =>
    refine h.getCancel hm ?_
    split_ifs
    · exact List.erase_sublist
    · exact List.Sublist.refl _
  | peerSends m => exact h.peerSends hok.1
  | receive hm => exact h.receive hm
  | onSteal p =>
    rw [onSteal_eq hok.2]
    exact h

theorem start_asked (l : Lengths) : Asked l start :=
  ⟨rfl, List.nodup_nil, by simp [onTheWay, start, RequestLoop.chunk],
    by simp [start, RequestLoop.chunks], by simp [start], by simp [start], by simp [start]⟩

/-- A peer that answers our Requests, each once, and loses no request to a steal, is never
dropped for a piece we did not ask for. -/
theorem honest_not_dropped (l : Lengths) (evs : List ConnectionEvent) (t : Connection)
    (hr : Run (step l) (fun s e => Honest s e ∧ NothingToCancel s e) start evs t) :
    t.failed ≠ some .notAsked := by
  have hinv : Asked l t := hr.inv (Asked l) (start_asked l) fun _ _ _ h hok hs => h.step hok hs
  simp [hinv.notFailed]

/-- The only chunk of the first piece is requested, and answered. -/
def answerFirst : List ConnectionEvent :=
  [.unchoke, .acquire 0, .addRequest, .sendRequest, .peerReceives false, .peerSends ⟨0, 0, 16384⟩]

/-- Another piece is stolen while the answer is on its way. -/
theorem answerFirst_not_dropped : ∃ t,
    Run (step twoPieces) (fun s e => Honest s e ∧ NothingToCancel s e) start
      (answerFirst ++ [.onSteal 1, .receive]) t ∧ t.requestsSem = 128 ∧ t.failed ≠ some .notAsked := by
  have hrun : ∃ t, Run (step twoPieces) (fun s e => Honest s e ∧ NothingToCancel s e) start
      (answerFirst ++ [.onSteal 1, .receive]) t ∧ decide (t.requestsSem = 128) = true :=
    Run.exists_of_exec (by decide +kernel)
  obtain ⟨t, hr, hq⟩ := hrun
  exact ⟨t, hr, of_decide_eq_true hq, honest_not_dropped _ _ _ hr⟩

/-- The piece itself is stolen while the answer is on its way. -/
theorem honest_peer_dropped : ∃ t,
    Run (step twoPieces) Honest start (answerFirst ++ [.onSteal 0, .receive]) t ∧
      t.failed = some .notAsked := by
  have hrun : ∃ t, Run (step twoPieces) Honest start (answerFirst ++ [.onSteal 0, .receive]) t ∧
      decide (t.failed = some .notAsked) = true := Run.exists_of_exec (by decide +kernel)
  obtain ⟨t, hr, hq⟩ := hrun
  exact ⟨t, hr, of_decide_eq_true hq⟩

end Connection

end Rtbit
