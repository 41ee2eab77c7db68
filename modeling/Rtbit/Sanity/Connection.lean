import Rtbit.Spec.Connection

/-! The steps of a connection, one case an event that can happen, and the chunks behind the
Piece messages. -/

namespace Rtbit

namespace Connection

variable {l : Lengths} {s s' : Connection}

/-- Every step of a connection that has not failed. -/
inductive Steps (l : Lengths) (s : Connection) : ConnectionEvent → Connection → Prop
  | unchoke : Steps l s .unchoke s.onIAmUnchoked
  | choke : Steps l s .choke { s with iAmChoked := true }
  | acquire {p : ℕ} (hr : s.requester = .idle) (hp : p < l.totalPieces) :
      Steps l s (.acquire p) { s with requester := .requesting (l.iterChunkInfos p) }
  | loopEnd (hr : s.requester = .requesting []) : Steps l s .addRequest { s with requester := .idle }
  | skipRequest {c : ChunkInfo} {chunks : List ChunkInfo} (hr : s.requester = .requesting (c :: chunks))
      (hc : c ∈ s.inflightRequests) :
      Steps l s .addRequest { s with requester := .requesting chunks }
  | emptyRequest {c : ChunkInfo} {chunks : List ChunkInfo} (hr : s.requester = .requesting (c :: chunks))
      (hc : c ∉ s.inflightRequests) :
      Steps l s .addRequest
        { s with inflightRequests := c :: s.inflightRequests, requester := .requesting chunks }
  | addRequest {c : ChunkInfo} {chunks : List ChunkInfo} (hr : s.requester = .requesting (c :: chunks))
      (hc : c ∉ s.inflightRequests) :
      Steps l s .addRequest
        { s with inflightRequests := c :: s.inflightRequests, requester := .waiting c chunks }
  | sendRequest {c : ChunkInfo} {chunks : List ChunkInfo} (hr : s.requester = .waiting c chunks)
      (hp : 0 < s.requestsSem) : Steps l s .sendRequest (s.sendRequest c chunks)
  | getRequest {c : ChunkInfo} {ms : List WireMsg} (forget : Bool) (hm : s.toPeer = .request c :: ms) :
      Steps l s (.peerReceives forget) { s with toPeer := ms, unanswered := s.unanswered ++ [c] }
  | getCancel {c : ChunkInfo} {ms : List WireMsg} (forget : Bool) (hm : s.toPeer = .cancel c :: ms) :
      Steps l s (.peerReceives forget)
        { s with toPeer := ms, unanswered := if forget then s.unanswered.erase c else s.unanswered }
  | peerSends (m : PieceMsg) : Steps l s (.peerSends m) (s.peerSends m)
  | receive {m : PieceMsg} {ms : List PieceMsg} (hm : s.replies = m :: ms) :
      Steps l s .receive (onReceivedPiece l { s with replies := ms } m)
  | onSteal (p : ℕ) : Steps l s (.onSteal p) (s.onSteal p)

theorem step_steps {e : ConnectionEvent} (h : step l s e = some s') :
    s.failed = none ∧ Steps l s e s' := by
  unfold step at h
  by_cases hf : s.failed.isSome = true
  · rw [if_pos hf] at h
    cases h
  rw [if_neg hf] at h
  refine ⟨by simpa using hf, ?_⟩
  cases e with
  | unchoke =>
    obtain rfl := Option.some.inj h
    exact .unchoke
  | choke =>
    obtain rfl := Option.some.inj h
    exact .choke
  | acquire p =>
    simp only at h
    split_ifs at h with hc
    obtain rfl := Option.some.inj h
    exact .acquire hc.1 hc.2.2
  | addRequest =>
    cases hr : s.requester with
    | idle => simp [hr] at h
    | waiting c chunks => simp [hr] at h
    | requesting chunks =>
      cases chunks with
      | nil =>
        simp only [hr, Option.some.injEq] at h
        subst h
        exact .loopEnd hr
      | cons c chunks =>
        simp only [hr, Option.some.injEq, addChunkRequest] at h
        subst h
        split_ifs with hc hz
        · exact .skipRequest hr hc
        · exact .emptyRequest hr hc
        · exact .addRequest hr hc
  | sendRequest =>
    cases hr : s.requester with
    | idle => simp [hr] at h
    | requesting chunks => simp [hr] at h
    | waiting c chunks =>
      simp only [hr] at h
      split_ifs at h with hp
      obtain rfl := Option.some.inj h
      exact .sendRequest hr hp
  | peerReceives forget =>
    cases hm : s.toPeer with
    | nil => simp [hm] at h
    | cons m ms =>
      cases m with
      | request c =>
        simp only [hm, Option.some.injEq] at h
        subst h
        exact .getRequest forget hm
      | cancel c =>
        simp only [hm, Option.some.injEq] at h
        subst h
        exact .getCancel forget hm
  | peerSends m =>
    obtain rfl := Option.some.inj h
    exact .peerSends m
  | receive =>
    cases hm : s.replies with
    | nil => simp [hm] at h
    | cons m ms =>
      simp only [hm, Option.some.injEq] at h
      subst h
      exact .receive hm
  | onSteal p =>
    obtain rfl := Option.some.inj h
    exact .onSteal p

/-! The chunk behind a Piece message. -/

/-- The chunk that `on_received_piece` finds, if the message is valid. -/
def receivedChunk (l : Lengths) (m : PieceMsg) : Option ChunkInfo :=
  (l.validatePieceIndex m.index).bind fun p => l.chunkInfoFromReceivedData p m.start m.len

/-- `c` is a chunk of the torrent. -/
def IsChunk (l : Lengths) (c : ChunkInfo) : Prop := ∃ p < l.totalPieces, c ∈ l.iterChunkInfos p

theorem IsChunk.received {c : ChunkInfo} (h : IsChunk l c) : receivedChunk l c.answer = some c := by
  obtain ⟨p, hp, hc⟩ := h
  have hidx := l.pieceIndex_iter p hp c hc
  have hval : l.validatePieceIndex c.answer.index = some ⟨p, hp⟩ :=
    l.validatePieceIndex_eq_some.2 hidx
  rw [receivedChunk, hval, Option.bind_some]
  exact (l.received_iff p hp c.offset c.size c).2 ⟨hc, rfl, rfl⟩

theorem IsChunk.answer_inj {c d : ChunkInfo} (hc : IsChunk l c) (hd : IsChunk l d)
    (h : c.answer = d.answer) : c = d := by
  have hr := hc.received
  rw [h, hd.received] at hr
  exact (Option.some.inj hr).symm

/-- What `on_received_piece` does with a valid message. -/
theorem onReceivedPiece_eq {m : PieceMsg} {c : ChunkInfo} (h : receivedChunk l m = some c) :
    onReceivedPiece l s m =
      { s with
        requestsSem := s.requestsSem + 1
        outstanding := s.outstanding.erase c
        inflightRequests :=
          if c ∈ s.inflightRequests then s.inflightRequests.erase c else s.inflightRequests
        failed := if c ∈ s.inflightRequests then s.failed else some .notAsked } := by
  obtain ⟨p, hp, hc⟩ := Option.bind_eq_some_iff.1 h
  unfold onReceivedPiece
  simp only [hp, hc]
  split_ifs <;> rfl

/-- An invalid message only ends the connection. -/
theorem onReceivedPiece_invalid {m : PieceMsg} (h : receivedChunk l m = none) :
    ∃ e, e ≠ .notAsked ∧ onReceivedPiece l s m = { s with failed := some e } := by
  unfold receivedChunk at h
  unfold onReceivedPiece
  cases hp : l.validatePieceIndex m.index with
  | none => exact ⟨.invalidIndex, by simp, rfl⟩
  | some p =>
    rw [hp, Option.bind_some] at h
    simp only [h]
    exact ⟨.invalidPiece, by simp, rfl⟩

end Connection

end Rtbit
