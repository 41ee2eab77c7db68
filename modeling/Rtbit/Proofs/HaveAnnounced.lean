import Rtbit.Lib.Runs
import Rtbit.Sanity.Torrent
import Rtbit.Spec.Haves

/-! The pieces that complete while a peer is connected are announced to it. The writer skips the
pieces of a peer whose bitfield is not there yet, and those that a receiver has lost that is more
than 128 pieces behind. -/

namespace Rtbit

open Lib

namespace Haves

namespace Conn

variable {l : Lengths} {s s' : Conn l} {id : ValidPieceIndex l}

/-- A piece that the peer knows we have, or has itself. -/
def Settled (s : Conn l) (id : ValidPieceIndex l) : Prop :=
  id ∈ s.announced ∨ id ∈ s.peerAnnounced ∨ s.writer = .sendingHave id

/-- What holds of the pieces whose `transmit_haves` has run, by how far the writer is. -/
def Reached (s : Conn l) : Prop :=
  match s.writer with
  | .unsubscribed | .subscribed | .serializing => True
  | .sendingBitfield b => Broadcast.Done (fun id => id ∈ b) s.sent s.next
  | .waiting | .sendingHave _ => Broadcast.Done s.Settled s.sent s.next

structure Inv (s : Conn l) : Prop where
  marked : ∀ id ∈ s.marked, id ∈ s.havePieces
  counted : ∀ id ∈ s.counted, id ∈ s.havePieces ∧ 0 < s.haveBytes
  sent : ∀ id ∈ s.sent, id ∈ s.havePieces ∧ 0 < s.haveBytes
  next : s.next ≤ s.sent.length
  reached : s.Reached
  /-- The bitfield of the peer has what the peer has announced. -/
  bitfield : ∀ id : ValidPieceIndex l, s.bitfield.get id.val = true → id ∈ s.peerAnnounced
  len : s.bitfield.len = 0 ∨ s.bitfield.len = l.pieceBitfieldBytes * 8

/-- When the writer takes a piece from the channel, its receiver has not lagged, and the peer is
live and has sent a bitfield or a `Have`. -/
def KeepsUp (s : Conn l) : Event l → Prop
  | .recv => s.sent.length ≤ s.next + capacity ∧ (s.next < s.sent.length → s.live = true ∧
      0 < s.bitfield.len)
  | _ => True

instance (s : Conn l) : (e : Event l) → Decidable (s.KeepsUp e)
  | .recv => inferInstanceAs (Decidable (_ ∧ _))
  | .markPieceHashOk _ | .addHaveBytes _ | .complete _ _ | .subscribe | .setLive _
  | .decideBitfield | .serializeBitfield | .written | .onBitfield _ | .onHave _ => isTrue trivial

/-- A step that leaves the writer and the channel alone, and announces no less. -/
theorem Reached.of_eq (h : s.Reached) (hw : s'.writer = s.writer) (hs : s'.sent = s.sent)
    (hn : s'.next = s.next) (ha : s'.announced = s.announced)
    (hp : s.peerAnnounced ⊆ s'.peerAnnounced) : s'.Reached := by
  unfold Reached at h ⊢
  have hmono : ∀ id, s.Settled id → s'.Settled id := by
    rintro id (h | h | h)
    · exact Or.inl (ha ▸ h)
    · exact Or.inr (Or.inl (hp h))
    · exact Or.inr (Or.inr (hw ▸ h))
  rw [hw, hs, hn]
  cases hwr : s.writer with
  | unsubscribed | subscribed | serializing => trivial
  | sendingBitfield b =>
    rw [hwr] at h
    exact h
  | waiting | sendingHave id =>
    rw [hwr] at h
    exact Broadcast.Done.mono h hmono

/-- A piece more is sent: the receiver has not got it yet. -/
theorem Reached.send (h : s.Reached) (hle : s.next ≤ s.sent.length) (id : ValidPieceIndex l) :
    Reached { s with sent := s.sent ++ [id] } := by
  unfold Reached at h ⊢
  cases hwr : s.writer with
  | unsubscribed | subscribed | serializing => trivial
  | sendingBitfield b =>
    simp only [hwr] at h ⊢
    exact Broadcast.Done.send h hle id
  | waiting | sendingHave id' =>
    simp only [hwr] at h ⊢
    refine (Broadcast.Done.send h hle id).mono fun id hs => ?_
    simpa only [Settled, hwr] using hs

theorem Inv.markPieceHashOk (h : s.Inv) (id : ValidPieceIndex l) :
    Inv { s with havePieces := insert id s.havePieces, marked := s.marked ++ [id] } := by
  refine ⟨?_, ?_, ?_, h.next, h.reached.of_eq rfl rfl rfl rfl (Finset.Subset.refl _), h.bitfield,
    h.len⟩
  · intro p hp
    rcases List.mem_append.1 hp with hp | hp
    · exact Finset.mem_insert_of_mem (h.marked p hp)
    · rw [List.mem_singleton.1 hp]
      exact Finset.mem_insert_self _ _
  · intro p hp
    exact (h.counted p hp).imp_left Finset.mem_insert_of_mem
  · intro p hp
    exact (h.sent p hp).imp_left Finset.mem_insert_of_mem

/-- A piece that is counted is have, and no piece is empty. -/
theorem Inv.addHaveBytes (h : s.Inv) {i : ℕ} (hi : s.marked[i]? = some id) :
    Inv { s with
      haveBytes := s.haveBytes + l.pieceLength id
      marked := s.marked.eraseIdx i
      counted := s.counted ++ [id] } := by
  have hpos := l.pieceLength_pos id
  refine ⟨?_, ?_, ?_, h.next, h.reached.of_eq rfl rfl rfl rfl (Finset.Subset.refl _), h.bitfield,
    h.len⟩
  · intro p hp
    exact h.marked p (List.mem_of_mem_eraseIdx hp)
  · intro p hp
    rcases List.mem_append.1 hp with hp | hp
    · exact ⟨(h.counted p hp).1, Nat.add_pos_right _ hpos⟩
    · rw [List.mem_singleton.1 hp]
      exact ⟨h.marked id (List.mem_of_getElem? hi), Nat.add_pos_right _ hpos⟩
  · intro p hp
    exact ⟨(h.sent p hp).1, Nat.add_pos_right _ hpos⟩

theorem Inv.complete (h : s.Inv) {i : ℕ} (hi : s.counted[i]? = some id) (ok : Bool) :
    Inv { s with
      counted := s.counted.eraseIdx i
      sent := if ok then s.sent ++ [id] else s.sent } := by
  have hid := h.counted id (List.mem_of_getElem? hi)
  have hcounted : ∀ p ∈ s.counted.eraseIdx i, p ∈ s.havePieces ∧ 0 < s.haveBytes :=
    fun p hp => h.counted p (List.mem_of_mem_eraseIdx hp)
  cases ok with
  | false => exact ⟨h.marked, hcounted, h.sent, h.next, h.reached, h.bitfield, h.len⟩
  | true =>
    refine ⟨h.marked, hcounted, ?_, ?_, h.reached.send h.next id, h.bitfield, h.len⟩
    · intro p hp
      rcases List.mem_append.1 hp with hp | hp
      · exact h.sent p hp
      · rw [List.mem_singleton.1 hp]
        exact hid
    · have := h.next
      simp only [if_true, List.length_append, List.length_singleton]
      omega

/-- The bitfield that is serialized has every piece whose `transmit_haves` has run. -/
theorem Inv.serialize (h : s.Inv) : Inv { s with writer := .sendingBitfield s.havePieces } :=
  ⟨h.marked, h.counted, h.sent, h.next, Broadcast.Done.of_all fun id hid => (h.sent id hid).1,
    h.bitfield, h.len⟩

/-- Where no bitfield is sent, no piece was counted, so none was sent either. -/
theorem Inv.decide (h : s.Inv) : Inv { s with
    writer := if s.shouldSendBitfield false then .serializing else .waiting } := by
  refine ⟨h.marked, h.counted, h.sent, h.next, ?_, h.bitfield, h.len⟩
  by_cases hb : s.shouldSendBitfield false = true
  · simp only [Reached, hb, if_true]
  · have hzero : ¬0 < s.haveBytes := by simpa [shouldSendBitfield] using hb
    simp only [Reached, hb]
    refine Broadcast.Done.of_all fun id hid => ?_
    exact absurd (h.sent id hid).2 hzero

theorem Inv.written_bitfield (h : s.Inv) {b : Finset (ValidPieceIndex l)}
    (hw : s.writer = .sendingBitfield b) :
    Inv { s with writer := .waiting, announced := s.announced ∪ b } := by
  refine ⟨h.marked, h.counted, h.sent, h.next, ?_, h.bitfield, h.len⟩
  have hr := h.reached
  simp only [Reached, hw] at hr ⊢
  exact hr.mono fun id hid => Or.inl (Finset.mem_union_right _ hid)

theorem Inv.written_have (h : s.Inv) (hw : s.writer = .sendingHave id) :
    Inv { s with writer := .waiting, announced := insert id s.announced } := by
  refine ⟨h.marked, h.counted, h.sent, h.next, ?_, h.bitfield, h.len⟩
  have hr := h.reached
  simp only [Reached, hw] at hr ⊢
  refine hr.mono ?_
  rintro p (hp | hp | hp)
  · exact Or.inl (Finset.mem_insert_of_mem hp)
  · exact Or.inr (Or.inl hp)
  · rw [hw] at hp
    cases hp
    exact Or.inl (Finset.mem_insert_self _ _)

theorem Inv.recv (h : s.Inv) (hw : s.writer = .waiting) (hok : s.KeepsUp .recv) :
    (s.recv false).Inv := by
  have hr := h.reached
  simp only [Reached, hw] at hr
  unfold Conn.recv
  rcases Broadcast.recv_of_le hok.1 with ⟨hrecv, -⟩ | ⟨id, hrecv, hid⟩
  · rw [hrecv]
    exact ⟨h.marked, h.counted, h.sent, h.next, h.reached, h.bitfield, h.len⟩
  · have hlt : s.next < s.sent.length := (List.getElem?_eq_some_iff.1 hid).1
    obtain ⟨hlive, hpos⟩ := hok.2 hlt
    have hcovers : id.val < s.bitfield.len := by
      have := h.len.resolve_left hpos.ne'
      have := l.totalPieces_le
      omega
    rw [hrecv]
    dsimp only
    split_ifs with ht
    · refine ⟨h.marked, h.counted, h.sent, hlt, ?_, h.bitfield, h.len⟩
      simp only [Reached]
      refine Broadcast.Done.recv (hr.mono ?_) hid (Or.inr (Or.inr rfl))
      rintro p (hp | hp | hp)
      · exact Or.inl hp
      · exact Or.inr (Or.inl hp)
      · rw [hw] at hp
        cases hp
    · -- the bit is there and set: the peer has the piece
      refine ⟨h.marked, h.counted, h.sent, hlt, ?_, h.bitfield, h.len⟩
      have hbit : s.bitfield.get id.val = true := by
        have hget : s.bitfield.bits[id.val]? = some (s.bitfield.bits.get ⟨id.val, hcovers⟩) :=
          List.getElem?_eq_getElem hcovers
        simpa [shouldTransmitHave, hlive, Bits.get_eq, hget] using ht
      simp only [Reached, hw]
      refine Broadcast.Done.recv (hr.mono ?_) hid (Or.inr (Or.inl (h.bitfield id hbit)))
      rintro p (hp | hp | hp)
      · exact Or.inl hp
      · exact Or.inr (Or.inl hp)
      · rw [hw] at hp
        cases hp

theorem Inv.onHave (h : s.Inv) (i : ℕ) : (s.onHave i).Inv := by
  have hget : ∀ id : ValidPieceIndex l, s.allocated.get id.val = true → id ∈ s.peerAnnounced := by
    intro id hid
    unfold allocated at hid
    split_ifs at hid
    · simp at hid
    · exact h.bitfield id hid
  have hlen : s.allocated.len = l.pieceBitfieldBytes * 8 := by
    unfold allocated
    split_ifs with hz
    · exact Bits.len_zeros _
    · exact h.len.resolve_left hz
  unfold Conn.onHave
  split_ifs with hl
  · refine ⟨h.marked, h.counted, h.sent, h.next, ?_, ?_, Or.inr (by simpa using hlen)⟩
    · exact h.reached.of_eq rfl rfl rfl rfl Finset.subset_union_left
    · intro id hid
      rw [Bits.get_set] at hid
      split_ifs at hid with hi
      · exact Finset.mem_union_right _ (Finset.mem_filter.2 ⟨Finset.mem_univ _, hi.1.symm⟩)
      · exact Finset.mem_union_left _ (hget id hid)
  · exact h

theorem Inv.step {e : Event l} (h : s.Inv) (hok : s.KeepsUp e) (hs : s.step false e = some s') :
    s'.Inv := by
  cases e with
  | markPieceHashOk id =>
    obtain rfl := Option.some.inj hs
    exact h.markPieceHashOk id
  | addHaveBytes i =>
    obtain ⟨id, hi, rfl⟩ := Option.map_eq_some_iff.1 hs
    exact h.addHaveBytes hi
  | complete i ok =>
    obtain ⟨id, hi, rfl⟩ := Option.map_eq_some_iff.1 hs
    exact h.complete hi ok
  | subscribe =>
    simp only [Conn.step] at hs
    split_ifs at hs
    obtain rfl := Option.some.inj hs
    exact ⟨h.marked, h.counted, h.sent, le_rfl, trivial, h.bitfield, h.len⟩
  | setLive live =>
    simp only [Conn.step] at hs
    split_ifs at hs
    obtain rfl := Option.some.inj hs
    refine ⟨h.marked, h.counted, h.sent, h.next, ?_, ?_, Or.inl rfl⟩
    · exact h.reached.of_eq rfl rfl rfl rfl (Finset.Subset.refl _)
    · intro id hid
      rw [Bits.get_of_le (Nat.zero_le _)] at hid
      cases hid
  | decideBitfield =>
    obtain ⟨-, hs⟩ := Option.ite_none_right_eq_some.1 hs
    obtain rfl := Option.some.inj hs
    exact h.decide
  | serializeBitfield =>
    simp only [Conn.step] at hs
    split_ifs at hs with hw
    obtain rfl := Option.some.inj hs
    exact h.serialize
  | written =>
    simp only [Conn.step] at hs
    split at hs
    · rename_i b hw
      obtain rfl := Option.some.inj hs
      exact h.written_bitfield hw
    · rename_i id hw
      obtain rfl := Option.some.inj hs
      exact h.written_have hw
    · cases hs
  | recv =>
    simp only [Conn.step] at hs
    split_ifs at hs with hw
    obtain rfl := Option.some.inj hs
    exact h.recv hw hok
  | onBitfield bitfield =>
    simp only [Conn.step] at hs
    split_ifs at hs with hlen hl
    · obtain rfl := Option.some.inj hs
      refine ⟨h.marked, h.counted, h.sent, h.next, ?_, ?_, Or.inr hlen⟩
      · exact h.reached.of_eq rfl rfl rfl rfl Finset.subset_union_left
      · intro id hid
        exact Finset.mem_union_right _ (Finset.mem_filter.2 ⟨Finset.mem_univ _, hid⟩)
    · obtain rfl := Option.some.inj hs
      exact h
  | onHave i =>
    obtain rfl := Option.some.inj hs
    exact h.onHave i

theorem start_inv (havePieces : Finset (ValidPieceIndex l)) : (start havePieces).Inv where
  marked := nofun
  counted := nofun
  sent := nofun
  next := le_rfl
  reached := trivial
  bitfield id hid := by
    rw [Bits.get_of_le (Nat.zero_le _)] at hid
    cases hid
  len := Or.inl rfl

/-- The peer is live and the writer has taken everything from its receiver and sent it. -/
def Drained (s : Conn l) : Prop := s.live = true ∧ s.writer = .waiting ∧ s.next = s.sent.length

instance (s : Conn l) : Decidable s.Drained := inferInstanceAs (Decidable (_ ∧ _))

/-- Along every run in which the writer takes pieces only while its receiver has not lagged and the
peer is live and has sent a bitfield or a `Have`: wherever the writer is done, every piece whose
`transmit_haves` has run was announced to the peer, or the peer has announced it. -/
theorem keepsUp_announced (l : Lengths) (havePieces : Finset (ValidPieceIndex l))
    (evs : List (Event l)) (t : Conn l) (hr : Run (step false) KeepsUp (start havePieces) evs t)
    (hd : t.Drained) : ∀ id ∈ t.sent, id ∈ t.announced ∨ id ∈ t.peerAnnounced := by
  have hinv : t.Inv :=
    hr.inv Inv (start_inv havePieces) fun _ _ _ hs hok hstep => hs.step hok hstep
  obtain ⟨-, hw, hn⟩ := hd
  have hreached := hinv.reached
  simp only [Reached, hw, hn] at hreached
  intro id hid
  rcases hreached.all id hid with ha | hp | hs
  · exact Or.inl ha
  · exact Or.inr hp
  · rw [hw] at hs
    cases hs

/-- A piece completes. -/
def completePiece (id : ValidPieceIndex twoPieces) : List (Event twoPieces) :=
  [.markPieceHashOk id, .addHaveBytes 0, .complete 0 true]

/-- The peer connects to a torrent without pieces, and sends a bitfield without pieces. -/
def withBitfield : List (Event twoPieces) :=
  [.setLive true, .markPieceHashOk firstPiece, .subscribe, .decideBitfield, .addHaveBytes 0,
    .onBitfield (.zeros 8), .complete 0 true, .recv, .written]

theorem withBitfield_announced : ∃ t, Run (step false) KeepsUp (start ∅) withBitfield t ∧
    t.Drained ∧ firstPiece ∈ t.sent ∧ (firstPiece ∈ t.announced ∨ firstPiece ∈ t.peerAnnounced) := by
  have hrun : ∃ t, Run (step false) KeepsUp (start ∅) withBitfield t ∧
      decide (t.Drained ∧ firstPiece ∈ t.sent) = true := Run.exists_of_exec (by decide +kernel)
  obtain ⟨t, hr, hq⟩ := hrun
  obtain ⟨hd, hs⟩ := of_decide_eq_true hq
  exact ⟨t, hr, hd, hs, keepsUp_announced _ _ _ _ hr hd firstPiece hs⟩

/-- A peer that has nothing connects and sends no bitfield. -/
def noBitfield : List (Event twoPieces) :=
  [.setLive true, .subscribe, .decideBitfield] ++ completePiece firstPiece ++ [.recv]

/-- The writer is done, and the peer was not told of the piece. -/
theorem no_bitfield_no_have : ∃ t, Run (step false) Any (start ∅) noBitfield t ∧
    decide (t.Drained ∧ firstPiece ∈ t.sent ∧ firstPiece ∉ t.announced ∧
      firstPiece ∉ t.peerAnnounced) = true :=
  Run.exists_of_exec (by decide +kernel)

end Conn

end Haves

end Rtbit
