import Rtbit.Lib.Runs
import Rtbit.Sanity.Connection
import Rtbit.Sanity.Torrent

/-! The request window of a connection: the available permits and the outstanding Requests make
up the permits that the Unchoke messages have brought. A Piece gives its permit back when it
arrives; a Request that `on_steal` cancels gives none back. -/

namespace Rtbit

open Lib

namespace Connection

variable {l : Lengths} {s s' : Connection}

/-- A steal cancels no Request whose permit was taken, and a Piece answers an outstanding
Request, or none of the torrent's chunks. -/
def PermitsReturned (l : Lengths) (s : Connection) : ConnectionEvent → Prop
  | .onSteal p => ∀ c ∈ s.inflightRequests, c.pieceIndex = p → c ∉ s.outstanding
  | .receive => ∀ m ∈ s.replies.head?.toList, ∀ c ∈ (receivedChunk l m).toList, c ∈ s.outstanding
  | _ => True

instance (l : Lengths) (s : Connection) : (e : ConnectionEvent) → Decidable (PermitsReturned l s e)
  | .onSteal p => inferInstanceAs (Decidable
      (∀ c ∈ s.inflightRequests, c.pieceIndex = p → c ∉ s.outstanding))
  | .receive => inferInstanceAs (Decidable
      (∀ m ∈ s.replies.head?.toList, ∀ c ∈ (receivedChunk l m).toList, c ∈ s.outstanding))
  | .unchoke | .choke | .acquire _ | .addRequest | .sendRequest | .peerReceives _ | .peerSends _ =>
    isTrue trivial

def Window (s : Connection) : Prop := s.requestsSem + s.outstanding.length = 128 * s.unchokes

theorem Window.receive (h : Window s) {m : PieceMsg} {ms : List PieceMsg} (hm : s.replies = m :: ms)
    (hok : PermitsReturned l s .receive) :
    Window (onReceivedPiece l { s with replies := ms } m) := by
  cases hc : receivedChunk l m with
  | none =>
    obtain ⟨e, -, he⟩ := onReceivedPiece_invalid (s := { s with replies := ms }) hc
    rw [he]
    exact h
  | some c =>
    have hout : c ∈ s.outstanding := hok m (by simp [hm]) c (by simp [hc])
    have hpos := List.length_pos_of_mem hout
    rw [onReceivedPiece_eq hc]
    simp only [Window, List.length_erase_of_mem hout] at h ⊢
    omega

/-- A steal that cancels no Request with a permit leaves the outstanding Requests alone. -/
theorem Window.onSteal (h : Window s) {p : ℕ} (hok : PermitsReturned l s (.onSteal p)) :
    Window (s.onSteal p) := by
  have hkept : (s.outstanding.filter fun c =>
      c ∉ s.inflightRequests.filter fun c => c.pieceIndex = p) = s.outstanding := by
    refine List.filter_eq_self.2 ?_
    intro c hc
    simp only [List.mem_filter, decide_eq_true_eq, not_and]
    exact fun hin hp => hok c hin hp hc
  simp only [Window, Connection.onSteal, hkept]
  exact h

theorem Window.step {e : ConnectionEvent} (h : Window s) (hok : PermitsReturned l s e)
    (hs : step l s e = some s') : Window s' := by
  obtain ⟨-, hst⟩ := step_steps hs
  cases hst with
  | unchoke =>
    simp only [Window, onIAmUnchoked] at h ⊢
    omega
  | sendRequest hr hp =>
    simp only [Window, Connection.sendRequest, List.length_cons] at h ⊢
    omega
  | receive hm => exact h.receive hm hok
  | onSteal p => exact h.onSteal hok
  | choke | acquire | loopEnd | skipRequest | emptyRequest | addRequest | getRequest | getCancel
  | peerSends => exact h

/-- Along every run in which no steal cancels a Request whose permit was taken and every Piece
answers an outstanding Request, the permits are conserved. -/
theorem window_conserved (l : Lengths) (evs : List ConnectionEvent) (t : Connection)
    (hr : Run (step l) (PermitsReturned l) start evs t) :
    t.requestsSem + t.outstanding.length = 128 * t.unchokes := by
  have h0 : Window start := rfl
  exact hr.inv Window h0 fun _ _ _ h hok hs => h.step hok hs

/-- The two pieces are requested; the chunk of the second still waits for its permit. -/
def requestTwo : List ConnectionEvent :=
  [.unchoke, .acquire 0, .addRequest, .sendRequest, .addRequest, .acquire 1, .addRequest]

theorem requestTwo_window : ∃ t,
    Run (step twoPieces) (PermitsReturned twoPieces) start
      (requestTwo ++ [.onSteal 1, .choke, .sendRequest, .unchoke]) t ∧ t.outstanding.length = 2 ∧
      t.requestsSem + t.outstanding.length = 128 * t.unchokes := by
  have hrun : ∃ t, Run (step twoPieces) (PermitsReturned twoPieces) start
      (requestTwo ++ [.onSteal 1, .choke, .sendRequest, .unchoke]) t ∧
        decide (t.outstanding.length = 2) = true := Run.exists_of_exec (by decide +kernel)
  obtain ⟨t, hr, hq⟩ := hrun
  exact ⟨t, hr, of_decide_eq_true hq, window_conserved _ _ _ hr⟩

/-- The first piece is stolen: its Request is cancelled and the permit is gone. A Piece that
answers nothing, on the other hand, brings a permit. -/
theorem window_not_conserved :
    (∃ t, Run (step twoPieces) Any start (requestTwo ++ [.onSteal 0]) t ∧ t.requestsSem = 127 ∧
      t.outstanding = [] ∧ t.unchokes = 1) ∧
    ∃ t, Run (step twoPieces) Any start [.peerSends ⟨0, 0, 16384⟩, .receive] t ∧
      t.requestsSem = 1 ∧ t.outstanding = [] ∧ t.unchokes = 0 := by
  have hsteal : ∃ t, Run (step twoPieces) Any start (requestTwo ++ [.onSteal 0]) t ∧
      decide (t.requestsSem = 127 ∧ t.outstanding = [] ∧ t.unchokes = 1) = true :=
    Run.exists_of_exec (by decide +kernel)
  have hunasked : ∃ t, Run (step twoPieces) Any start [.peerSends ⟨0, 0, 16384⟩, .receive] t ∧
      decide (t.requestsSem = 1 ∧ t.outstanding = [] ∧ t.unchokes = 0) = true :=
    Run.exists_of_exec (by decide +kernel)
  obtain ⟨t, hr, hq⟩ := hsteal
  obtain ⟨u, hu, hqu⟩ := hunasked
  exact ⟨⟨t, hr, of_decide_eq_true hq⟩, u, hu, of_decide_eq_true hqu⟩

end Connection

end Rtbit
