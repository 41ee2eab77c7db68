import Rtbit.Lib.Runs
import Rtbit.Spec.ManagePeer

/-! Our extended handshake goes to the peers whose own handshake has advertised extensions, and
nothing extended goes to the others, on outgoing connections. An incoming connection asks our
handshake instead of the peer's, and that one always advertises them. -/

namespace Rtbit

open Lib

namespace PeerConnection

variable {I : Type} {f : ExtendedFormat} {handler : PeerConnectionHandler I}

/-- Our extended handshake is sent if and only if the peer has advertised extensions; a peer that
has not is sent nothing extended. -/
def Negotiated (remote : FullHandshake I) (s : ManagedPeer I) : Prop :=
  (.extendedHandshake ∈ s.sent ↔ remote.supportsExtended = true) ∧
    (remote.supportsExtended = false → ∀ m ∈ s.sent, m.isExtended = false)

def nextIds (ids : PeerExtendedMessageIds) : PeerEvent → PeerExtendedMessageIds
  | .extendedHandshake ids' => ids'
  | _ => ids

/-- The ids in the last extended handshake that the peer has sent. -/
def idsAfter (evs : List PeerEvent) : PeerExtendedMessageIds := evs.foldl nextIds fun _ => none

/-- A message is requested of an extension to which the peer has given an id before. -/
def Invited (evs : List PeerEvent) : Prop :=
  ∃ pre e, pre ++ [.request (.extended e)] <+: evs ∧ (idsAfter pre e).isSome = true

theorem idsAfter_snoc (evs : List PeerEvent) (ev : PeerEvent) :
    idsAfter (evs ++ [ev]) = nextIds (idsAfter evs) ev := by
  rw [idsAfter, List.foldl_append]
  rfl

theorem not_invited_nil : ¬Invited [] := by
  rintro ⟨pre, e, hpre, -⟩
  simpa using List.prefix_nil.1 hpre

theorem invited_snoc (evs : List PeerEvent) (ev : PeerEvent) :
    Invited (evs ++ [ev]) ↔
      Invited evs ∨ ∃ e, ev = .request (.extended e) ∧ (idsAfter evs e).isSome = true := by
  constructor
  · rintro ⟨pre, e, hpre, hid⟩
    rcases List.prefix_concat_iff.1 hpre with heq | hpre
    · obtain ⟨rfl, hev⟩ := List.append_inj' heq rfl
      exact Or.inr ⟨e, (List.cons.inj hev).1.symm, hid⟩
    · exact Or.inl ⟨pre, e, hpre, hid⟩
  · rintro (⟨pre, e, hpre, hid⟩ | ⟨e, rfl, hid⟩)
    · exact ⟨pre, e, hpre.trans (List.prefix_append evs [ev]), hid⟩
    · exact ⟨evs, e, List.prefix_rfl, hid⟩

/-! One step. -/

namespace ManagedPeer

/-- Something is sent that is not extended, or nothing. -/
def SendsPlain (s s' : ManagedPeer I) : Prop :=
  ∃ ms, s'.sent = s.sent ++ ms ∧ ∀ m ∈ ms, m.isExtended = false

theorem SendsPlain.of_eq {s s' : ManagedPeer I} (h : s'.sent = s.sent) : SendsPlain s s' :=
  ⟨[], by simpa using h, by simp⟩

theorem SendsPlain.of_write {s s' : ManagedPeer I} (m : SentMessage I) (h : s'.sent = s.sent ++ [m])
    (hm : m.isExtended = false) : SendsPlain s s' :=
  ⟨[m], h, by simpa using hm⟩

/-- What a step sends: an extended message that was requested, or nothing extended. -/
structure Effect (f : ExtendedFormat) (s : ManagedPeer I) (ev : PeerEvent) (s' : ManagedPeer I) :
    Prop where
  ids : s'.extMsgIds = nextIds s.extMsgIds ev
  sent : (∃ e id, ev = .request (.extended e) ∧ f.serialize s.extMsgIds e = some id ∧
      s'.sent = s.sent ++ [.extended e id]) ∨
    (∀ e, ev = .request (.extended e) → f.serialize s.extMsgIds e = none) ∧ SendsPlain s s'

theorem serve_effect (f : ExtendedFormat) (s : ManagedPeer I) (r : WriterRequest) :
    Effect f s (.request r) (s.serve f r) := by
  cases r with
  | message => exact ⟨rfl, Or.inr ⟨nofun, .of_write .message rfl rfl⟩⟩
  | extended e =>
    rw [serve]
    cases hf : f.serialize s.extMsgIds e with
    | some id => exact ⟨rfl, Or.inl ⟨e, id, rfl, hf, rfl⟩⟩
    | none =>
      refine ⟨rfl, Or.inr ⟨?_, .of_eq rfl⟩⟩
      intro e' he
      injection he with he
      injection he with he
      rw [← he, hf]
  | readChunkRequest => exact ⟨rfl, Or.inr ⟨nofun, .of_write .piece rfl rfl⟩⟩
  | disconnect => exact ⟨rfl, Or.inr ⟨nofun, .of_eq rfl⟩⟩

theorem step_effect {s s' : ManagedPeer I} {ev : PeerEvent} (h : step f handler s ev = some s') :
    Effect f s ev s' := by
  unfold step at h
  split at h
  · cases h
  · -- the bitfield
    obtain rfl := Option.some.inj h
    refine ⟨?_, Or.inr ⟨nofun, ?_⟩⟩
    · split_ifs <;> rfl
    · split_ifs
      · exact .of_write .bitfield rfl rfl
      · exact .of_eq rfl
  · obtain rfl := Option.some.inj h
    exact ⟨rfl, Or.inr ⟨nofun, .of_write .unchoke rfl rfl⟩⟩
  · cases h
  · obtain rfl := Option.some.inj h
    exact serve_effect f s _
  · cases h
  all_goals
    obtain rfl := Option.some.inj h
    exact ⟨rfl, Or.inr ⟨nofun, .of_eq rfl⟩⟩

end ManagedPeer

/-! A run. -/

/-- What has been sent when the events `evs` have been taken from `s₀`. -/
structure After (s₀ : ManagedPeer I) (evs : List PeerEvent) (s : ManagedPeer I) : Prop where
  ids : s.extMsgIds = idsAfter evs
  handshake : .extendedHandshake ∈ s.sent ↔ .extendedHandshake ∈ s₀.sent
  extended : (∃ e id, .extended e id ∈ s.sent) ↔ (∃ e id, .extended e id ∈ s₀.sent) ∨ Invited evs

theorem After.start {s₀ : ManagedPeer I} (h : s₀.extendedHandshake = none) : After s₀ [] s₀ := by
  refine ⟨?_, Iff.rfl, (or_iff_left not_invited_nil).symm⟩
  rw [ManagedPeer.extMsgIds, h]
  rfl

theorem After.snoc (hf : f.Lawful) {s₀ s s' : ManagedPeer I} {evs : List PeerEvent} {ev : PeerEvent}
    (h : After s₀ evs s) (he : ManagedPeer.Effect f s ev s') : After s₀ (evs ++ [ev]) s' := by
  refine ⟨by rw [idsAfter_snoc, ← h.ids, he.ids], ?_, ?_⟩
  · rw [← h.handshake]
    rcases he.sent with ⟨e, id, -, -, hs⟩ | ⟨-, ms, hs, hms⟩
    · simp [hs]
    · rw [hs, List.mem_append]
      refine or_iff_left ?_
      intro hm
      cases hms _ hm
  · rw [invited_snoc, ← or_assoc, ← h.extended, ← h.ids]
    rcases he.sent with ⟨e, id, rfl, hid, hs⟩ | ⟨hnone, ms, hs, hms⟩
    · -- the peer has given the extension an id
      have hsome : (s.extMsgIds e).isSome = true := by
        rw [← hf, hid]
        rfl
      refine iff_of_true ⟨e, id, by simp [hs]⟩ (Or.inr ⟨e, rfl, hsome⟩)
    · have hplain : (∃ e id, .extended e id ∈ s'.sent) ↔ ∃ e id, .extended e id ∈ s.sent := by
        simp only [hs, List.mem_append]
        refine exists₂_congr fun e id => or_iff_left ?_
        intro hm
        cases hms _ hm
      rw [hplain]
      refine (or_iff_left ?_).symm
      rintro ⟨e, rfl, hsome⟩
      rw [← hf, hnone e rfl] at hsome
      cases hsome

theorem After.of_run (hf : f.Lawful) {s₀ s : ManagedPeer I} {evs : List PeerEvent}
    (h : s₀.extendedHandshake = none) (hr : Run (ManagedPeer.step f handler) Any s₀ evs s) :
    After s₀ evs s := by
  induction hr with
  | nil => exact .start h
  | snoc _ _ hs ih => exact ih.snoc hf (ManagedPeer.step_effect hs)

/-! The two ways into `manage_peer`. -/

section

variable {infoHash peerId : I} {remote : FullHandshake I} {s₀ s : ManagedPeer I}

/-- The handshake that `handshake_supports_extended` is read from. -/
def Direction.asked (infoHash peerId : I) (remote : FullHandshake I) : Direction → FullHandshake I
  | .outgoing => remote
  | .incoming => FullHandshake.new infoHash peerId

theorem managePeer_start {b : Bool}
    (h : managePeer handler b [.handshake (FullHandshake.new infoHash peerId)] = .ok s₀) :
    s₀.extendedHandshake = none ∧ (.extendedHandshake ∈ s₀.sent ↔ b = true) ∧
      ¬∃ e id, .extended e id ∈ s₀.sent := by
  unfold managePeer at h
  split_ifs at h with hb hu
  · obtain rfl := Except.ok.inj h
    simp [hb]
  · obtain rfl := Except.ok.inj h
    simp [hb]

theorem Direction.managePeer_start [DecidableEq I] {dir : Direction}
    (h : dir.managePeer infoHash peerId handler remote = .ok s₀) :
    s₀.extendedHandshake = none ∧
      (.extendedHandshake ∈ s₀.sent ↔
        (dir.asked infoHash peerId remote).supportsExtended = true) ∧
      ¬∃ e id, .extended e id ∈ s₀.sent := by
  cases dir with
  | outgoing =>
    simp only [Direction.managePeer, managePeerOutgoing] at h
    split at h
    · cases h
    · split_ifs at h
      exact PeerConnection.managePeer_start h
  | incoming =>
    simp only [Direction.managePeer, managePeerIncoming] at h
    split at h
    · cases h
    · split_ifs at h
      exact PeerConnection.managePeer_start h

theorem plain_iff (s : ManagedPeer I) : (∀ m ∈ s.sent, m.isExtended = false) ↔
    .extendedHandshake ∉ s.sent ∧ ¬∃ e id, .extended e id ∈ s.sent := by
  constructor
  · intro h
    refine ⟨?_, ?_⟩
    · intro hm
      cases h _ hm
    · rintro ⟨e, id, hm⟩
      cases h _ hm
  · rintro ⟨hhs, hext⟩ m hm
    cases m with
    | extendedHandshake => exact absurd hm hhs
    | extended e id => exact absurd ⟨e, id, hm⟩ hext
    | _ => rfl

end

theorem negotiated_iff [DecidableEq I] (f : ExtendedFormat) (hf : f.Lawful) (dir : Direction)
    (infoHash peerId : I) (handler : PeerConnectionHandler I) (remote : FullHandshake I)
    (s₀ : ManagedPeer I) (hstart : dir.managePeer infoHash peerId handler remote = .ok s₀)
    (evs : List PeerEvent) (s : ManagedPeer I)
    (hr : Run (ManagedPeer.step f handler) Any s₀ evs s) :
    Negotiated remote s ↔ remote.supportsExtended = true ∨ dir = .outgoing ∧ ¬Invited evs := by
  obtain ⟨hnone, hhs, hext⟩ := Direction.managePeer_start hstart
  have hafter := After.of_run hf hnone hr
  rw [← hafter.handshake] at hhs
  have hinv : (∃ e id, .extended e id ∈ s.sent) ↔ Invited evs := by
    rw [hafter.extended, or_iff_right hext]
  rw [Negotiated, plain_iff, hhs, hinv]
  cases dir with
  | outgoing =>
    cases hb : remote.supportsExtended with
    | true => simp [Direction.asked, hb]
    | false => simp [Direction.asked, hb]
  | incoming =>
    cases hb : remote.supportsExtended with
    | true => simp [Direction.asked, FullHandshake.new]
    | false => simp [Direction.asked, FullHandshake.new]

/-! An outgoing connection to a peer that does not advertise extensions, and has an id for one
that is not asked for. -/

def idFormat : ExtendedFormat := ⟨fun ids e => ids e⟩

def seedingHandler : PeerConnectionHandler ℕ := ⟨fun _ => true, true, true⟩

def plainPeer : FullHandshake ℕ := ⟨⟨1, 3⟩, false⟩

def plainEvents : List PeerEvent :=
  [.writer, .received, .writer, .extendedHandshake fun _ => some 1, .request .message,
    .request .readChunkRequest]

theorem plainPeer_negotiated : ∃ s₀ s,
    Direction.outgoing.managePeer 1 2 seedingHandler plainPeer = .ok s₀ ∧
      Run (ManagedPeer.step idFormat seedingHandler) Any s₀ plainEvents s ∧
      Negotiated plainPeer s := by
  have hstart : Direction.outgoing.managePeer 1 2 seedingHandler plainPeer = .ok _ := rfl
  have hrun : Run (ManagedPeer.step idFormat seedingHandler) Any _ plainEvents _ :=
    Run.of_exec (s := ⟨[.handshake (FullHandshake.new 1 2)], none, .bitfield⟩) rfl
  refine ⟨_, _, hstart, hrun, ?_⟩
  refine (negotiated_iff idFormat (fun _ _ => rfl) .outgoing 1 2 seedingHandler plainPeer _ hstart
    plainEvents _ hrun).2 (Or.inr ⟨rfl, ?_⟩)
  rintro ⟨pre, e, hpre, -⟩
  have hmem := hpre.subset (List.mem_append_right pre List.mem_cons_self)
  simp [plainEvents] at hmem

/-- On an incoming connection the same peer is sent our extended handshake. -/
theorem plainPeer_incoming : ∃ s₀,
    Direction.incoming.managePeer 1 2 seedingHandler plainPeer = .ok s₀ ∧
      .extendedHandshake ∈ s₀.sent ∧ plainPeer.supportsExtended = false ∧
      ¬Negotiated plainPeer s₀ := by
  refine ⟨_, rfl, by decide, rfl, ?_⟩
  rintro ⟨h, -⟩
  exact absurd (h.1 (by decide)) (by decide)

end PeerConnection

end Rtbit
