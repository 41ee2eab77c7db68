import Rtbit.Lib.Runs
import Rtbit.Lib.Values
import Rtbit.Spec.StreamConnect

/-! The race of TCP and uTP. A call returns what one of its own attempts came to, and when both of
its futures are done it has returned, so its `select!` is never left without a branch. The
statistics are the calls, counted. -/

namespace Rtbit

open Lib

namespace StreamConnect

variable {S E U : Type}

/-! The statistics. -/

def Attempt.forget : Attempt E → Attempt Unit
  | .connecting => .connecting
  | .connected => .connected
  | .failed _ => .failed ()

def TcpConnect.attempt : TcpConnect E → Option (Attempt Unit)
  | .polled a => some a.forget
  | .notPolled | .disabled => none

def UtpConnect.attempt : UtpConnect U → Option (Attempt Unit)
  | .polled _ _ a => some a.forget
  | .notPolled | .disabled | .waiting _ _ => none

/-- How far a call has come with the kind, if it has tried it. -/
def ConnectPath.attempt : ConnectPath S E U → ConnectionKind → Option (Attempt Unit)
  | .socks a, .socks => some a.forget
  | .race tcp _ _, .tcp => tcp.attempt
  | .race _ utp _, .utp => utp.attempt
  | _, _ => none

def ConnectCall.attempt (c : ConnectCall S E U) (kind : ConnectionKind) : Option (Attempt Unit) :=
  c.path.attempt kind

/-- How many of the calls to addresses of the family have come so far with the kind. -/
def number (calls : List (ConnectCall S E U)) (kind : ConnectionKind) (isV6 : Bool)
    (p : Attempt Unit → Bool) : ℕ :=
  calls.countP fun c => isIpv6 c.addr == isV6 && (c.attempt kind).any p

/-- The statistics of the calls. -/
def tally (calls : List (ConnectCall S E U)) (kind : ConnectionKind) (isV6 : Bool) : SingleStat where
  attempts := number calls kind isV6 fun _ => true
  successes := number calls kind isV6 (· == .connected)
  errors := number calls kind isV6 (· == .failed ())

variable {calls : List (ConnectCall S E U)} {c c' : ConnectCall S E U} {k : ℕ}
  {kind : ConnectionKind} {isV6 : Bool} {p : Attempt Unit → Bool}

theorem number_set (hk : calls[k]? = some c) (haddr : c'.addr = c.addr) (kind : ConnectionKind)
    (isV6 : Bool) (p : Attempt Unit → Bool) :
    number (calls.set k c') kind isV6 p +
        (if isIpv6 c.addr == isV6 && (c.attempt kind).any p then 1 else 0) =
      number calls kind isV6 p +
        (if isIpv6 c.addr == isV6 && (c'.attempt kind).any p then 1 else 0) := by
  have hset := countP_set (y := c')
    (fun c : ConnectCall S E U => isIpv6 c.addr == isV6 && (c.attempt kind).any p) hk
  rw [haddr] at hset
  exact hset

/-- What the statistics count is right. -/
def Counted (s : Connects S E U) : Prop := ∀ kind isV6, s.stats kind isV6 = tally s.calls kind isV6

theorem tally_set_same (hk : calls[k]? = some c) (haddr : c'.addr = c.addr)
    (h : c'.attempt kind = c.attempt kind) (isV6 : Bool) :
    tally (calls.set k c') kind isV6 = tally calls kind isV6 := by
  have hnumber : ∀ p, number (calls.set k c') kind isV6 p = number calls kind isV6 p := by
    intro p
    have hset := number_set hk haddr kind isV6 p
    rw [h] at hset
    omega
  rw [tally, tally, hnumber, hnumber, hnumber]

/-- What the call adds to each of the three counts. -/
def counts (a : Option (Attempt Unit)) : SingleStat where
  attempts := if a.any fun _ => true then 1 else 0
  successes := if a.any (· == .connected) then 1 else 0
  errors := if a.any (· == .failed ()) then 1 else 0

theorem number_set_of_ne (hk : calls[k]? = some c) (haddr : c'.addr = c.addr)
    (hv : isV6 ≠ isIpv6 c.addr) (kind : ConnectionKind) (p : Attempt Unit → Bool) :
    number (calls.set k c') kind isV6 p = number calls kind isV6 p := by
  have hset := number_set hk haddr kind isV6 p
  rw [beq_eq_false_iff_ne.2 hv.symm] at hset
  exact hset

theorem number_set_self (hk : calls[k]? = some c) (haddr : c'.addr = c.addr)
    (kind : ConnectionKind) (p : Attempt Unit → Bool) :
    number (calls.set k c') kind (isIpv6 c.addr) p + (if (c.attempt kind).any p then 1 else 0) =
      number calls kind (isIpv6 c.addr) p + (if (c'.attempt kind).any p then 1 else 0) := by
  have hset := number_set hk haddr kind (isIpv6 c.addr) p
  rw [beq_self_eq_true, Bool.true_and, Bool.true_and] at hset
  exact hset

/-- A call that goes on with the kind. -/
theorem tally_set (hk : calls[k]? = some c) (haddr : c'.addr = c.addr)
    {f : SingleStat → SingleStat} (hf : ∀ t t' : SingleStat,
      t'.attempts + (counts (c.attempt kind)).attempts =
        t.attempts + (counts (c'.attempt kind)).attempts →
      t'.successes + (counts (c.attempt kind)).successes =
        t.successes + (counts (c'.attempt kind)).successes →
      t'.errors + (counts (c.attempt kind)).errors =
        t.errors + (counts (c'.attempt kind)).errors → t' = f t) (isV6 : Bool) :
    tally (calls.set k c') kind isV6 =
      if isV6 = isIpv6 c.addr then f (tally calls kind isV6) else tally calls kind isV6 := by
  split_ifs with hv
  · subst hv
    exact hf _ _ (number_set_self hk haddr kind _) (number_set_self hk haddr kind _)
      (number_set_self hk haddr kind _)
  · rw [tally, tally, number_set_of_ne hk haddr hv, number_set_of_ne hk haddr hv,
      number_set_of_ne hk haddr hv]

variable {s s' : Connects S E U} {kind : ConnectionKind} {f : SingleStat → SingleStat}

theorem Counted.setCall (h : Counted s) (hk : s.calls[k]? = some c) (haddr : c'.addr = c.addr)
    (hsame : ∀ kind, c'.attempt kind = c.attempt kind) : Counted (s.setCall k c') := by
  intro kind isV6
  exact (h kind isV6).trans (tally_set_same hk haddr (hsame kind) isV6).symm

theorem Counted.goesOn (h : Counted s) (hk : s.calls[k]? = some c) (haddr : c'.addr = c.addr)
    (hother : ∀ kind', kind' ≠ kind → c'.attempt kind' = c.attempt kind')
    (hf : ∀ t t' : SingleStat,
      t'.attempts + (counts (c.attempt kind)).attempts =
        t.attempts + (counts (c'.attempt kind)).attempts →
      t'.successes + (counts (c.attempt kind)).successes =
        t.successes + (counts (c'.attempt kind)).successes →
      t'.errors + (counts (c.attempt kind)).errors =
        t.errors + (counts (c'.attempt kind)).errors → t' = f t) :
    Counted (s.goesOn k c' kind f) := by
  intro kind' isV6
  change (if kind' = kind ∧ isV6 = isIpv6 c'.addr then f (s.stats kind' isV6)
    else s.stats kind' isV6) = tally (s.calls.set k c') kind' isV6
  rw [haddr]
  by_cases hkind : kind' = kind
  · subst hkind
    rw [tally_set hk haddr hf isV6, h kind' isV6]
    simp only [true_and]
  · rw [if_neg fun hboth => hkind hboth.1, tally_set_same hk haddr (hother kind' hkind)]
    exact h kind' isV6

theorem counts_begins (t t' : SingleStat)
    (h1 : t'.attempts + (counts none).attempts = t.attempts + (counts (some .connecting)).attempts)
    (h2 : t'.successes + (counts none).successes =
      t.successes + (counts (some .connecting)).successes)
    (h3 : t'.errors + (counts none).errors = t.errors + (counts (some .connecting)).errors) :
    t' = t.attempt := by
  cases t'
  simp_all [counts, SingleStat.attempt]

theorem counts_ready {E : Type} (e : Option E) (t t' : SingleStat)
    (h1 : t'.attempts + (counts (some .connecting)).attempts =
      t.attempts + (counts (some (Attempt.ready e).forget)).attempts)
    (h2 : t'.successes + (counts (some .connecting)).successes =
      t.successes + (counts (some (Attempt.ready e).forget)).successes)
    (h3 : t'.errors + (counts (some .connecting)).errors =
      t.errors + (counts (some (Attempt.ready e).forget)).errors) :
    t' = t.ready e := by
  cases t'
  cases e <;> simp_all [counts, SingleStat.ready, Attempt.ready, Attempt.forget]

/-! One call. -/

/-- What `tcp_connect` says of the configuration. -/
def TcpConnect.Fits (connector : StreamConnector) : TcpConnect E → Prop
  | .notPolled => True
  | .disabled => connector.enableTcp = false
  | .polled _ => connector.enableTcp = true

/-- `tcp_err` is set. -/
def TcpConnect.isDone : TcpConnect E → Bool
  | .disabled | .polled (.failed _) => true
  | .notPolled | .polled .connecting | .polled .connected => false

def UtpConnect.isDone : UtpConnect U → Bool
  | .disabled | .polled _ _ (.failed _) => true
  | .notPolled | .waiting _ _ | .polled _ _ .connecting | .polled _ _ .connected => false

/-- uTP has begun after TCP failed, or a second after it was first polled. -/
def InTurn (connector : StreamConnector) (tcp : TcpConnect E) (polledAt beganAt : ℕ) : Prop :=
  connector.enableTcp = true →
    (∃ e, tcp = .polled (.failed e)) ∨ polledAt + tcpPriorityMs ≤ beganAt

def UtpConnect.Fits (connector : StreamConnector) (tcp : TcpConnect E) : UtpConnect U → Prop
  | .notPolled => True
  | .disabled => connector.utpSocket = false
  | .waiting _ _ => connector.utpSocket = true ∧ connector.enableTcp = true
  | .polled polledAt beganAt _ =>
    connector.utpSocket = true ∧ InTurn connector tcp polledAt beganAt

/-- What holds of the futures of a race. -/
structure RaceFits (connector : StreamConnector) (tcp : TcpConnect E) (utp : UtpConnect U)
    (notify : Notify) : Prop where
  tcpFits : tcp.Fits connector
  utpFits : utp.Fits connector tcp
  notified : notify.calls = if tcp.isDone then 1 else 0
  /-- The other future is dropped when one has connected. -/
  one : tcp.attempt = some .connected → utp.attempt ≠ some .connected

/-- The address is one that is tried. -/
def Tried (connector : StreamConnector) (addr : SocketAddr) : Prop :=
  addr.port ≠ 0 ∧ ¬(connector.ipv4Only = true ∧ isIpv6 addr = true)

def socksResult : Attempt S → Option (Except (ConnectError S E U) ConnectionKind)
  | .connecting => none
  | .connected => some (.ok .socks)
  | .failed e => some (.error (.socksConnect e))

/-- What holds of a call. -/
def PathFits (connector : StreamConnector) (c : ConnectCall S E U) : ConnectPath S E U → Prop
  | .refused =>
    c.result = some (.error .portZero) ∧ c.addr.port = 0 ∨
      c.result = some (.error .ipv6Disabled) ∧ connector.ipv4Only = true ∧ isIpv6 c.addr = true
  | .socks a =>
    Tried connector c.addr ∧ connector.socksProxyConfig = true ∧ c.result = socksResult a
  | .race tcp utp notify =>
    Tried connector c.addr ∧ connector.socksProxyConfig = false ∧ c.result = raceResult tcp utp ∧
      RaceFits connector tcp utp notify

theorem TcpConnect.isDone_cases {tcp : TcpConnect E} (h : tcp.isDone = true) :
    tcp = .disabled ∨ ∃ e, tcp = .polled (.failed e) := by
  unfold isDone at h
  split at h
  · exact Or.inl rfl
  · exact Or.inr ⟨_, rfl⟩
  all_goals cases h

theorem UtpConnect.isDone_cases {utp : UtpConnect U} (h : utp.isDone = true) :
    utp = .disabled ∨ ∃ polledAt beganAt e, utp = .polled polledAt beganAt (.failed e) := by
  unfold isDone at h
  split at h
  · exact Or.inl rfl
  · exact Or.inr ⟨_, _, _, rfl⟩
  all_goals cases h

theorem TcpConnect.attempt_connected {tcp : TcpConnect E} (h : tcp.attempt = some .connected) :
    tcp = .polled .connected := by
  rcases tcp with _ | _ | (_ | _ | _) <;> first | rfl | cases h

theorem UtpConnect.attempt_connected {utp : UtpConnect U} (h : utp.attempt = some .connected) :
    ∃ polledAt beganAt, utp = .polled polledAt beganAt .connected := by
  rcases utp with _ | _ | _ | ⟨polledAt, beganAt, _ | _ | _⟩ <;>
    first | exact ⟨_, _, rfl⟩ | cases h

theorem raceResult_tcp (utp : UtpConnect U) :
    (raceResult (.polled .connected : TcpConnect E) utp :
      Option (Except (ConnectError S E U) ConnectionKind)) = some (.ok .tcp) := rfl

theorem raceResult_utp {tcp : TcpConnect E} (h : tcp.attempt ≠ some .connected)
    (polledAt beganAt : ℕ) :
    (raceResult tcp (.polled polledAt beganAt .connected : UtpConnect U) :
      Option (Except (ConnectError S E U) ConnectionKind)) = some (.ok .utp) := by
  rcases tcp with _ | _ | (_ | _ | _) <;> first | rfl | exact absurd rfl h

/-- It connects in one of the two ways. -/
theorem raceResult_ok {tcp : TcpConnect E} {utp : UtpConnect U} {kind : ConnectionKind}
    (h : (raceResult tcp utp : Option (Except (ConnectError S E U) ConnectionKind)) =
      some (.ok kind)) : tcp.attempt = some .connected ∨ utp.attempt = some .connected := by
  unfold raceResult at h
  split at h
  · exact Or.inl rfl
  · exact Or.inr rfl
  all_goals cases h

/-- The race has returned when both futures are done. -/
theorem raceResult_eq_none {tcp : TcpConnect E} {utp : UtpConnect U}
    (h : (raceResult tcp utp : Option (Except (ConnectError S E U) ConnectionKind)) = none) :
    tcp.isDone = false ∨ utp.isDone = false := by
  by_contra hdone
  rw [not_or, Bool.not_eq_false, Bool.not_eq_false] at hdone
  rcases TcpConnect.isDone_cases hdone.1 with rfl | ⟨e, rfl⟩ <;>
    rcases UtpConnect.isDone_cases hdone.2 with rfl | ⟨polledAt, beganAt, e', rfl⟩ <;> cases h

/-- What a running call is. -/
theorem running_eq_some (h : s.running k = some c) :
    s.calls[k]? = some c ∧ c.result = none ∧ c.dropped = false := by
  obtain ⟨hk, hc⟩ := Option.filter_eq_some_iff.1 h
  simp only [Bool.and_eq_true, Option.isNone_iff_eq_none, Bool.not_eq_true'] at hc
  exact ⟨hk, hc⟩

variable {connector : StreamConnector}

structure CallFits (connector : StreamConnector) (c : ConnectCall S E U) : Prop where
  path : PathFits connector c c.path
  dropped : c.dropped = true → c.result = none

structure Inv (connector : StreamConnector) (s : Connects S E U) : Prop where
  counted : Counted s
  calls : ∀ c ∈ s.calls, CallFits connector c

theorem Inv.setCall (h : Inv connector s) (hk : s.calls[k]? = some c) (haddr : c'.addr = c.addr)
    (hsame : ∀ kind, c'.attempt kind = c.attempt kind) (hfits : CallFits connector c') :
    Inv connector (s.setCall k c') where
  counted := h.counted.setCall hk haddr hsame
  calls d hd := by
    rcases List.mem_or_eq_of_mem_set hd with hd | rfl
    · exact h.calls d hd
    · exact hfits

theorem Inv.goesOn (h : Inv connector s) (hcounted : Counted (s.goesOn k c' kind f))
    (hfits : CallFits connector c') : Inv connector (s.goesOn k c' kind f) where
  counted := hcounted
  calls d hd := by
    rcases List.mem_or_eq_of_mem_set hd with hd | rfl
    · exact h.calls d hd
    · exact hfits

theorem Inv.socksReady (h : Inv connector s) (hc : s.running k = some c) {e : Option S}
    (hs : s.socksReady k e c = some s') : Inv connector s' := by
  obtain ⟨hk, -, hdropped⟩ := running_eq_some hc
  obtain ⟨addr, path, result, dropped⟩ := c
  unfold Connects.socksReady at hs
  split at hs
  · rename_i hpath
    cases hs
    cases hpath
    have hfits := (h.calls _ (List.mem_of_getElem? hk)).path
    refine h.goesOn (h.counted.goesOn hk rfl ?_ (counts_ready e)) ⟨⟨hfits.1, hfits.2.1, ?_⟩, ?_⟩
    · intro kind hkind
      cases kind with
      | tcp | utp => rfl
      | socks => exact absurd rfl hkind
    · cases e <;> rfl
    · exact fun hd => absurd hd (Bool.eq_false_iff.1 hdropped)
  · cases hs

section

variable {tcp tcp' : TcpConnect E} {utp utp' : UtpConnect U} {notify notify' : Notify}

/-- A race that goes on. -/
theorem CallFits.race (h : CallFits connector c) (hpath : c.path = .race tcp utp notify)
    (hdropped : c.dropped = false) (hfits : RaceFits connector tcp' utp' notify') :
    CallFits connector (c.race tcp' utp' notify') := by
  have hold := h.path
  rw [hpath] at hold
  refine ⟨⟨hold.1, hold.2.1, rfl, hfits⟩, fun hd => ?_⟩
  exact absurd hd (Bool.eq_false_iff.1 hdropped)

/-- A race that has not returned. -/
structure Racing (connector : StreamConnector) (tcp : TcpConnect E) (utp : UtpConnect U)
    (notify : Notify) : Prop extends RaceFits connector tcp utp notify where
  not_tcp : tcp.attempt ≠ some .connected
  not_utp : utp.attempt ≠ some .connected

theorem CallFits.racing (h : CallFits connector c) (hpath : c.path = .race tcp utp notify)
    (hnone : c.result = none) : Racing connector tcp utp notify := by
  have hold := h.path
  rw [hpath] at hold
  obtain ⟨-, -, hresult, hfits⟩ := hold
  rw [hnone] at hresult
  have hnot_tcp : tcp.attempt ≠ some .connected := by
    intro ha
    rw [TcpConnect.attempt_connected ha] at hresult
    cases hresult
  refine ⟨hfits, hnot_tcp, fun ha => ?_⟩
  obtain ⟨polledAt, beganAt, rfl⟩ := UtpConnect.attempt_connected ha
  rw [raceResult_utp hnot_tcp] at hresult
  cases hresult

/-- Nothing is counted. -/
theorem Inv.race_setCall (h : Inv connector s) (hc : s.running k = some c)
    (hpath : c.path = .race tcp utp notify) (htcp : tcp'.attempt = tcp.attempt)
    (hutp : utp'.attempt = utp.attempt)
    (hfits : Racing connector tcp utp notify → RaceFits connector tcp' utp' notify') :
    Inv connector (s.setCall k (c.race tcp' utp' notify')) := by
  obtain ⟨hk, hnone, hdropped⟩ := running_eq_some hc
  have hold := h.calls c (List.mem_of_getElem? hk)
  refine h.setCall hk rfl (fun kind => ?_) (hold.race hpath hdropped (hfits (hold.racing hpath hnone)))
  rw [ConnectCall.attempt, ConnectCall.attempt, hpath]
  cases kind with
  | tcp => exact htcp
  | utp => exact hutp
  | socks => rfl

theorem Inv.race_tcp (h : Inv connector s) (hc : s.running k = some c)
    (hpath : c.path = .race tcp utp notify)
    (hf : ∀ t t' : SingleStat,
      t'.attempts + (counts tcp.attempt).attempts = t.attempts + (counts tcp'.attempt).attempts →
      t'.successes + (counts tcp.attempt).successes =
        t.successes + (counts tcp'.attempt).successes →
      t'.errors + (counts tcp.attempt).errors = t.errors + (counts tcp'.attempt).errors → t' = f t)
    (hfits : Racing connector tcp utp notify → RaceFits connector tcp' utp notify') :
    Inv connector (s.goesOn k (c.race tcp' utp notify') .tcp f) := by
  obtain ⟨hk, hnone, hdropped⟩ := running_eq_some hc
  have hold := h.calls c (List.mem_of_getElem? hk)
  refine h.goesOn (h.counted.goesOn hk rfl (fun kind hkind => ?_) ?_)
    (hold.race hpath hdropped (hfits (hold.racing hpath hnone)))
  · rw [ConnectCall.attempt, ConnectCall.attempt, hpath]
    cases kind with
    | tcp => exact absurd rfl hkind
    | utp | socks => rfl
  · rw [ConnectCall.attempt, hpath]
    exact hf

theorem Inv.race_utp (h : Inv connector s) (hc : s.running k = some c)
    (hpath : c.path = .race tcp utp notify)
    (hf : ∀ t t' : SingleStat,
      t'.attempts + (counts utp.attempt).attempts = t.attempts + (counts utp'.attempt).attempts →
      t'.successes + (counts utp.attempt).successes =
        t.successes + (counts utp'.attempt).successes →
      t'.errors + (counts utp.attempt).errors = t.errors + (counts utp'.attempt).errors → t' = f t)
    (hfits : Racing connector tcp utp notify → RaceFits connector tcp utp' notify) :
    Inv connector (s.goesOn k (c.race tcp utp' notify) .utp f) := by
  obtain ⟨hk, hnone, hdropped⟩ := running_eq_some hc
  have hold := h.calls c (List.mem_of_getElem? hk)
  refine h.goesOn (h.counted.goesOn hk rfl (fun kind hkind => ?_) ?_)
    (hold.race hpath hdropped (hfits (hold.racing hpath hnone)))
  · rw [ConnectCall.attempt, ConnectCall.attempt, hpath]
    cases kind with
    | utp => exact absurd rfl hkind
    | tcp | socks => rfl
  · rw [ConnectCall.attempt, hpath]
    exact hf

end

/-- TCP that has failed stays so. -/
theorem UtpConnect.Fits.mono {tcp tcp' : TcpConnect E} {utp : UtpConnect U}
    (h : utp.Fits connector tcp)
    (hfailed : ∀ e, tcp = .polled (.failed e) → ∃ e', tcp' = .polled (.failed e')) :
    utp.Fits connector tcp' := by
  cases utp with
  | notPolled | disabled | waiting future polledAt => exact h
  | polled polledAt beganAt a =>
    refine ⟨h.1, fun htcp => ?_⟩
    rcases h.2 htcp with ⟨e, he⟩ | hle
    · exact Or.inl (hfailed e he)
    · exact Or.inr hle

theorem Inv.tcpPolled (h : Inv connector s) (hc : s.running k = some c)
    (hs : s.tcpPolled connector k c = some s') : Inv connector s' := by
  unfold Connects.tcpPolled at hs
  split at hs
  · rename_i utp notify hpath
    split_ifs at hs with htcp <;> cases hs
    · exact h.race_tcp hc hpath counts_begins fun hrace =>
        ⟨htcp, hrace.utpFits.mono fun e he => (by cases he), hrace.notified, fun ha => (by cases ha)⟩
    · refine h.race_setCall hc hpath rfl rfl fun hrace =>
        ⟨Bool.eq_false_iff.2 htcp, hrace.utpFits.mono fun e he => (by cases he), ?_, fun ha => (by cases ha)⟩
      rw [Notify.notifyWaiters, hrace.notified]
      rfl
  · cases hs

theorem Inv.tcpReady (h : Inv connector s) (hc : s.running k = some c) {e : Option E}
    (hs : s.tcpReady k e c = some s') : Inv connector s' := by
  unfold Connects.tcpReady at hs
  split at hs
  · rename_i utp notify hpath
    cases hs
    refine h.race_tcp hc hpath (counts_ready e) fun hrace =>
      ⟨hrace.tcpFits, hrace.utpFits.mono fun e he => (by cases he), ?_, fun _ => hrace.not_utp⟩
    cases e with
    | none => exact hrace.notified
    | some e =>
      have hsome : (some e).isSome = true := rfl
      rw [if_pos hsome, Notify.notifyWaiters, hrace.notified]
      rfl
  · cases hs

theorem Inv.utpPolled (h : Inv connector s) (hc : s.running k = some c)
    (hs : s.utpPolled connector k c = some s') : Inv connector s' := by
  unfold Connects.utpPolled at hs
  split at hs
  · rename_i tcp notify hpath
    split_ifs at hs with hutp htcp <;> cases hs
    · rw [Bool.not_eq_true'] at hutp
      exact h.race_setCall hc hpath rfl rfl fun hrace =>
        ⟨hrace.tcpFits, hutp, hrace.notified, fun _ => nofun⟩
    · rw [Bool.not_eq_true', Bool.not_eq_false] at hutp
      exact h.race_setCall hc hpath rfl rfl fun hrace =>
        ⟨hrace.tcpFits, ⟨hutp, htcp⟩, hrace.notified, fun _ => nofun⟩
    · rw [Bool.not_eq_true', Bool.not_eq_false] at hutp
      exact h.race_utp hc hpath counts_begins fun hrace =>
        ⟨hrace.tcpFits, ⟨hutp, fun htcp' => absurd htcp' htcp⟩, hrace.notified, fun _ => nofun⟩
  · cases hs

/-- A second has passed, or the notification has come, and then TCP has failed. -/
theorem Inv.utpBegins (h : Inv connector s) (hc : s.running k = some c)
    (hs : s.utpBegins k c = some s') : Inv connector s' := by
  unfold Connects.utpBegins at hs
  split at hs
  · rename_i tcp future polledAt notify hpath
    split_ifs at hs with hready
    cases hs
    refine h.race_utp hc hpath counts_begins fun hrace =>
      ⟨hrace.tcpFits, ⟨hrace.utpFits.1, fun htcp => ?_⟩, hrace.notified, fun _ => nofun⟩
    refine hready.imp_left fun hnotified => ?_
    have hcalls : future < notify.calls := hnotified
    have hdone : tcp.isDone = true := by
      by_contra hnot
      rw [hrace.notified, if_neg hnot] at hcalls
      exact Nat.not_lt_zero _ hcalls
    have hfits := hrace.tcpFits
    rcases TcpConnect.isDone_cases hdone with rfl | hfailed
    · rw [TcpConnect.Fits, htcp] at hfits
      cases hfits
    · exact hfailed
  · cases hs

theorem Inv.utpReady (h : Inv connector s) (hc : s.running k = some c) {e : Option U}
    (hs : s.utpReady k e c = some s') : Inv connector s' := by
  unfold Connects.utpReady at hs
  split at hs
  · rename_i tcp polledAt beganAt notify hpath
    cases hs
    exact h.race_utp hc hpath (counts_ready e) fun hrace =>
      ⟨hrace.tcpFits, hrace.utpFits, hrace.notified, fun ha => absurd ha hrace.not_tcp⟩
  · cases hs

/-! The calls that begin. -/

theorem number_append (calls : List (ConnectCall S E U)) (c : ConnectCall S E U)
    (kind : ConnectionKind) (isV6 : Bool) (p : Attempt Unit → Bool) :
    number (calls ++ [c]) kind isV6 p =
      number calls kind isV6 p + if isIpv6 c.addr == isV6 && (c.attempt kind).any p then 1 else 0 := by
  rw [number, List.countP_append, List.countP_singleton]
  rfl

/-- A call that has not tried the kind. -/
theorem tally_append_none (h : c.attempt kind = none) (isV6 : Bool) :
    tally (calls ++ [c]) kind isV6 = tally calls kind isV6 := by
  simp only [tally, number_append, h, Option.any_none, Bool.and_false, Bool.false_eq_true, if_false,
    Nat.add_zero]

/-- A call that begins with the kind. -/
theorem tally_append_begins (calls : List (ConnectCall S E U)) (c : ConnectCall S E U)
    (kind : ConnectionKind) (h : c.attempt kind = some .connecting) (isV6 : Bool) :
    tally (calls ++ [c]) kind isV6 =
      if isV6 = isIpv6 c.addr then (tally calls kind isV6).attempt else tally calls kind isV6 := by
  split_ifs with hv
  · simp [tally, number_append, h, hv, SingleStat.attempt]
  · have hne : isIpv6 c.addr ≠ isV6 := fun he => hv he.symm
    simp [tally, number_append, hne]

theorem Inv.append (h : Inv connector s) (hnone : ∀ kind, c.attempt kind = none)
    (hfits : CallFits connector c) : Inv connector { s with calls := s.calls ++ [c] } where
  counted kind isV6 := (h.counted kind isV6).trans (tally_append_none (hnone kind) isV6).symm
  calls d hd := by
    rcases List.mem_append.1 hd with hd | hd
    · exact h.calls d hd
    · rw [List.mem_singleton.1 hd]
      exact hfits

theorem Inv.connect (h : Inv connector s) (addr : SocketAddr) :
    Inv connector (s.connect connector addr) := by
  unfold Connects.connect
  split_ifs with hport hv6 hproxy
  · exact h.append (fun kind => by cases kind <;> rfl) ⟨Or.inl ⟨rfl, hport⟩, nofun⟩
  · rw [Bool.and_eq_true] at hv6
    exact h.append (fun kind => by cases kind <;> rfl) ⟨Or.inr ⟨rfl, hv6⟩, nofun⟩
  · have htried : Tried connector addr := ⟨hport, fun hboth => hv6 ((Bool.and_eq_true _ _).mpr hboth)⟩
    constructor
    case counted =>
      intro kind isV6
      change (if kind = .socks ∧ isV6 = isIpv6 addr then (s.stats kind isV6).attempt
        else s.stats kind isV6) = _
      rw [h.counted kind isV6]
      cases kind with
      | tcp | utp => exact (tally_append_none rfl isV6).symm
      | socks =>
        simp only [true_and]
        exact (tally_append_begins s.calls ⟨addr, .socks .connecting, none, false⟩ .socks rfl isV6).symm
    case calls =>
      intro d hd
      rcases List.mem_append.1 hd with hd | hd
      · exact h.calls d hd
      · rw [List.mem_singleton.1 hd]
        exact ⟨⟨htried, hproxy, rfl⟩, nofun⟩
  · have htried : Tried connector addr := ⟨hport, fun hboth => hv6 ((Bool.and_eq_true _ _).mpr hboth)⟩
    refine h.append (fun kind => by cases kind <;> rfl) ⟨⟨htried, ?_, rfl, trivial, trivial, rfl, nofun⟩, nofun⟩
    exact Bool.eq_false_iff.2 hproxy

theorem Inv.step (h : Inv connector s) {e : ConnectEvent S E U} (hs : s.step connector e = some s') :
    Inv connector s' := by
  cases e with
  | connect addr =>
    cases hs
    exact h.connect addr
  | socksReady k e =>
    obtain ⟨c, hc, hs⟩ := Option.bind_eq_some_iff.1 hs
    exact h.socksReady hc hs
  | tcpPolled k =>
    obtain ⟨c, hc, hs⟩ := Option.bind_eq_some_iff.1 hs
    exact h.tcpPolled hc hs
  | tcpReady k e =>
    obtain ⟨c, hc, hs⟩ := Option.bind_eq_some_iff.1 hs
    exact h.tcpReady hc hs
  | utpPolled k =>
    obtain ⟨c, hc, hs⟩ := Option.bind_eq_some_iff.1 hs
    exact h.utpPolled hc hs
  | utpBegins k =>
    obtain ⟨c, hc, hs⟩ := Option.bind_eq_some_iff.1 hs
    exact h.utpBegins hc hs
  | utpReady k e =>
    obtain ⟨c, hc, hs⟩ := Option.bind_eq_some_iff.1 hs
    exact h.utpReady hc hs
  | drop k =>
    obtain ⟨c, hc, rfl⟩ := Option.map_eq_some_iff.1 hs
    obtain ⟨hk, hnone, -⟩ := running_eq_some hc
    have hold := h.calls c (List.mem_of_getElem? hk)
    exact h.setCall hk rfl (fun kind => rfl) ⟨hold.path, fun _ => hnone⟩
  | advance ms =>
    cases hs
    exact ⟨h.counted, h.calls⟩

theorem start_inv : Inv connector (.start : Connects S E U) where
  counted _ _ := rfl
  calls c hc := by cases hc

/-! What a caller sees. -/

/-- The attempts of a call are those that the connector allows, uTP in its turn. -/
structure Allowed (connector : StreamConnector) (c : ConnectCall S E U) : Prop where
  tried : ∀ kind, (c.attempt kind).isSome = true → Tried connector c.addr
  socks : (c.attempt .socks).isSome = true → connector.socksProxyConfig = true
  tcp : (c.attempt .tcp).isSome = true →
    connector.enableTcp = true ∧ connector.socksProxyConfig = false
  utp : (c.attempt .utp).isSome = true →
    connector.utpSocket = true ∧ connector.socksProxyConfig = false
  inTurn : ∀ tcp polledAt beganAt a notify,
    c.path = .race tcp (.polled polledAt beganAt a) notify → InTurn connector tcp polledAt beganAt

def FailedTcp (c : ConnectCall S E U) (e : E) : Prop :=
  ∃ utp notify, c.path = .race (.polled (.failed e)) utp notify

def FailedUtp (c : ConnectCall S E U) (e : U) : Prop :=
  ∃ tcp polledAt beganAt notify, c.path = .race tcp (.polled polledAt beganAt (.failed e)) notify

/-- An error names all that has been tried, with what it came to. -/
def Tells (connector : StreamConnector) (c : ConnectCall S E U) : ConnectError S E U → Prop
  | .portZero => c.addr.port = 0
  | .ipv6Disabled => connector.ipv4Only = true ∧ isIpv6 c.addr = true
  | .socksConnect e => c.path = .socks (.failed e)
  | .connect e e' => FailedTcp c e ∧ FailedUtp c e'
  | .tcpConnect e => FailedTcp c e ∧ connector.utpSocket = false
  | .utpConnect e => FailedUtp c e ∧ connector.enableTcp = false
  | .connectDisabled => False

/-- There is a future left to wait for. -/
def Pending (c : ConnectCall S E U) : Prop :=
  c.path = .socks .connecting ∨
    ∃ tcp utp notify, c.path = .race tcp utp notify ∧ (tcp.isDone = false ∨ utp.isDone = false)

theorem CallFits.allowed (h : CallFits connector c) : Allowed connector c := by
  have hpath := h.path
  obtain ⟨addr, path, result, dropped⟩ := c
  cases path with
  | refused =>
    refine ⟨fun kind hsome => ?_, nofun, nofun, nofun, nofun⟩
    cases kind <;> cases hsome
  | socks a =>
    exact ⟨fun _ _ => hpath.1, fun _ => hpath.2.1, nofun, nofun, nofun⟩
  | race tcp utp notify =>
    obtain ⟨htried, hproxy, -, hfits⟩ := hpath
    constructor
    case tried => exact fun _ _ => htried
    case socks => exact nofun
    case tcp =>
      intro hsome
      have htcp := hfits.tcpFits
      cases tcp with
      | notPolled | disabled => cases hsome
      | polled a => exact ⟨htcp, hproxy⟩
    case utp =>
      intro hsome
      have hutp := hfits.utpFits
      cases utp with
      | notPolled | disabled | waiting future polledAt => cases hsome
      | polled polledAt beganAt a => exact ⟨hutp.1, hproxy⟩
    case inTurn =>
      intro tcp' polledAt beganAt a notify' he
      cases he
      exact hfits.utpFits.2

theorem CallFits.connected_iff (h : CallFits connector c) (kind : ConnectionKind) :
    c.attempt kind = some .connected ↔ c.result = some (.ok kind) := by
  have hpath := h.path
  obtain ⟨addr, path, result, dropped⟩ := c
  cases path with
  | refused =>
    rcases hpath with ⟨rfl, -⟩ | ⟨rfl, -⟩ <;> cases kind <;> exact iff_of_false nofun nofun
  | socks a =>
    obtain ⟨-, -, rfl⟩ := hpath
    cases a <;> cases kind <;> first | exact iff_of_true rfl rfl | exact iff_of_false nofun nofun
  | race tcp utp notify =>
    obtain ⟨-, -, rfl, hfits⟩ := hpath
    by_cases htcp : tcp.attempt = some .connected
    · have hutp := hfits.one htcp
      obtain rfl := TcpConnect.attempt_connected htcp
      rw [raceResult_tcp]
      cases kind with
      | tcp => exact iff_of_true rfl rfl
      | utp => exact iff_of_false hutp nofun
      | socks => exact iff_of_false nofun nofun
    · by_cases hutp : utp.attempt = some .connected
      · obtain ⟨polledAt, beganAt, rfl⟩ := UtpConnect.attempt_connected hutp
        rw [raceResult_utp htcp]
        cases kind with
        | tcp => exact iff_of_false htcp nofun
        | utp => exact iff_of_true rfl rfl
        | socks => exact iff_of_false nofun nofun
      · have hresult : (raceResult tcp utp :
            Option (Except (ConnectError S E U) ConnectionKind)) ≠ some (.ok kind) :=
          fun h => (raceResult_ok h).elim htcp hutp
        refine iff_of_false ?_ hresult
        cases kind with
        | tcp => exact htcp
        | utp => exact hutp
        | socks => exact nofun

theorem CallFits.tells (h : CallFits connector c) {e : ConnectError S E U}
    (he : c.result = some (.error e)) : Tells connector c e := by
  have hpath := h.path
  obtain ⟨addr, path, result, dropped⟩ := c
  cases path with
  | refused =>
    rcases hpath with ⟨rfl, hport⟩ | ⟨rfl, hv6⟩ <;> cases he
    · exact hport
    · exact hv6
  | socks a =>
    obtain ⟨-, -, rfl⟩ := hpath
    cases a <;> cases he
    exact rfl
  | race tcp utp notify =>
    obtain ⟨-, hproxy, rfl, hfits⟩ := hpath
    have htcp := hfits.tcpFits
    have hutp := hfits.utpFits
    simp only [raceResult] at he
    split at he <;> cases he
    · exact ⟨⟨_, _, rfl⟩, ⟨_, _, _, _, rfl⟩⟩
    · exact ⟨⟨_, _, rfl⟩, hutp⟩
    · exact ⟨⟨_, _, _, _, rfl⟩, htcp⟩
    · have hway := connector.someWay
      rw [hproxy, show connector.enableTcp = false from htcp,
        show connector.utpSocket = false from hutp] at hway
      cases hway

theorem CallFits.pending (h : CallFits connector c) (hnone : c.result = none) : Pending c := by
  have hpath := h.path
  obtain ⟨addr, path, result, dropped⟩ := c
  subst hnone
  cases path with
  | refused => rcases hpath with ⟨hresult, -⟩ | ⟨hresult, -⟩ <;> cases hresult
  | socks a =>
    obtain ⟨-, -, hresult⟩ := hpath
    cases a with
    | connecting => exact Or.inl rfl
    | connected | failed e => cases hresult
  | race tcp utp notify =>
    exact Or.inr ⟨tcp, utp, notify, rfl, raceResult_eq_none hpath.2.2.1.symm⟩

structure Accounts (connector : StreamConnector) (s : Connects S E U) : Prop where
  stats : ∀ kind isV6, s.stats kind isV6 = tally s.calls kind isV6
  allowed : ∀ c ∈ s.calls, Allowed connector c
  connected : ∀ c ∈ s.calls, ∀ kind,
    c.attempt kind = some .connected ↔ c.result = some (.ok kind)
  errors : ∀ c ∈ s.calls, ∀ e, c.result = some (.error e) → Tells connector c e
  pending : ∀ c ∈ s.calls, c.result = none → Pending c

theorem connects_account (connector : StreamConnector) (events : List (ConnectEvent S E U))
    (s : Connects S E U) (h : Run (Connects.step connector) Any .start events s) :
    Accounts connector s := by
  have hinv : Inv connector s :=
    h.inv (Inv connector) start_inv fun _ _ _ hinv _ hs => hinv.step hs
  constructor
  case stats => exact hinv.counted
  case allowed => exact fun c hc => (hinv.calls c hc).allowed
  case connected => exact fun c hc => (hinv.calls c hc).connected_iff
  case errors => exact fun c hc e => (hinv.calls c hc).tells
  case pending => exact fun c hc => (hinv.calls c hc).pending

/-! A connector for which TCP fails at once, and then after the other call has waited. -/

def bothWays : StreamConnector := ⟨⟨true, false, true, false⟩, rfl⟩

def somePeer : SocketAddr := ⟨.v4 0#32, 6881⟩

/-- The first call uses uTP as soon as TCP has failed, the second one a second later, and TCP
connects after all. -/
def twoRaces : List (ConnectEvent ℕ ℕ ℕ) :=
  [.connect somePeer, .utpPolled 0, .tcpPolled 0, .tcpReady 0 (some 111), .utpBegins 0,
    .connect somePeer, .tcpPolled 1, .utpPolled 1, .utpReady 0 none, .advance 1000, .utpBegins 1,
    .tcpReady 1 none]

theorem twoRaces_account : ∃ s, Run (Connects.step bothWays) Any .start twoRaces s ∧
    Accounts bothWays s ∧ s.stats .tcp false = ⟨2, 1, 1⟩ ∧ s.stats .utp false = ⟨2, 1, 0⟩ ∧
    s.calls.map ConnectCall.result = [some (.ok .utp), some (.ok .tcp)] := by
  obtain ⟨s, hrun, hs⟩ : ∃ s, Run (Connects.step bothWays) Any .start twoRaces s ∧
      decide (s.stats .tcp false = ⟨2, 1, 1⟩ ∧ s.stats .utp false = ⟨2, 1, 0⟩ ∧
        s.calls.map ConnectCall.result = [some (.ok .utp), some (.ok .tcp)]) = true :=
    Run.exists_of_exec (by decide +kernel)
  exact ⟨s, hrun, connects_account bothWays twoRaces s hrun, of_decide_eq_true hs⟩

end StreamConnect

end Rtbit
