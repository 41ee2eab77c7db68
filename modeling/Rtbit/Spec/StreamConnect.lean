import Rtbit.Lib.Notify
import Rtbit.Spec.Types

/-! `StreamConnector` (`stream_connect.rs`): the calls of `connect` that share one connector, each
of them from one await to the next. What a connection attempt comes to is an input. -/

namespace Rtbit

open Lib

namespace StreamConnect

inductive ConnectionKind where
  | tcp
  | utp
  | socks
  deriving DecidableEq, Repr

def isIpv6 (addr : SocketAddr) : Bool :=
  match addr.ip with
  | .v4 _ => false
  | .v6 _ => true

/-- What is set of the configuration. -/
structure StreamConnectorArgs where
  enableTcp : Bool
  socksProxyConfig : Bool
  utpSocket : Bool
  ipv4Only : Bool
  deriving DecidableEq, Repr

structure StreamConnector extends StreamConnectorArgs where
  someWay : socksProxyConfig || enableTcp || utpSocket

def StreamConnector.new (config : StreamConnectorArgs) : Except String StreamConnector :=
  if h : config.socksProxyConfig || config.enableTcp || config.utpSocket then .ok ⟨config, h⟩
  else .error "no way to connect to peers, enable TCP, uTP or socks proxy"

structure SingleStat where
  attempts : ℕ
  successes : ℕ
  errors : ℕ
  deriving DecidableEq, Repr

/-- `get_stat`: one for each kind and `is_v6`. -/
abbrev ConnectStats := ConnectionKind → Bool → SingleStat

def ConnectStats.modify (stats : ConnectStats) (kind : ConnectionKind) (isV6 : Bool)
    (f : SingleStat → SingleStat) : ConnectStats := fun k v =>
  if k = kind ∧ v = isV6 then f (stats k v) else stats k v

/-- A future of `with_stat` that has been polled. -/
inductive Attempt (E : Type) where
  | connecting
  | connected
  | failed (e : E)
  deriving DecidableEq, Repr

inductive TcpConnect (E : Type) where
  | notPolled
  /-- `Ok(None)`. -/
  | disabled
  | polled (a : Attempt E)
  deriving DecidableEq, Repr

inductive UtpConnect (U : Type) where
  | notPolled
  | disabled
  /-- At the `select!` of the notification, with its future, and of the timer. -/
  | waiting (future polledAt : ℕ)
  | polled (polledAt beganAt : ℕ) (a : Attempt U)
  deriving DecidableEq, Repr

inductive ConnectError (S E U : Type) where
  | portZero
  | ipv6Disabled
  | socksConnect (e : S)
  | connect (tcp : E) (utp : U)
  | tcpConnect (e : E)
  | utpConnect (e : U)
  | connectDisabled
  deriving DecidableEq, Repr

/-- The part of `connect` that a call is in. -/
inductive ConnectPath (S E U : Type) where
  /-- The address was not tried. -/
  | refused
  | socks (a : Attempt S)
  | race (tcp : TcpConnect E) (utp : UtpConnect U) (tcpFailedNotify : Notify)
  deriving DecidableEq, Repr

structure ConnectCall (S E U : Type) where
  addr : SocketAddr
  path : ConnectPath S E U
  result : Option (Except (ConnectError S E U) ConnectionKind)
  /-- The caller has dropped the future, which had not returned. -/
  dropped : Bool

structure Connects (S E U : Type) where
  /-- In milliseconds. -/
  now : ℕ
  stats : ConnectStats
  calls : List (ConnectCall S E U)

/-- An attempt that has no error has connected. -/
inductive ConnectEvent (S E U : Type) where
  | connect (addr : SocketAddr)
  /-- The future of the `k`-th call that connects through the proxy is ready. -/
  | socksReady (k : ℕ) (e : Option S)
  /-- `tcp_connect` is polled for the first time. -/
  | tcpPolled (k : ℕ)
  | tcpReady (k : ℕ) (e : Option E)
  | utpPolled (k : ℕ)
  /-- A branch of the `select!` in `utp_connect` is ready. -/
  | utpBegins (k : ℕ)
  | utpReady (k : ℕ) (e : Option U)
  | drop (k : ℕ)
  | advance (ms : ℕ)

variable {S E U : Type}

/-- What a future that is ready has come to, and what `with_stat` counts for it. -/
def Attempt.ready {E : Type} : Option E → Attempt E
  | none => .connected
  | some e => .failed e

def SingleStat.attempt (s : SingleStat) : SingleStat := { s with attempts := s.attempts + 1 }

def SingleStat.ready {E : Type} (s : SingleStat) : Option E → SingleStat
  | none => { s with successes := s.successes + 1 }
  | some _ => { s with errors := s.errors + 1 }

/-- What `connect` returns when a future of the race is ready, or when it is on top of its loop. -/
def raceResult (tcp : TcpConnect E) (utp : UtpConnect U) :
    Option (Except (ConnectError S E U) ConnectionKind) :=
  match tcp, utp with
  | .polled .connected, _ => some (.ok .tcp)
  | _, .polled _ _ .connected => some (.ok .utp)
  | .polled (.failed tcp), .polled _ _ (.failed utp) => some (.error (.connect tcp utp))
  | .polled (.failed tcp), .disabled => some (.error (.tcpConnect tcp))
  | .disabled, .polled _ _ (.failed utp) => some (.error (.utpConnect utp))
  | .disabled, .disabled => some (.error .connectDisabled)
  | _, _ => none

namespace ConnectCall

def race (c : ConnectCall S E U) (tcp : TcpConnect E) (utp : UtpConnect U)
    (tcpFailedNotify : Notify) : ConnectCall S E U :=
  { c with path := .race tcp utp tcpFailedNotify, result := raceResult tcp utp }

end ConnectCall

/-- How long `utp_connect` waits for TCP to fail. -/
def tcpPriorityMs : ℕ := 1000

namespace Connects

def start : Connects S E U := ⟨0, fun _ _ => ⟨0, 0, 0⟩, []⟩

/-- The call goes on as `c`, and what is counted for the kind is what `f` makes of it. -/
def goesOn (s : Connects S E U) (k : ℕ) (c : ConnectCall S E U) (kind : ConnectionKind)
    (f : SingleStat → SingleStat) : Connects S E U :=
  { s with stats := s.stats.modify kind (isIpv6 c.addr) f, calls := s.calls.set k c }

def setCall (s : Connects S E U) (k : ℕ) (c : ConnectCall S E U) : Connects S E U :=
  { s with calls := s.calls.set k c }

/-- `connect` up to its first await. -/
def connect (connector : StreamConnector) (s : Connects S E U) (addr : SocketAddr) :
    Connects S E U :=
  if addr.port = 0 then
    { s with calls := s.calls ++ [⟨addr, .refused, some (.error .portZero), false⟩] }
  else if connector.ipv4Only && isIpv6 addr then
    { s with calls := s.calls ++ [⟨addr, .refused, some (.error .ipv6Disabled), false⟩] }
  else if connector.socksProxyConfig then
    { s with
      stats := s.stats.modify .socks (isIpv6 addr) SingleStat.attempt
      calls := s.calls ++ [⟨addr, .socks .connecting, none, false⟩] }
  else { s with calls := s.calls ++ [⟨addr, .race .notPolled .notPolled .new, none, false⟩] }

/-- The call, if it has neither returned nor been dropped. -/
def running (s : Connects S E U) (k : ℕ) : Option (ConnectCall S E U) :=
  (s.calls[k]?).filter fun c => c.result.isNone && !c.dropped

def socksReady (s : Connects S E U) (k : ℕ) (e : Option S) (c : ConnectCall S E U) :
    Option (Connects S E U) :=
  match c.path with
  | .socks .connecting =>
    let result := match e with
      | none => .ok .socks
      | some e => .error (.socksConnect e)
    some (s.goesOn k { c with path := .socks (.ready e), result := some result } .socks (·.ready e))
  | _ => none

def tcpPolled (connector : StreamConnector) (s : Connects S E U) (k : ℕ) (c : ConnectCall S E U) :
    Option (Connects S E U) :=
  match c.path with
  | .race .notPolled utp notify =>
    if connector.enableTcp then
      some (s.goesOn k (c.race (.polled .connecting) utp notify) .tcp SingleStat.attempt)
    else some (s.setCall k (c.race .disabled utp notify.notifyWaiters))
  | _ => none

def tcpReady (s : Connects S E U) (k : ℕ) (e : Option E) (c : ConnectCall S E U) :
    Option (Connects S E U) :=
  match c.path with
  | .race (.polled .connecting) utp notify =>
    let notify := if e.isSome then notify.notifyWaiters else notify
    some (s.goesOn k (c.race (.polled (.ready e)) utp notify) .tcp (·.ready e))
  | _ => none

def utpPolled (connector : StreamConnector) (s : Connects S E U) (k : ℕ) (c : ConnectCall S E U) :
    Option (Connects S E U) :=
  match c.path with
  | .race tcp .notPolled notify =>
    if !connector.utpSocket then some (s.setCall k (c.race tcp .disabled notify))
    else if connector.enableTcp then
      some (s.setCall k (c.race tcp (.waiting notify.notified s.now) notify))
    else
      some (s.goesOn k (c.race tcp (.polled s.now s.now .connecting) notify) .utp
        SingleStat.attempt)
  | _ => none

def utpBegins (s : Connects S E U) (k : ℕ) (c : ConnectCall S E U) : Option (Connects S E U) :=
  match c.path with
  | .race tcp (.waiting future polledAt) notify =>
    if notify.Ready future ∨ polledAt + tcpPriorityMs ≤ s.now then
      some (s.goesOn k (c.race tcp (.polled polledAt s.now .connecting) notify) .utp
        SingleStat.attempt)
    else none
  | _ => none

def utpReady (s : Connects S E U) (k : ℕ) (e : Option U) (c : ConnectCall S E U) :
    Option (Connects S E U) :=
  match c.path with
  | .race tcp (.polled polledAt beganAt .connecting) notify =>
    some (s.goesOn k (c.race tcp (.polled polledAt beganAt (.ready e)) notify) .utp (·.ready e))
  | _ => none

/-- `none` if the call is not where it can do that. -/
def step (connector : StreamConnector) (s : Connects S E U) :
    ConnectEvent S E U → Option (Connects S E U)
  | .connect addr => some (s.connect connector addr)
  | .socksReady k e => (s.running k).bind (s.socksReady k e)
  | .tcpPolled k => (s.running k).bind (s.tcpPolled connector k)
  | .tcpReady k e => (s.running k).bind (s.tcpReady k e)
  | .utpPolled k => (s.running k).bind (s.utpPolled connector k)
  | .utpBegins k => (s.running k).bind (s.utpBegins k)
  | .utpReady k e => (s.running k).bind (s.utpReady k e)
  | .drop k => (s.running k).map fun c => s.setCall k { c with dropped := true }
  | .advance ms => some { s with now := s.now + ms }

end Connects

end StreamConnect

end Rtbit
