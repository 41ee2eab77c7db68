import Rtbit.Lib.Deltas
import Rtbit.Spec.Types

/-! `task_send_pex_to_peer`: what one peer is told about the live peers, tick by tick. The two
hash sets are iterated in an order of their own, which is part of the tick. The task may end
before any tick, when the channel to the peer is closed. -/

namespace Rtbit

open Lib

/-! `std::net`: the address classes the task looks at. -/

namespace Ipv4Addr

/-- 127.0.0.0/8 -/
def isLoopback (a : BitVec 32) : Bool := a >>> 24 == 127

/-- 10.0.0.0/8, 172.16.0.0/12 and 192.168.0.0/16 -/
def isPrivate (a : BitVec 32) : Bool := a >>> 24 == 10 || a >>> 20 == 0xAC1 || a >>> 16 == 0xC0A8

end Ipv4Addr

namespace Ipv6Addr

/-- ::1 -/
def isLoopback (a : BitVec 128) : Bool := a == 1

/-- fc00::/7 -/
def isUniqueLocal (a : BitVec 128) : Bool := a >>> 121 == 0x7E

/-- fe80::/10 -/
def isUnicastLinkLocal (a : BitVec 128) : Bool := a >>> 118 == 0x3FA

end Ipv6Addr

/-- The message, as `UtPex::from_addrs` takes it. -/
abbrev UtPex := Delta SocketAddr

namespace Pex

def maxSentPeers : ℕ := 50

def peerIpNonLocal : IpAddr → Bool
  | .v4 a => !Ipv4Addr.isLoopback a && !Ipv4Addr.isPrivate a
  | .v6 a => !Ipv6Addr.isLoopback a && !Ipv6Addr.isUniqueLocal a

def otherIpIsLocal : IpAddr → Bool
  | .v4 a => Ipv4Addr.isLoopback a || Ipv4Addr.isPrivate a
  | .v6 a => Ipv6Addr.isLoopback a || Ipv6Addr.isUnicastLinkLocal a || Ipv6Addr.isUniqueLocal a

/-- `filter`, of the task for `thisPeerAddr`. -/
def filter (thisPeerAddr addr : SocketAddr) : Bool :=
  !(peerIpNonLocal thisPeerAddr.ip && otherIpIsLocal addr.ip)

structure State where
  peerViewOfLivePeers : Finset SocketAddr
  /-- The messages sent so far. -/
  sent : List UtPex
  deriving DecidableEq

def start : State := ⟨∅, []⟩

/-- `live_outgoing_peers` and `peer_view_of_live_peers` as they are iterated over. -/
structure Tick where
  livePeers : List SocketAddr
  viewOrder : List SocketAddr
  deriving DecidableEq

/-- The lists of the message. -/
def connected (s : State) (t : Tick) : List SocketAddr :=
  missing maxSentPeers t.livePeers s.peerViewOfLivePeers

def dropped (t : Tick) : List SocketAddr := missing maxSentPeers t.viewOrder t.livePeers.toFinset

def step (thisPeerAddr : SocketAddr) (s : State) (t : Tick) : Option State :=
  if t.livePeers.Nodup ∧ t.viewOrder.Nodup ∧ t.viewOrder.toFinset = s.peerViewOfLivePeers then
    if connected s t ≠ [] ∨ dropped t ≠ [] then
      some
        { peerViewOfLivePeers := (s.peerViewOfLivePeers \ (dropped t).toFinset) ∪
            ((connected s t).filter (filter thisPeerAddr)).toFinset
          sent := s.sent ++ [⟨connected s t, dropped t⟩] }
    else some s
  else none

end Pex

end Rtbit
