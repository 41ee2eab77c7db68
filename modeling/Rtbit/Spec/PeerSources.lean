import Rtbit.Spec.SessionPersistence
import Rtbit.Spec.Types

/-! Where the peers of a torrent come from: the stream that `make_peer_rx` builds, and the ways in
which a torrent with such a stream becomes live. The port that is announced and the interval of the
trackers are left out. -/

namespace Rtbit

namespace PeerSources

open SessionPersistence

/-- The fields of `Session` that `make_peer_rx` reads. -/
structure SessionSources where
  dht : Bool
  lsd : Bool
  trackers : Finset String
  disableTrackers : Bool
  deriving DecidableEq

/-- A `PeerStream`, by what it was built with. -/
structure PeerStream where
  dht : Bool
  lsd : Bool
  /-- What `TrackerComms::start` was called with. -/
  trackers : Finset String
  initialPeers : List SocketAddr
  deriving DecidableEq

section Parameters

variable {H : Type} (c : Crates H)
  -- `TrackerComms::start` has a tracker that it can ask
  (trackerComms : Finset String → Bool)
  -- `private` of the info dictionary
  (isPrivate : TorrentInfo → Bool)

/-- The trackers that `make_peer_rx` asks. -/
def trackersOf (s : SessionSources) (trackers : List String) (isPrivate : Bool) : Finset String :=
  let trackers := if s.disableTrackers then [] else trackers
  -- "private trackers are not fully implemented, so using only the first tracker"
  if isPrivate && decide (1 < trackers.length) then (trackers.take 1).toFinset
  else if !s.disableTrackers then trackers.toFinset ∪ s.trackers
  else trackers.toFinset

def makePeerRx (s : SessionSources) (trackers : List String) (initialPeers : List SocketAddr)
    (isPrivate : Bool) : Option PeerStream :=
  let dht := !isPrivate && s.dht
  let lsd := !isPrivate && s.lsd
  let trackers := trackersOf s trackers isPrivate
  if dht || trackerComms trackers || !initialPeers.isEmpty || lsd then
    some ⟨dht, lsd, trackers, initialPeers⟩
  else none

/-- The stream of `add_torrent_internal`: of a torrent that is added paused there is none, and a
magnet is an error without one. -/
def addPeerRx (s : SessionSources) (add : Crates.InternalAddResult H) (paused : Bool)
    (initialPeers : List SocketAddr) : Option (Option PeerStream) :=
  let private_ := add.metadata.any fun m => isPrivate m.info
  let peerRx := makePeerRx trackerComms s add.trackers initialPeers private_
  match add.metadata with
  | some _ => some (if paused then none else peerRx)
  -- what is left of the stream after the metadata was found, with the peers seen so far
  | none => peerRx.map some

/-- The torrent that `add_torrent` puts into the session, with the stream that is attached when it
becomes live. -/
def addTorrent (s : SessionSources) (folders : Folders) (nextId : ℕ) (add : AddTorrent)
    (opts : AddTorrentOptions) (initialPeers : List SocketAddr) :
    Option (SessionPersistence.ManagedTorrent H × PeerStream) :=
  (c.addResult add opts).bind fun r =>
    (addPeerRx trackerComms isPrivate s r.1 r.2.paused initialPeers).bind fun peerRx =>
      (c.addTorrentInternal folders nextId r.1 r.2).bind fun t =>
        if t.paused then none else peerRx.map fun peerRx => (t, peerRx)

/-- `make_peer_rx_managed_torrent`. -/
def makePeerRxManagedTorrent (s : SessionSources) (t : SessionPersistence.ManagedTorrent H)
    (initialPeers : List SocketAddr) : Option PeerStream :=
  makePeerRx trackerComms s (c.iter t.trackers) initialPeers (isPrivate t.metadata.info)

/-- How a torrent comes to a live state with a stream. -/
inductive Way (H : Type) where
  | addTorrent (add : AddTorrent) (opts : AddTorrentOptions) (initialPeers : List SocketAddr)
  /-- A stored torrent is added again. -/
  | restart (id : ℕ) (st : SerializedTorrent H)
  /-- `initialPeers` are those of the options of the torrent. -/
  | unpause (t : SessionPersistence.ManagedTorrent H) (initialPeers : List SocketAddr)
  /-- `spawn_peer_adder` after `rediscovery_notify`. -/
  | rediscovery (t : SessionPersistence.ManagedTorrent H)

/-- The live torrent, and the stream attached to it. -/
def attached (s : SessionSources) (folders : Folders) (nextId : ℕ) :
    Way H → Option (SessionPersistence.ManagedTorrent H × PeerStream)
  | .addTorrent add opts initialPeers =>
    addTorrent c trackerComms isPrivate s folders nextId add opts initialPeers
  | .restart id st =>
    let (add, opts) := c.intoAddTorrent st
    addTorrent c trackerComms isPrivate s folders nextId add { opts with preferredId := some id } []
  | .unpause t initialPeers =>
    (makePeerRxManagedTorrent c trackerComms isPrivate s t initialPeers).map fun peerRx =>
      (t, peerRx)
  | .rediscovery t =>
    (makePeerRxManagedTorrent c trackerComms isPrivate s t []).map fun peerRx => (t, peerRx)

end Parameters

end PeerSources

end Rtbit
