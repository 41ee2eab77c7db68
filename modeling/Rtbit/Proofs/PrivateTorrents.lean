import Rtbit.Spec.PeerSources

/-! The peer streams of private torrents. `make_peer_rx` is told that a torrent is private, except
when the torrent is added by a magnet, before its metadata is known; and it adds the trackers of the
session to those of a private torrent that has no more than one. -/

namespace Rtbit

namespace PeerSources

open SessionPersistence

variable {H : Type} {c : Crates H} {trackerComms : Finset String → Bool}
  {isPrivate : TorrentInfo → Bool} {s : SessionSources}

/-- A stream without DHT and local discovery, and with trackers of the torrent only. -/
structure PeerStream.Private (peerRx : PeerStream) (t : SessionPersistence.ManagedTorrent H) :
    Prop where
  dht : peerRx.dht = false
  lsd : peerRx.lsd = false
  trackers : peerRx.trackers ⊆ t.trackers

/-- What `add_torrent` makes of the argument of a way, if the way goes through it. -/
def Way.addResult (c : Crates H) : Way H → Option (Crates.InternalAddResult H)
  | .addTorrent add opts _ => (c.addResult add opts).map Prod.fst
  | .restart id st =>
    let (add, opts) := c.intoAddTorrent st
    (c.addResult add { opts with preferredId := some id }).map Prod.fst
  | .unpause _ _ | .rediscovery _ => none

/-- The trackers that a way hands to `make_peer_rx`. -/
def Way.trackers (c : Crates H) : Way H → List String
  | .unpause t _ | .rediscovery t => c.iter t.trackers
  | way => ((way.addResult c).map Crates.InternalAddResult.trackers).getD []

/-- The metadata is known when the stream is made. -/
def Way.known (c : Crates H) (way : Way H) : Bool :=
  (way.addResult c).all fun res => res.metadata.isSome

/-- A torrent whose metadata is not known comes to a session without DHT and local discovery; and
the session uses no trackers, or none that the torrent does not have, or the torrent is known to be
private and has more than one tracker. -/
def SessionSources.Keeps (s : SessionSources) (trackers : List String) (known : Bool) : Prop :=
  (known = false → s.dht = false ∧ s.lsd = false) ∧
    (s.disableTrackers = true ∨ s.trackers ⊆ trackers.toFinset ∨
      known = true ∧ 1 < trackers.length)

instance (s : SessionSources) (trackers : List String) (known : Bool) :
    Decidable (s.Keeps trackers known) := inferInstanceAs (Decidable (_ ∧ _))

theorem trackersOf_subset_iff (s : SessionSources) (trackers : List String) (known : Bool) :
    trackersOf s trackers known ⊆ trackers.toFinset ↔
      s.disableTrackers = true ∨ s.trackers ⊆ trackers.toFinset ∨
        known = true ∧ 1 < trackers.length := by
  unfold trackersOf
  cases hd : s.disableTrackers with
  | true => simp
  | false =>
    by_cases hfirst : known = true ∧ 1 < trackers.length
    · have htake : (trackers.take 1).toFinset ⊆ trackers.toFinset := by
        intro u hu
        rw [List.mem_toFinset] at hu ⊢
        exact List.mem_of_mem_take hu
      simp [hfirst, htake]
    · have hnot : (known && decide (1 < trackers.length)) = false := by
        rw [← Bool.not_eq_true, Bool.and_eq_true, decide_eq_true_eq]
        exact hfirst
      simp [hnot, hfirst, Finset.union_subset_iff]

/-- What `make_peer_rx` builds for a private torrent, that it knows to be private or not. -/
theorem makePeerRx_private_iff {trackers : List String} {initialPeers : List SocketAddr}
    {known : Bool} {t : SessionPersistence.ManagedTorrent H} {peerRx : PeerStream}
    (h : makePeerRx trackerComms s trackers initialPeers known = some peerRx)
    (ht : t.trackers = trackers.toFinset) : peerRx.Private t ↔ s.Keeps trackers known := by
  obtain ⟨-, h⟩ := Option.ite_none_right_eq_some.1 h
  obtain rfl := Option.some.inj h
  have htrackers := trackersOf_subset_iff s trackers known
  refine ⟨?_, ?_⟩
  · rintro ⟨hdht, hlsd, hsub⟩
    refine ⟨?_, htrackers.1 (ht ▸ hsub)⟩
    rintro rfl
    exact ⟨hdht, hlsd⟩
  · rintro ⟨hsources, hlist⟩
    have hsub : trackersOf s trackers known ⊆ t.trackers := ht ▸ htrackers.2 hlist
    cases known with
    | true => exact ⟨rfl, rfl, hsub⟩
    | false => exact ⟨(hsources rfl).1, (hsources rfl).2, hsub⟩

/-- The torrent has the trackers it was added with, and the metadata if that was known. -/
theorem addTorrentInternal_eq_some {folders : Folders} {nextId : ℕ}
    {add : Crates.InternalAddResult H} {opts : AddTorrentOptions}
    {t : SessionPersistence.ManagedTorrent H}
    (h : c.addTorrentInternal folders nextId add opts = some t) :
    t.trackers = add.trackers.toFinset ∧ ∀ m, add.metadata = some m → t.metadata = m := by
  obtain ⟨metadata, hm, h⟩ := Option.bind_eq_some_iff.1 h
  obtain ⟨onlyFiles, -, h⟩ := Option.bind_eq_some_iff.1 h
  obtain ⟨outputFolder, -, rfl⟩ := Option.map_eq_some_iff.1 h
  refine ⟨rfl, ?_⟩
  intro m hadd
  rw [hadd] at hm
  exact (Option.some.inj hm).symm

theorem addTorrent_private_iff {folders : Folders} {nextId : ℕ} {add : AddTorrent}
    {opts : AddTorrentOptions} {initialPeers : List SocketAddr}
    {t : SessionPersistence.ManagedTorrent H} {peerRx : PeerStream}
    (h : addTorrent c trackerComms isPrivate s folders nextId add opts initialPeers =
      some (t, peerRx)) (hp : isPrivate t.metadata.info = true) :
    ∃ res, (c.addResult add opts).map Prod.fst = some res ∧
      (peerRx.Private t ↔ s.Keeps res.trackers res.metadata.isSome) := by
  obtain ⟨⟨res, opts'⟩, hr, h⟩ := Option.bind_eq_some_iff.1 h
  obtain ⟨rx, hrx, h⟩ := Option.bind_eq_some_iff.1 h
  obtain ⟨t', ht, h⟩ := Option.bind_eq_some_iff.1 h
  obtain ⟨-, h⟩ := Option.ite_none_left_eq_some.1 h
  obtain ⟨peerRx', rfl, heq⟩ := Option.map_eq_some_iff.1 h
  obtain ⟨rfl, rfl⟩ := Prod.mk.inj heq
  obtain ⟨htrackers, hmeta⟩ := addTorrentInternal_eq_some ht
  refine ⟨res, by rw [hr, Option.map_some], ?_⟩
  simp only [addPeerRx] at hrx
  cases hm : res.metadata with
  | some metadata =>
    -- a torrent file: the stream is made for a torrent that is known to be private
    rw [hm] at hrx
    obtain ⟨-, hrx⟩ := Option.ite_none_left_eq_some.1 (Option.some.inj hrx)
    rw [hmeta metadata hm] at hp
    rw [Option.any_some, hp] at hrx
    exact makePeerRx_private_iff hrx htrackers
  | none =>
    -- a magnet
    rw [hm] at hrx
    obtain ⟨_, hmade, hsome⟩ := Option.map_eq_some_iff.1 hrx
    obtain rfl := Option.some.inj hsome
    exact makePeerRx_private_iff hmade htrackers

/-- In every way a private torrent gets a stream, the stream stays private exactly if a torrent
that is not known yet meets neither DHT nor local discovery, and if trackers are off, or the session
has no others than the torrent, or the torrent is known and has more than one. -/
theorem private_iff (c : Crates H) (trackerComms : Finset String → Bool)
    (isPrivate : TorrentInfo → Bool) (s : SessionSources) (folders : Folders) (nextId : ℕ)
    (way : Way H) (t : SessionPersistence.ManagedTorrent H) (peerRx : PeerStream)
    (hiter : (c.iter t.trackers).Perm t.trackers.toList)
    (h : attached c trackerComms isPrivate s folders nextId way = some (t, peerRx))
    (hp : isPrivate t.metadata.info = true) :
    (peerRx.dht = false ∧ peerRx.lsd = false ∧ peerRx.trackers ⊆ t.trackers) ↔
      s.Keeps (way.trackers c) (way.known c) := by
  have hset : t.trackers = (c.iter t.trackers).toFinset := by
    rw [List.toFinset_eq_of_perm _ _ hiter, Finset.toList_toFinset]
  have hiff : peerRx.Private t ↔ s.Keeps (way.trackers c) (way.known c) := by
    cases way with
    | addTorrent add opts initialPeers =>
      obtain ⟨res, hres, hiff⟩ := addTorrent_private_iff h hp
      have hadd : (Way.addTorrent add opts initialPeers).addResult c = some res := hres
      simpa [Way.trackers, Way.known, hadd] using hiff
    | restart id st =>
      obtain ⟨res, hres, hiff⟩ := addTorrent_private_iff h hp
      have hadd : (Way.restart id st).addResult c = some res := hres
      simpa [Way.trackers, Way.known, hadd] using hiff
    | unpause t' initialPeers | rediscovery t' =>
      obtain ⟨rx, hrx, heq⟩ := Option.map_eq_some_iff.1 h
      obtain ⟨rfl, rfl⟩ := Prod.mk.inj heq
      unfold makePeerRxManagedTorrent at hrx
      rw [hp] at hrx
      exact makePeerRx_private_iff hrx hset
  rw [← hiff]
  exact ⟨fun ⟨hd, hl, ht⟩ => ⟨hd, hl, ht⟩, fun ⟨hd, hl, ht⟩ => ⟨hd, hl, ht⟩⟩

/-- A private torrent with one tracker, from its file `[1]` or from a magnet; the peers that are
found send its metadata. -/
def onePrivate : Crates ℕ where
  urlParse s := if s = "" then none else some s
  magnetToString _ := "magnet:?xt=urn:btih:7&tr=http://a"
  magnetParse _ := some ⟨some 7, ["http://a"], none, none⟩
  torrentFromBytes bytes := if bytes = [1] then some ⟨7, ["http://a"], ⟨[2], [some "f"]⟩⟩ else none
  bencode _ _ info := 1 :: info
  get _ := none
  readMetainfo infoHash := if infoHash = 7 then some ⟨[2], [some "f"]⟩ else none
  regexNew _ := none
  join a b := a ++ b
  iter s := if "http://a" ∈ s then ["http://a"] else []

def privateTorrent (metadata : TorrentMetadata) : SessionPersistence.ManagedTorrent ℕ where
  id := 0
  infoHash := 7
  trackers := {"http://a"}
  outputFolder := "out"
  category := none
  filesystem := true
  metadata := metadata
  paused := false
  onlyFiles := none

/-- The `private` flag of its info dictionary. -/
def privateInfo (info : TorrentInfo) : Bool := info.bytes == [2]

/-- How the torrent is added. -/
def addPrivate (add : AddTorrent) : Way ℕ := .addTorrent add { outputFolder := some "out" } []

/-- The stream of the torrent in a session. -/
def attachedPrivate (s : SessionSources) (add : AddTorrent) :
    Option (SessionPersistence.ManagedTorrent ℕ × PeerStream) :=
  attached onePrivate (fun trackers => decide (trackers ≠ ∅)) privateInfo s
    ⟨"out", fun _ _ => some ""⟩ 0 (addPrivate add)

/-- With trackers of the torrent only, a file comes to a session with DHT without it. -/
theorem file_stays_private :
    ∃ t peerRx, attachedPrivate ⟨true, true, ∅, false⟩ (.torrentFileBytes [1]) = some (t, peerRx) ∧
      peerRx.dht = false ∧ peerRx.lsd = false ∧ peerRx.trackers ⊆ t.trackers := by
  have h : attachedPrivate ⟨true, true, ∅, false⟩ (.torrentFileBytes [1]) =
      some (privateTorrent ⟨⟨[2], [some "f"]⟩, [1]⟩, ⟨false, false, {"http://a"}, []⟩) := by
    decide +kernel
  have hkeeps : SessionSources.Keeps ⟨true, true, ∅, false⟩
      ((addPrivate (.torrentFileBytes [1])).trackers onePrivate)
      ((addPrivate (.torrentFileBytes [1])).known onePrivate) := by
    decide +kernel
  have hiter : (onePrivate.iter {"http://a"}).Perm ({"http://a"} : Finset String).toList := by
    rw [Finset.toList_singleton]
    exact List.Perm.refl _
  exact ⟨_, _, h, (private_iff _ _ _ _ _ _ _ _ _ hiter h (by decide)).2 hkeeps⟩

/-- The magnet of the torrent brings DHT and local discovery with it, and its file the trackers of
the session. -/
theorem private_leaks :
    (∃ t peerRx, attachedPrivate ⟨true, true, ∅, false⟩
        (.magnet "magnet:?xt=urn:btih:7&tr=http://a") = some (t, peerRx) ∧
      privateInfo t.metadata.info = true ∧ peerRx.dht = true ∧ peerRx.lsd = true) ∧
    ∃ t peerRx, attachedPrivate ⟨false, false, {"http://b"}, false⟩ (.torrentFileBytes [1]) =
        some (t, peerRx) ∧
      privateInfo t.metadata.info = true ∧ ¬peerRx.trackers ⊆ t.trackers := by
  have hmagnet : attachedPrivate ⟨true, true, ∅, false⟩
      (.magnet "magnet:?xt=urn:btih:7&tr=http://a") =
        some (privateTorrent ⟨⟨[2], [some "f"]⟩, [1, 2]⟩, ⟨true, true, {"http://a"}, []⟩) := by
    decide +kernel
  have hfile : attachedPrivate ⟨false, false, {"http://b"}, false⟩ (.torrentFileBytes [1]) =
      some (privateTorrent ⟨⟨[2], [some "f"]⟩, [1]⟩,
        ⟨false, false, {"http://a", "http://b"}, []⟩) := by
    decide +kernel
  exact ⟨⟨_, _, hmagnet, by decide, rfl, rfl⟩, ⟨_, _, hfile, by decide, by decide +kernel⟩⟩

end PeerSources

end Rtbit
