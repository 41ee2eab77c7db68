import Rtbit.Spec.PeerInfoReader

/-! `read_metainfo_from_peer_receiver`: the metadata of a magnet is read from many peers at a time,
until one of them gives it. Then what the addresses are that the torrent gets, those that were
consumed on the way among them. A stream that has ended gives nothing more. -/

namespace Rtbit

namespace Metadata

variable {A E I H : Type}

/-- A future of `read_info_guarded`. -/
inductive ReadInfo (E I : Type) where
  /-- At `semaphore.acquire()`. -/
  | waiting
  /-- In `read_metainfo_from_peer`, with a token. -/
  | reading (handler : Handler E I)

/-- `rx` of `Found` is what is left of `addrs`. -/
inductive ReadMetainfoResult (A I : Type) where
  | found (info : I) (infoBytes : List UInt8) (seen : Finset A)
  | channelClosed (seen : Finset A)

/-- The loop at its `select!`, or after its `return`. -/
structure ReadMetainfo (A E I : Type) where
  seen : Finset A
  /-- What is left of the semaphore. -/
  permits : ℕ
  unordered : List (A × ReadInfo E I)
  addrsCompleted : Bool
  /-- The log: "error reading metainfo from {addr}". -/
  errors : List A
  result : Option (ReadMetainfoResult A I)

/-- What one of the futures does, or the branch of `select!` that is taken. -/
inductive ReadEvent (A : Type) where
  /-- The `i`-th future gets a token. -/
  | acquire (i : ℕ)
  /-- Its peer sends a message. -/
  | call (i : ℕ) (c : ReaderCall)
  /-- `unordered.next()` gives what came through its oneshot. -/
  | result (i : ℕ)
  /-- `unordered.next()` gives an error: its connection ended first. -/
  | connectionEnded (i : ℕ)
  | nextAddr (a : Option A)

namespace ReadMetainfo

/-- `Semaphore::new(128)`. -/
def maxReads : ℕ := 128

/-- The check on top of the loop. -/
def loopTop (s : ReadMetainfo A E I) : ReadMetainfo A E I :=
  if s.addrsCompleted && s.unordered.isEmpty then { s with result := some (.channelClosed s.seen) }
  else s

/-- The branch `Some(Err(e))`: the future is gone, and its token back. -/
def readFailed (s : ReadMetainfo A E I) (i : ℕ) (a : A) : ReadMetainfo A E I :=
  loopTop { s with
    permits := s.permits + 1
    unordered := s.unordered.eraseIdx i
    errors := s.errors ++ [a] }

/-- The connections that are being read from. -/
def reading (s : ReadMetainfo A E I) : ℕ :=
  s.unordered.countP fun r =>
    match r.2 with
    | .waiting => false
    | .reading _ => true

/-- The addresses that the stream has given. -/
def taken (events : List (ReadEvent A)) : List A :=
  events.filterMap fun
    | .nextAddr a => a
    | _ => none

variable [DecidableEq A]

def start (initialAddrs : List A) : ReadMetainfo A E I :=
  loopTop {
    seen := initialAddrs.toFinset
    permits := maxReads
    unordered := initialAddrs.map (·, .waiting)
    addrsCompleted := false
    errors := []
    result := none }

/-- `push` of a future for an address that was not seen. -/
def addAddr (s : ReadMetainfo A E I) (a : A) : ReadMetainfo A E I :=
  if a ∈ s.seen then s
  else { s with seen := insert a s.seen, unordered := s.unordered ++ [(a, .waiting)] }

section

variable [DecidableEq H] (lastElementSize : ℕ → ℕ → ℕ) (sha1 : List UInt8 → H) (infoHash : H)
  (parse : List UInt8 → Except E I)

/-- A step that has no value is one that cannot be taken; with a `call`, a panic of the reader. -/
def select (s : ReadMetainfo A E I) : ReadEvent A → Option (ReadMetainfo A E I)
  | .acquire i =>
    match s.unordered[i]? with
    | some (a, .waiting) =>
      if 0 < s.permits then
        some { s with
          permits := s.permits - 1
          unordered := s.unordered.set i (a, .reading .new) }
      else none
    | _ => none
  | .call i c =>
    match s.unordered[i]? with
    | some (a, .reading h) =>
      (readerStep lastElementSize sha1 infoHash parse h c).map fun h =>
        { s with unordered := s.unordered.set i (a, .reading h) }
    | _ => none
  | .result i =>
    match s.unordered[i]? with
    | some (a, .reading h) =>
      match h.sent with
      | [] => none
      | .ok (info, bytes) :: _ => some { s with result := some (.found info bytes s.seen) }
      | .error _ :: _ => some (s.readFailed i a)
    | _ => none
  | .connectionEnded i =>
    match s.unordered[i]? with
    | some (a, .reading _) => some (s.readFailed i a)
    | _ => none
  | .nextAddr a =>
    if s.addrsCompleted then none
    else
      match a with
      | some a => some (s.addAddr a)
      | none => some (loopTop { s with addrsCompleted := true })

def step (s : ReadMetainfo A E I) (e : ReadEvent A) : Option (ReadMetainfo A E I) :=
  if s.result.isSome then none else s.select lastElementSize sha1 infoHash parse e

end

end ReadMetainfo

/-! `add_torrent_internal` of a magnet, as far as the addresses of its peers go. -/

structure MagnetPeers (A E I : Type) where
  read : ReadMetainfo A E I
  /-- What is left of `stream::iter(seen_peers)`, from when the magnet is resolved. -/
  seenPeers : Option (List A)
  /-- The keys of the peers of the torrent. -/
  peers : Finset A

inductive MagnetEvent (A : Type) where
  | read (e : ReadEvent A)
  /-- The torrent is added, with the seen addresses in the order in which the set gives them. -/
  | resolved (seenPeers : List A)
  /-- `drain_peer_stream` gets what is next of `rx`, through `merge_streams`. -/
  | nextPeer (a : Option A)
  /-- It gets the next of the seen addresses. -/
  | nextSeen
  /-- Another caller of `add_peer_if_not_seen`, or a peer that connects to us. -/
  | otherPeer (a : A)

namespace MagnetPeers

/-- Both of the merged streams have ended. -/
def Drained (s : MagnetPeers A E I) : Prop :=
  s.read.addrsCompleted = true ∧ s.seenPeers = some []

/-- The address that `peer_rx` gives. -/
def given : MagnetEvent A → Option A
  | .read (.nextAddr a) => a
  | .nextPeer a => a
  | _ => none

/-- The addresses that `peer_rx` has given, before the magnet was resolved and after. -/
def taken (events : List (MagnetEvent A)) : List A := events.filterMap given

variable [DecidableEq A]

/-- `resolve_magnet` starts without addresses. -/
def start : MagnetPeers A E I := ⟨.start [], none, ∅⟩

/-- `add_peer_if_not_seen`. -/
def addPeerIfNotSeen (s : MagnetPeers A E I) (a : A) : MagnetPeers A E I :=
  { s with peers := insert a s.peers }

section

variable [DecidableEq H] (lastElementSize : ℕ → ℕ → ℕ) (sha1 : List UInt8 → H) (infoHash : H)
  (parse : List UInt8 → Except E I)

def step (s : MagnetPeers A E I) : MagnetEvent A → Option (MagnetPeers A E I)
  | .read e =>
    (s.read.step lastElementSize sha1 infoHash parse e).map fun r => { s with read := r }
  | .resolved order =>
    match s.read.result, s.seenPeers with
    | some (.found _ _ seen), none =>
      if order.Nodup ∧ order.toFinset = seen then some { s with seenPeers := some order } else none
    | _, _ => none
  | .nextPeer a =>
    if s.seenPeers.isNone || s.read.addrsCompleted then none
    else
      match a with
      | some a => some (s.addPeerIfNotSeen a)
      | none => some { s with read := { s.read with addrsCompleted := true } }
  | .nextSeen =>
    match s.seenPeers with
    | some (a :: rest) => some { s.addPeerIfNotSeen a with seenPeers := some rest }
    | _ => none
  | .otherPeer a => if s.seenPeers.isNone then none else some (s.addPeerIfNotSeen a)

end

end MagnetPeers

end Metadata

end Rtbit
