import Rtbit.Lib.Tasks
import Rtbit.Spec.Live

/-! The functions of a live torrent with the locks they take: the shards of the peer map, the
lock of `TorrentStateLive` and the per-piece locks. Each function is a program whose steps
other tasks may come between; its guards live as long as in the source. What a function
reads from outside these locks (the choke flag, the clock, the disk, the queue of addresses,
the streams) is an argument of the call. -/

namespace Rtbit

open Lib

/-- `PeerStates.states`, a `DashMap`, as its users see its locks: each address belongs to a
shard. The shards are numbered in the order in which the iterators visit them. -/
structure PeerStates where
  shards : ℕ
  shard : PeerHandle → Fin shards

inductive Lock (l : Lengths) (n : ℕ) where
  | shard (i : Fin n)
  | global
  | piece (p : ValidPieceIndex l)
  deriving DecidableEq

/-- What the locks protect. -/
structure Shared (l : Lengths) where
  /-- `None` once the torrent is paused. -/
  pieces : Option (PieceTracker l)
  peers : PeerHandle → Option Peer

/-- How far an iteration over the peer map comes before `try_send` fails. -/
structure Sweep (n : ℕ) where
  reached : PeerHandle → Bool
  stop : Fin n → Bool

def Sweep.full (n : ℕ) : Sweep n := ⟨fun _ => true, fun _ => false⟩

/-- The outcomes outside the locks of one `write_to_disk`. -/
structure DiskOutcome where
  written : Bool
  now : ℕ
  hash : CheckResult
  activeStreams : Bool

/-- How a peer died, and what `on_peer_died` finds outside the locks. -/
structure Death where
  error : Bool
  incoming : Bool
  activeStreams : Bool
  backoffExhausted : Bool

inductive Call (l : Lengths) (n : ℕ) where
  | peer (a : PeerHandle) (m : PeerMove)
  | chunkRequester (a : PeerHandle) (choked activeStreams : Bool) (req : AcquireRequest l)
  | onReceivedPiece (a : PeerHandle) (m : PieceMsg) (o : DiskOutcome)
  | onPeerDied (a : PeerHandle) (d : Death)
  | updateOnlyFiles (only : Finset ℕ) (sweep : Sweep n)
  | requeueDeadPeers (sweep : Sweep n)
  | pruneDeadPeers (expired : PeerHandle → Bool) (logged : Bool)
  | pause

namespace Shared

variable {l : Lengths} (d : Shared l)

def start (chunks : ChunkTracker l) : Shared l := ⟨some (PieceTracker.new chunks), fun _ => none⟩

def getLive (a : PeerHandle) : Option LivePeerState :=
  match d.peers a with
  | some ⟨.live live, _⟩ => some live
  | _ => none

def setPeer (a : PeerHandle) (p : Option Peer) : Shared l :=
  { d with peers := Function.update d.peers a p }

def setState (a : PeerHandle) (st : PeerState) : Shared l :=
  d.setPeer a ((d.peers a).map fun p => { p with state := st })

/-- The change of one entry; nothing if it does not apply. -/
def move (a : PeerHandle) (m : PeerMove) : Shared l :=
  d.setPeer a ((m.apply l.totalPieces a (d.peers a)).getD (d.peers a))

def mapLive (a : PeerHandle) (f : LivePeerState → LivePeerState) : Shared l :=
  match d.getLive a with
  | some live => d.setState a (.live (f live))
  | none => d

def mapPieces (f : PieceTracker l → PieceTracker l) : Shared l := { d with pieces := d.pieces.map f }

/-- `get_hns().map(|h| h.finished()).unwrap_or_default()`. -/
def isFinished : Bool := d.pieces.any fun t => t.chunks.isFinished

/-- `mark_chunk_downloaded`, then `take_inflight` if the piece is complete; whether it was
taken. -/
def markChunk (m : PieceMsg) (p : ValidPieceIndex l) (now : ℕ) (t : PieceTracker l) :
    PieceTracker l × Bool :=
  match t.markChunkDownloaded m with
  | some (.completed, t') => ((t'.takeInflight p now).2, (t'.takeInflight p now).1.isSome)
  | some (_, t') => (t', false)
  | none => (t, false)

/-- After `update_only_files` a selected piece is missing. -/
def leavesMissing (fileInfos : List FileInfo) (only : Finset ℕ) : Bool :=
  d.pieces.any fun t => !(t.updateOnlyFiles fileInfos only).chunks.isFinished

end Shared

namespace PeerStates

variable {l : Lengths} (ps : PeerStates) (fileInfos : List FileInfo)

/-- A program over the locks and the data they protect. -/
abbrev Code (l : Lengths) (α : Type) : Type := Prog (Lock l ps.shards) (Shared l) α

/-- The lock that `get`, `get_mut`, `entry` and `remove` take for an address. -/
def lockOf (a : PeerHandle) : Lock l ps.shards := .shard (ps.shard a)

/-- The entries of one shard are visited. -/
def visit (sweep : Sweep ps.shards) (m : PeerMove) (i : Fin ps.shards) (d : Shared l) : Shared l :=
  { d with
    peers := fun a =>
      if ps.shard a = i ∧ sweep.reached a = true then
        (m.apply l.totalPieces a (d.peers a)).getD (d.peers a)
      else d.peers a }

def dropShard : Option (Fin ps.shards) → ps.Code l Unit
  | none => pure ()
  | some i => .unlock (.shard i)

/-- `iter_mut`: the iterator drops the guard of a shard when it has that of the next one. -/
def iterMutFrom (sweep : Sweep ps.shards) (m : PeerMove) (current : Option (Fin ps.shards)) :
    List (Fin ps.shards) → ps.Code l Unit
  | [] => ps.dropShard current
  | i :: rest => do
    Prog.lock (.shard i) .write
    ps.dropShard current
    let _ ← Prog.modify (ps.visit sweep m i)
    if sweep.stop i then Prog.unlock (.shard i)
    else iterMutFrom sweep m (some i) rest

def iterMut (sweep : Sweep ps.shards) (m : PeerMove) : ps.Code l Unit :=
  ps.iterMutFrom sweep m none (List.finRange ps.shards)

/-- One lock at a time, for every shard. -/
def eachShard (mode : Mode) (f : Fin ps.shards → Shared l → Shared l) :
    List (Fin ps.shards) → ps.Code l Unit
  | [] => pure ()
  | i :: rest => do
    let _ ← (Prog.modify (f i)).withLock (.shard i) mode
    eachShard mode f rest

def disconnectAllPeersThatHaveFullTorrent : ps.Code l Unit :=
  ps.iterMut (.full _) .disconnectFull

def reconnectAllNotNeededPeers (sweep : Sweep ps.shards) : ps.Code l Unit :=
  ps.iterMut sweep .reconnectNotNeeded

def requeueDeadPeers (sweep : Sweep ps.shards) : ps.Code l Unit :=
  ps.iterMut sweep .deadToQueued

/-- `retain`, and `len` for the log line. -/
def pruneDeadPeers (expired : PeerHandle → Bool) (logged : Bool) : ps.Code l Unit := do
  ps.eachShard .write (ps.visit ⟨expired, fun _ => false⟩ .prune) (List.finRange ps.shards)
  if logged then ps.eachShard .read (fun _ => id) (List.finRange ps.shards)
  else pure ()

/-- `with_peer`; the data it reads. -/
def withPeer (a : PeerHandle) : ps.Code l (Shared l) :=
  Prog.get.withLock (ps.lockOf a) .read

/-- `with_peer_mut`; the data before the change. -/
def withPeerMut (a : PeerHandle) (f : Shared l → Shared l) : ps.Code l (Shared l) :=
  (Prog.modify f).withLock (ps.lockOf a) .write

/-- A section under the write side of the lock of `TorrentStateLive`. -/
def lockWrite (f : Shared l → Shared l) : ps.Code l (Shared l) :=
  (Prog.modify f).withLock .global .write

def isFinished : ps.Code l Bool := do
  let d ← Prog.get.withLock .global .read
  return d.isFinished

def isFinishedAndNoActiveStreams (activeStreams : Bool) : ps.Code l Bool := do
  let finished ← ps.isFinished
  if finished then
    let _ ← Prog.get.withLock .global .read
    return !activeStreams
  else return false

def onSteal (fromPeer toPeer : PeerHandle) (p : ValidPieceIndex l) : ps.Code l Unit := do
  let _ ← ps.withPeer toPeer
  let _ ← ps.withPeer fromPeer
  let _ ← ps.withPeerMut fromPeer fun d => d.mapLive fromPeer fun live => live.cancel p
  return ()

/-- `per_piece_locks[p].try_write().is_some()`: the guard is dropped at once. -/
def canSteal : Option (ValidPieceIndex l) → ps.Code l Bool
  | none => pure false
  | some p => do
    let free ← Prog.tryLock (.piece p)
    if free then
      Prog.unlock (.piece p)
      return true
    else return false

/-- `acquire_piece` under the lock: the first and the last of its three attempts ask
`can_steal` about the piece they found. -/
def acquirePiece (req : AcquireRequest l) (t : PieceTracker l) : ps.Code l (AcquireResult l) := do
  let first := (t.stealCandidate req 10).map Prod.fst
  let free ← ps.canSteal first
  let last :=
    if free || (t.priorityPick req).isSome || (t.queuePick req).isSome then none
    else (t.stealCandidate req 3).map Prod.fst
  let free' ← ps.canSteal last
  let result := t.acquirePiece
    { req with canSteal := fun p => first = some p && free || last = some p && free' }
  let _ ← Prog.modify fun d => { d with pieces := some result.2 }
  return result.1

/-- The closure of `acquire_next_piece`, with the peer's entry locked; `none` is
`ChunkTrackerEmpty`. -/
def acquireNextPieceLocked (a : PeerHandle) (live : LivePeerState) (req : AcquireRequest l) :
    ps.Code l (Option (AcquireResult l)) :=
  Prog.withLock .global .write do
    let d ← Prog.get
    match d.pieces with
    | none => return none
    | some t =>
      let result ← ps.acquirePiece (Live.request fileInfos a live req) t
      return some result

/-- The end of `acquire_next_piece`: the steal is processed outside the lock of the peer. -/
def afterAcquire (a : PeerHandle) : Option (AcquireResult l) →
    Prog (Lock l ps.shards) (Shared l) (Option (Option (ValidPieceIndex l)))
  | some (.reserved p) => return some (some p)
  | some (.stolen p fromPeer) => do
    ps.onSteal fromPeer a p
    return some (some p)
  | some .noneAvailable => return some none
  | none => return none

def acquireNextPiece (a : PeerHandle) (choked : Bool) (req : AcquireRequest l) :
    Prog (Lock l ps.shards) (Shared l) (Option (Option (ValidPieceIndex l))) := do
  let result ← Prog.withLock (ps.lockOf a) .write do
    let d ← Prog.get
    match d.getLive a with
    | none => return some .noneAvailable
    | some live =>
      if choked then return some .noneAvailable
      else ps.acquireNextPieceLocked fileInfos a live req
  ps.afterAcquire a result

/-- The requests for the chunks of a piece; they end when the peer is gone. -/
def addRequests (a : PeerHandle) : List ChunkInfo → ps.Code l Unit
  | [] => pure ()
  | c :: chunks => do
    let d ← ps.withPeerMut a fun d => d.mapLive a fun live => live.insert c 0
    if (d.getLive a).isSome then addRequests a chunks
    else pure ()

/-- One round of the loop of `task_peer_chunk_requester`. -/
def chunkRequester (a : PeerHandle) (choked activeStreams : Bool) (req : AcquireRequest l) :
    ps.Code l Unit := do
  let finished ← ps.isFinishedAndNoActiveStreams activeStreams
  if finished then
    let _ ← ps.withPeer a
    return ()
  else
    let next ← ps.acquireNextPiece fileInfos a choked req
    match next with
    | some (some p) => ps.addRequests a (l.iterChunkInfos p)
    | _ => return ()

def onPieceCompleted (p : ValidPieceIndex l) (activeStreams : Bool) : ps.Code l Unit := do
  let d ← ps.lockWrite fun d => d.mapPieces fun t => t.onPieceCompleted fileInfos p
  -- the guard is dropped before the peer map is swept
  if (d.mapPieces fun t => t.onPieceCompleted fileInfos p).isFinished && !activeStreams then
    ps.disconnectAllPeersThatHaveFullTorrent
  else pure ()

/-- `write_to_disk` after the per-piece lock is dropped, for a piece taken out of flight. -/
def checkPiece (a : PeerHandle) (p : ValidPieceIndex l) (o : DiskOutcome) : ps.Code l Unit :=
  match o.hash with
  | .ok => do
    let d ← ps.lockWrite fun d => d.mapPieces fun t => t.markPieceHashOk p
    if d.pieces.isSome then
      -- `reset_peer_backoff`
      let _ ← ps.withPeerMut a id
      ps.onPieceCompleted fileInfos p o.activeStreams
    else pure ()
  | .failed => do
    let _ ← ps.lockWrite fun d => d.mapPieces fun t => t.markPieceHashFailed p
    return ()
  | .ioError => pure ()

def writeToDisk (a : PeerHandle) (m : PieceMsg) (p : ValidPieceIndex l) (o : DiskOutcome) :
    ps.Code l Unit := do
  Prog.lock .global .read
  Prog.lock (.piece p) .read
  let d ← Prog.get
  if (d.pieces.bind fun t => t.owner p) = some a then
    Prog.unlock .global
    if o.written then
      let d ← ps.lockWrite fun d => d.mapPieces fun t => (Shared.markChunk m p o.now t).1
      Prog.unlock (.piece p)
      if d.pieces.any fun t => (Shared.markChunk m p o.now t).2 then ps.checkPiece fileInfos a p o
      else pure ()
    else
      -- `on_fatal_error`
      let _ ← ps.lockWrite id
      Prog.unlock (.piece p)
  else
    Prog.unlock (.piece p)
    Prog.unlock .global

def onReceivedPiece (a : PeerHandle) (m : PieceMsg) (o : DiskOutcome) : ps.Code l Unit :=
  match l.validatePieceIndex m.index with
  | none => pure ()
  | some p =>
    match l.chunkInfoFromReceivedData p m.start m.len with
    | none => pure ()
    | some c => do
      let d ← ps.withPeerMut a fun d => d.mapLive a fun live => live.remove c
      if (d.getLive a).any fun live => live.requested c then ps.writeToDisk fileInfos a m p o
      else pure ()

/-- The end of `on_peer_died`, after the pieces of a live peer have been released; the entry
is locked. -/
def closePeer (a : PeerHandle) (o : Death) : ps.Code l Unit := do
  if o.error then
    let notNeeded ← ps.isFinishedAndNoActiveStreams o.activeStreams
    let _ ← Prog.modify fun d => d.setState a (if notNeeded then .notNeeded else .dead)
    Prog.unlock (ps.lockOf a)
    if !notNeeded && !o.incoming && o.backoffExhausted then
      -- `reset_backoff`, after `drop(pe)`
      let _ ← ps.withPeerMut a id
      return ()
    else return ()
  else
    let _ ← Prog.modify fun d => d.setState a .notNeeded
    Prog.unlock (ps.lockOf a)

def onPeerDied (a : PeerHandle) (o : Death) : ps.Code l Unit := do
  Prog.lock (ps.lockOf a) .write
  let d ← Prog.get
  match (d.peers a).map Peer.state with
  | none => Prog.unlock (ps.lockOf a)
  | some (.live _) =>
    let _ ← Prog.modify fun d => d.setState a .queued
    let d ← ps.lockWrite fun d => d.mapPieces fun t => (t.releasePiecesOwnedBy a).1
    -- `get_pieces_mut()?`
    if d.pieces.isSome then ps.closePeer a o
    else Prog.unlock (ps.lockOf a)
  | some .connecting =>
    let _ ← Prog.modify fun d => d.setState a .queued
    ps.closePeer a o
  | some .notNeeded => Prog.unlock (ps.lockOf a)
  | some .queued | some .dead =>
    let _ ← Prog.modify fun d => d.setState a .queued
    -- the entry is unlocked before `drop_peer` locks it again
    Prog.unlock (ps.lockOf a)
    let _ ← ps.withPeerMut a fun d => d.setPeer a none
    return ()

def updateOnlyFiles (only : Finset ℕ) (sweep : Sweep ps.shards) : ps.Code l Unit :=
  Prog.withLock .global .write do
    let d ← Prog.modify fun d => d.mapPieces fun t => t.updateOnlyFiles fileInfos only
    if d.leavesMissing fileInfos only then ps.reconnectAllNotNeededPeers sweep
    else pure ()

def pause : ps.Code l Unit := do
  let _ ← ps.lockWrite fun d => { d with pieces := none }
  return ()

def body : Call l ps.shards → ps.Code l Unit
  | .peer a m => do
    let _ ← ps.withPeerMut a fun d => d.move a m
    return ()
  | .chunkRequester a choked activeStreams req => ps.chunkRequester fileInfos a choked activeStreams req
  | .onReceivedPiece a m o => ps.onReceivedPiece fileInfos a m o
  | .onPeerDied a o => ps.onPeerDied a o
  | .updateOnlyFiles only sweep => ps.updateOnlyFiles fileInfos only sweep
  | .requeueDeadPeers sweep => ps.requeueDeadPeers sweep
  | .pruneDeadPeers expired logged => ps.pruneDeadPeers expired logged
  | .pause => ps.pause

end PeerStates

end Rtbit
