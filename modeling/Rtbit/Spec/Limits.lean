import Mathlib.Tactic

/-! The rate limits (`limits.rs`), and the two tasks that wait for them: `task_upload_scheduler`, which
serves the requests of all peers, and `task_peer_chunk_requester`, one for each peer. The limiter of
`governor` is known by its quota, and `until_n_ready` is a parameter: what it returns, after waiting
when that is `Ok`. -/

namespace Rtbit

abbrev NonZeroU32 := {n : ℕ // 0 < n ∧ n < 2 ^ 32}

/-- `NonZeroU32::new`. -/
def nonZeroU32 (n : ℕ) : Option NonZeroU32 :=
  if h : 0 < n ∧ n < 2 ^ 32 then some ⟨n, h⟩ else none

/-- A limiter with `Quota::per_second`. -/
structure RateLimiter where
  quota : NonZeroU32
  deriving DecidableEq, Repr

/-- `InsufficientCapacity` of `governor`. -/
inductive LimitError where
  | insufficientCapacity
  deriving DecidableEq, Repr

abbrev UntilNReady := RateLimiter → NonZeroU32 → Except LimitError Unit

structure LimitsConfig where
  uploadBps : Option NonZeroU32
  downloadBps : Option NonZeroU32
  peerLimit : Option ℕ
  concurrentInitLimit : Option ℕ
  deriving DecidableEq, Repr

structure Limit where
  limiter : Option RateLimiter
  currentBps : ℕ
  deriving DecidableEq, Repr

namespace Limit

def newInner (bps : Option NonZeroU32) : Option RateLimiter := bps.map RateLimiter.mk

def new (bps : Option NonZeroU32) : Limit := ⟨newInner bps, (bps.map Subtype.val).getD 0⟩

def acquire (untilNReady : UntilNReady) (l : Limit) (size : NonZeroU32) : Except LimitError Unit :=
  match l.limiter with
  | some rl => untilNReady rl size
  | none => .ok ()

def set (_ : Limit) (limit : Option NonZeroU32) : Limit :=
  ⟨newInner limit, (limit.map Subtype.val).getD 0⟩

def get (l : Limit) : Option NonZeroU32 := nonZeroU32 l.currentBps

end Limit

structure Limits where
  down : Limit
  up : Limit
  deriving DecidableEq, Repr

namespace Limits

def new (config : LimitsConfig) : Limits := ⟨Limit.new config.downloadBps, Limit.new config.uploadBps⟩

def prepareForUpload (untilNReady : UntilNReady) (l : Limits) (len : NonZeroU32) :
    Except LimitError Unit :=
  l.up.acquire untilNReady len

def prepareForDownload (untilNReady : UntilNReady) (l : Limits) (len : NonZeroU32) :
    Except LimitError Unit :=
  l.down.acquire untilNReady len

def setUploadBps (l : Limits) (bps : Option NonZeroU32) : Limits := { l with up := l.up.set bps }

def setDownloadBps (l : Limits) (bps : Option NonZeroU32) : Limits := { l with down := l.down.set bps }

def getConfig (l : Limits) : LimitsConfig := ⟨l.up.get, l.down.get, none, none⟩

end Limits

/-- One of the two limits in a direction. -/
inductive Level where
  | torrent
  | session
  deriving DecidableEq, Repr

/-- Where `task_upload_scheduler` is. -/
inductive UploadScheduler where
  | recv
  /-- The limit of this level is next. -/
  | acquire (level : Level) (size : NonZeroU32)
  /-- The limiter it has loaded makes it wait. -/
  | wait (level : Level) (size : NonZeroU32)
  | send (size : NonZeroU32)
  | returned (error : LimitError)
  deriving DecidableEq, Repr

/-- Where `task_peer_chunk_requester` is. -/
inductive ChunkRequester where
  | nextChunk
  | acquire (level : Level) (length : NonZeroU32)
  | send (length : NonZeroU32)
  /-- The peer is gone. -/
  | done
  | returned (error : LimitError)
  deriving DecidableEq, Repr

/-- The limits of a torrent and of its session, while there is one, and the tasks. -/
structure RateLimited where
  torrent : Limits
  session : Option Limits
  /-- The requests of the peers, in order. -/
  uploads : List NonZeroU32
  scheduler : UploadScheduler
  requesters : List ChunkRequester
  deriving DecidableEq, Repr

inductive RateEvent where
  | setUploadBps (level : Level) (bps : Option NonZeroU32)
  | setDownloadBps (level : Level) (bps : Option NonZeroU32)
  | sessionDropped
  | requestReceived (size : NonZeroU32)
  /-- The next step of the scheduler; `closed` when it finds the peer's channel closed. -/
  | schedule (closed : Bool)
  | peerConnected
  /-- The next step of a peer's requester, which may come to a chunk of `length` bytes or find the
  peer `dead`. -/
  | request (i length : ℕ) (dead : Bool)
  deriving DecidableEq, Repr

namespace RateLimited

def new (torrent : LimitsConfig) (session : LimitsConfig) : RateLimited :=
  ⟨Limits.new torrent, some (Limits.new session), [], .recv, []⟩

def setAt (s : RateLimited) (f : Limits → Limits) : Level → RateLimited
  | .torrent => { s with torrent := f s.torrent }
  | .session => { s with session := s.session.map f }

variable (untilNReady : UntilNReady)

/-- The limits a task comes to at a level; the session may be gone. -/
def limits (s : RateLimited) : Level → Option Limits
  | .torrent => some s.torrent
  | .session => s.session

/-- A step of `task_upload_scheduler`: the requests that are left, and where it is then. -/
def schedule (s : RateLimited) (closed : Bool) : Option (List NonZeroU32 × UploadScheduler) :=
  match s.scheduler with
  | .recv =>
    match s.uploads with
    | [] => none
    | size :: uploads => some (uploads, .acquire .torrent size)
  | .acquire level size =>
    match s.limits level with
    | none => some (s.uploads, .send size)
    | some limits =>
      if closed then some (s.uploads, .recv)
      else
        match limits.prepareForUpload untilNReady size with
        | .error e => some (s.uploads, .returned e)
        | .ok () => some (s.uploads, .wait level size)
  | .wait level size =>
    if closed then some (s.uploads, .recv)
    else
      match level with
      | .torrent => some (s.uploads, .acquire .session size)
      | .session => some (s.uploads, .send size)
  | .send _ => some (s.uploads, .recv)
  | .returned _ => none

/-- A step of `task_peer_chunk_requester`. -/
def request (s : RateLimited) (length : ℕ) (dead : Bool) : ChunkRequester → Option ChunkRequester
  | .nextChunk =>
    if dead then some .done
    else
      match nonZeroU32 length with
      | none => some .nextChunk
      | some length => some (.acquire .torrent length)
  | .acquire level length =>
    match s.limits level with
    | none => some (.send length)
    | some limits =>
      match limits.prepareForDownload untilNReady length with
      | .error e => some (.returned e)
      | .ok () =>
        match level with
        | .torrent => some (.acquire .session length)
        | .session => some (.send length)
  | .send _ => some (if dead then .done else .nextChunk)
  | .done => none
  | .returned _ => none

def step (s : RateLimited) : RateEvent → Option RateLimited
  | .setUploadBps level bps => some (s.setAt (·.setUploadBps bps) level)
  | .setDownloadBps level bps => some (s.setAt (·.setDownloadBps bps) level)
  | .sessionDropped => some { s with session := none }
  | .requestReceived size => some { s with uploads := s.uploads ++ [size] }
  | .schedule closed =>
    (s.schedule untilNReady closed).map fun (uploads, scheduler) =>
      { s with uploads := uploads, scheduler := scheduler }
  | .peerConnected => some { s with requesters := s.requesters ++ [.nextChunk] }
  | .request i length dead =>
    match s.requesters[i]? with
    | none => none
    | some r =>
      (s.request untilNReady length dead r).map fun r =>
        { s with requesters := s.requesters.set i r }

end RateLimited

end Rtbit
