import Rtbit.Lib.Ring

/-! `ReadBuf` of `read_buf.rs`: the ring buffer that bytes of a socket are read into, and the
handshake and the messages parsed from it. `Handshake::deserialize` and `Message::deserialize`
come from the crate `librtbit-peer-protocol`, which is not part of this repository: they are
`MessageFormat` and `HandshakeFormat`, with the facts about them that the code relies on. -/

namespace Rtbit

open Lib

/-- `BUFLEN`. -/
def bufLen : ℕ := 0x8000

/-- `u16::try_from(n).unwrap_or(u16::MAX)`. -/
def saturateU16 (n : ℕ) : ℕ := min n 65535

/-- The array is a function of the index; only the indices below `bufLen` are used. -/
structure ReadBuf where
  buf : ℕ → UInt8
  start : ℕ
  len : ℕ

/-- The errors of `read_handshake` and `read_message`. `ε` are those of the socket (a timeout is
one of them), `η` and `δ` those of the two parsers. -/
inductive ReadError (ε η δ : Type) where
  | readHandshake (e : ε)
  | peerDisconnectedReadingHandshake
  | deserializeHandshake (e : η)
  | bugReadBufMakeContiguous (start len : ℕ)
  | readBufFull (needAdditionalBytes : ℕ)
  /-- An error of the socket while reading a message is reported as `Error::Write`. -/
  | write (e : ε)
  | peerDisconnected
  | deserialize (e : δ)
  deriving DecidableEq, Repr

namespace ReadBuf

def new : ReadBuf := ⟨fun _ => 0, 0, 0⟩

/-- `as_slice_ranges`: start and end of the two ranges. -/
def asSliceRanges (b : ReadBuf) : (ℕ × ℕ) × (ℕ × ℕ) :=
  let len := min b.len bufLen
  let start := min b.start bufLen
  let firstLen := min len (bufLen - start)
  ((start, start + firstLen), (0, len - firstLen))

/-- `as_slices!`. -/
def asSlices (b : ReadBuf) : List UInt8 × List UInt8 :=
  let (first, second) := b.asSliceRanges
  (cells b.buf first.1 first.2, cells b.buf second.1 second.2)

def advance (b : ReadBuf) (n : ℕ) : ReadBuf :=
  { b with len := b.len - n, start := (b.start + n) % bufLen }

def isContiguous (b : ReadBuf) : Bool := b.start + b.len == (b.start + b.len) % bufLen

def isFull (b : ReadBuf) : Bool := b.len == bufLen

/-- `None` is `Error::BugReadBufMakeContiguous`. -/
def makeContiguous (b : ReadBuf) : Option ReadBuf :=
  if b.isContiguous then none
  else
    let first := b.asSlices.1
    let second := b.asSlices.2
    some ⟨put (put (fun _ => 0) 0 first) first.length second, 0, b.len⟩

/-- `unfilled_ioslices`: start and end of the two parts of the array to read into. -/
def unfilledIoslices (b : ReadBuf) : (ℕ × ℕ) × (ℕ × ℕ) :=
  let writeStart := (b.start + b.len) % bufLen
  let availableLen := bufLen - b.len
  let firstLen := min (bufLen - writeStart) availableLen
  let secondLen := availableLen - firstLen
  -- `split_at_mut(write_start)`
  let firstLen := min firstLen (bufLen - writeStart)
  let secondLen := min secondLen writeStart
  ((writeStart, writeStart + firstLen), (0, secondLen))

/-- A read of the socket puts `data` into the two parts, front to back. -/
def fill (b : ReadBuf) (data : List UInt8) : ReadBuf :=
  let (first, second) := b.unfilledIoslices
  let n := first.2 - first.1
  { b with
    buf := put (put b.buf first.1 (data.take n)) second.1 (data.drop n)
    len := b.len + data.length }

end ReadBuf

/-! The socket. -/

/-- How the bytes of the peer end. -/
inductive ConnEnd (ε : Type) where
  | eof
  | failed (e : ε)
  deriving DecidableEq, Repr

/-- The bytes that are still to come, and how the network splits them: `sizes k` is the size of
the `k`th read from now on, as far as the buffer and the bytes allow it. -/
structure Conn (ε : Type) where
  rest : List UInt8
  sizes : ℕ → ℕ
  atEnd : ConnEnd ε

namespace Conn

variable {ε : Type}

/-- The number of bytes of the next read into a buffer of `available` bytes. -/
def nextSize (c : Conn ε) (available : ℕ) : ℕ :=
  min (max 1 (c.sizes 0)) (min available c.rest.length)

/-- `read`: the bytes read, none at the end. -/
def read (c : Conn ε) (available : ℕ) : Except ε (List UInt8 × Conn ε) :=
  match c.rest, c.atEnd with
  | [], .failed e => .error e
  | _, _ =>
    let n := c.nextSize available
    .ok (c.rest.take n, { c with rest := c.rest.drop n, sizes := fun k => c.sizes (k + 1) })

end Conn

/-! The parsers. -/

inductive MessageDeserializeError (δ : Type) where
  | notEnoughData (needAdditionalBytes : ℕ)
  | needContiguous
  | other (e : δ)
  deriving DecidableEq, Repr

/-- `Message::deserialize` of the bytes in two slices: the message and its size. -/
structure MessageFormat (M δ : Type) where
  deserialize : List UInt8 → List UInt8 → Except (MessageDeserializeError δ) (M × ℕ)

namespace MessageFormat

variable {M δ : Type} (m : MessageFormat M δ)

/-- The result is no longer "not enough data". -/
def Decided (bytes : List UInt8) : Prop :=
  ∀ n, m.deserialize bytes [] ≠ .error (.notEnoughData n)

/-- What `read_message` relies on. -/
structure Lawful : Prop where
  /-- The result depends on the concatenation only, unless the slices have to be joined. -/
  split : ∀ first second, m.deserialize first second = m.deserialize (first ++ second) [] ∨
    second ≠ [] ∧ m.deserialize first second = .error .needContiguous
  contiguous : ∀ bytes, m.deserialize bytes [] ≠ .error .needContiguous
  ok_append : ∀ bytes more r, m.deserialize bytes [] = .ok r →
    m.deserialize (bytes ++ more) [] = .ok r
  other_append : ∀ bytes more e, m.deserialize bytes [] = .error (.other e) →
    m.deserialize (bytes ++ more) [] = .error (.other e)
  size_le : ∀ bytes msg size, m.deserialize bytes [] = .ok (msg, size) → size ≤ bytes.length
  need_pos : ∀ bytes n, m.deserialize bytes [] = .error (.notEnoughData n) → 1 ≤ n
  /-- No more is asked for than is missing. -/
  need_le : ∀ bytes more n, m.deserialize bytes [] = .error (.notEnoughData n) →
    m.Decided (bytes ++ more) → n ≤ more.length

/-- When fewer bytes than asked for have come, the rest of them is asked for. -/
def Exact : Prop :=
  ∀ bytes more n, m.deserialize bytes [] = .error (.notEnoughData n) → more.length < n →
    m.deserialize (bytes ++ more) [] = .error (.notEnoughData (n - more.length))

end MessageFormat

namespace ReadBuf

variable {ε η δ M : Type}

/-- `while need_additional_bytes > 0`. Each round reads at least one byte, so
`needAdditionalBytes` rounds are enough; `none` if they are not. -/
def readMore : ℕ → ℕ → ReadBuf → Conn ε → Option (Except (ReadError ε η δ) (ReadBuf × Conn ε))
  | 0, need, b, c => if need = 0 then some (.ok (b, c)) else none
  | rounds + 1, need, b, c =>
    if need = 0 then some (.ok (b, c))
    else if b.isFull then some (.error (.readBufFull (saturateU16 need)))
    else
      match c.read (bufLen - b.len) with
      | .error e => some (.error (.write e))
      | .ok (data, c) =>
        if data.length = 0 then some (.error .peerDisconnected)
        else readMore rounds (need - data.length) (b.fill data) c

/-- The loop of `read_message`. -/
def readMessageLoop (m : MessageFormat M δ) :
    ℕ → ReadBuf → Conn ε → Option (Except (ReadError ε η δ) (M × ReadBuf × Conn ε))
  | 0, _, _ => none
  | rounds + 1, b, c =>
    match m.deserialize b.asSlices.1 b.asSlices.2 with
    | .ok (msg, size) => some (.ok (msg, b.advance size, c))
    | .error (.notEnoughData need) =>
      match readMore need need b c with
      | none => none
      | some (.error e) => some (.error e)
      | some (.ok (b, c)) => readMessageLoop m rounds b c
    | .error .needContiguous =>
      match b.makeContiguous with
      | none => some (.error (.bugReadBufMakeContiguous (saturateU16 b.start) (saturateU16 b.len)))
      | some b => readMessageLoop m rounds b c
    | .error (.other e) => some (.error (.deserialize e))

/-- `read_message`. A round reads at least one byte or joins the slices, which is not needed
twice in a row. -/
def readMessage (m : MessageFormat M δ) (b : ReadBuf) (c : Conn ε) :
    Option (Except (ReadError ε η δ) (M × ReadBuf × Conn ε)) :=
  readMessageLoop m (2 * c.rest.length + 2) b c

/-- The results of up to `k` calls of `read_message`, the last of which may be an error. -/
def readMessages (m : MessageFormat M δ) :
    ℕ → ReadBuf → Conn ε → Option (List (Except (ReadError ε η δ) M))
  | 0, _, _ => some []
  | k + 1, b, c =>
    match readMessage m b c with
    | none => none
    | some (.error e) => some [.error e]
    | some (.ok (msg, b, c)) => (readMessages m k b c).map (.ok msg :: ·)

end ReadBuf

end Rtbit
