import Rtbit.Lib.Decimal
import Rtbit.Spec.FileStream

/-! `h_torrent_stream_file` (`http_api/handlers/streaming.rs`): a file of a torrent over HTTP, whole
or a range of it, and the body that is read from its `FileStream` while the answer is sent. -/

namespace Rtbit

namespace HttpStream

open Lib Streaming

/-! The `Range` header. -/

/-- `HeaderValue::to_str`. -/
def toStr (header : List UInt8) : Option (List UInt8) :=
  if header.all fun b => b = 0x09 || (0x20 ≤ b && b < 0x7F) then some header else none

def stripPrefix (pre s : List UInt8) : Option (List UInt8) :=
  if pre <+: s then some (s.drop pre.length) else none

def splitOnce (c : UInt8) (s : List UInt8) : Option (List UInt8 × List UInt8) :=
  match s.dropWhile (· ≠ c) with
  | [] => none
  | _ :: after => some (s.takeWhile (· ≠ c), after)

/-- `str::parse::<u64>`: digits, with a `+` in front of them or none. -/
def parseU64 (s : List UInt8) : Option ℕ :=
  let digits := if s.head? = some 0x2B then s.tail else s
  if !digits.isEmpty && digits.all isDigit && ofDecimal digits < 2 ^ 64 then some (ofDecimal digits)
  else none

def saturatingAdd (a b : ℕ) : ℕ := min (a + b) (2 ^ 64 - 1)

/-- "bytes=" -/
def bytesUnit : List UInt8 := [0x62, 0x79, 0x74, 0x65, 0x73, 0x3D]

/-- Of the last byte, the header has the index and the pair the one behind it. -/
def parseRange (header : List UInt8) : Option (ℕ × Option ℕ) := do
  let v ← toStr header
  let v ← stripPrefix bytesUnit v
  let (start, stop) ← splitOnce 0x2D v
  let start ← parseU64 start
  if stop.isEmpty then return (start, none)
  else
    let stop ← parseU64 stop
    return (start, some (saturatingAdd stop 1))

/-! The body: `ReaderStream::with_capacity` over the stream, or over a `take` of it. -/

inductive BodyEnd where
  | eof
  | error
  deriving DecidableEq, Repr

structure Body where
  stream : Handle
  /-- What is left of the limit of `take`. -/
  limit : Option ℕ
  /-- The chunks so far. -/
  sent : List UInt8
  ended : Option BodyEnd

/-- The capacity of the `ReaderStream`; what is left of a buffer is filled before another is made. -/
def capacity : ℕ := 65536

section

variable {l : Lengths} (computeCurrentPiece : ℕ → ℕ → Option (Streams.CurrentPiece l))

/-- `poll_next` with room for `bufLen` bytes; `none` is a panic. -/
def Body.pollNext (b : Body) (bufLen : ℕ) (havePieces : Option (ValidPieceIndex l → Bool))
    (storage : Option Storage) : Option Body :=
  if b.ended.isSome then some b
  else if b.limit = some 0 then some { b with ended := some .eof }
  else
    let bufLen := (b.limit.map (min bufLen)).getD bufLen
    (b.stream.pollRead computeCurrentPiece bufLen havePieces storage).map fun (r, stream) =>
      match r with
      | .pending => { b with stream }
      | .err => { b with stream, ended := some .error }
      | .ok [] => { b with stream, ended := some .eof }
      | .ok (byte :: bytes) =>
        { b with
          stream
          limit := b.limit.map (· - (byte :: bytes).length)
          sent := b.sent ++ byte :: bytes }

inductive BodyEvent (l : Lengths) where
  | poll (bufLen : ℕ) (havePieces : Option (ValidPieceIndex l → Bool)) (storage : Option Storage)
  /-- `wake_streams_on_piece_completed` takes the waker. -/
  | wake
  /-- Another stream is opened, dropped, read or sought in. -/
  | other (streamId : ℕ) (st : Option StreamState)

def Body.step (b : Body) : BodyEvent l → Option Body
  | .poll bufLen havePieces storage =>
    if 0 < bufLen ∧ bufLen ≤ capacity then
      b.pollNext computeCurrentPiece bufLen havePieces storage
    else none
  | .wake =>
    (Streaming.step computeCurrentPiece b.stream .wake).map fun stream => { b with stream }
  | .other streamId st =>
    (Streaming.step computeCurrentPiece b.stream (.other streamId st)).map fun stream =>
      { b with stream }

end

/-! The answer. -/

inductive Status where
  | ok
  | partialContent
  deriving DecidableEq, Repr

structure Response where
  status : Status
  contentLength : List UInt8
  contentRange : Option (List UInt8)
  body : Body

inductive StreamError where
  /-- "bad range", with the status `RANGE_NOT_SATISFIABLE`. -/
  | badRange
  /-- "error seeking" -/
  | seeking
  deriving DecidableEq, Repr

/-- "bytes {start}-{end}/{len}" -/
def contentRange (start last len : ℕ) : List UInt8 :=
  [0x62, 0x79, 0x74, 0x65, 0x73, 0x20] ++ decimal start ++ [0x2D] ++ decimal last ++ [0x2F] ++
    decimal len

/-- `h_torrent_stream_file` from the stream that it has opened; `none` is a panic. -/
def hTorrentStreamFile (stream : Handle) (rangeHeader : Option (List UInt8)) :
    Option (Except StreamError Response) :=
  let len := stream.stream.fileLen
  match rangeHeader.bind parseRange with
  | some (start, stop) =>
    if start ≥ len || stop.any fun stop => stop ≤ start || stop > len then some (.error .badRange)
    else
      let stop := stop.getD len
      (stream.startSeek (.start start.toUInt64)).map fun (sought, stream) =>
        if sought then
          let toTake := stop - start
          .ok {
            status := .partialContent
            contentLength := decimal toTake
            contentRange := some (contentRange start (stop - 1) len)
            body := ⟨stream, some toTake, [], none⟩ }
        else .error .seeking
  | none =>
    some (.ok {
      status := .ok
      contentLength := decimal len
      contentRange := none
      body := ⟨stream, none, [], none⟩ })

end HttpStream

end Rtbit
