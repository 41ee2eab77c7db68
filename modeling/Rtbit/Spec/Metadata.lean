import Rtbit.Lib.Blocks
import Rtbit.Spec.Lengths

/-! The two ends of the metadata exchange: `send_metadata_piece` of `peer_handler.rs`, which cuts
the info bytes into pieces, and `HandlerLocked` of `peer_info_reader`, which puts them together.
A result that has no value is a panic: an overflow of `u32` arithmetic, or a range that is not in
the buffer. -/

namespace Rtbit

open Lib

namespace Metadata

def u32Mul (a b : ℕ) : Option ℕ := if a * b < 2 ^ 32 then some (a * b) else none

def u32Add (a b : ℕ) : Option ℕ := if a + b < 2 ^ 32 then some (a + b) else none

/-- `Bytes::slice(begin..end)`. -/
def slice (bytes : List UInt8) (start stop : ℕ) : Option (List UInt8) :=
  if start ≤ stop ∧ stop ≤ bytes.length then some ((bytes.drop start).take (stop - start)) else none

structure UtMetadataData where
  piece : ℕ
  totalSize : ℕ
  data : List UInt8
  deriving DecidableEq, Repr

inductive SendError where
  /-- "peer requested for info metadata but we don't have it" -/
  | noMetadata
  /-- "piece out of bounds" -/
  | outOfBounds
  /-- The length does not fit into `u32`. -/
  | tooLong
  /-- "error sending UtMetadata: channel closed" -/
  | channelClosed
  deriving DecidableEq, Repr

/-- The `UtMetadata::Data` that `send_metadata_piece` puts into `tx`, or its error. -/
def sendMetadataPiece (infoBytes : List UInt8) (channelOpen : Bool) (pieceId : ℕ) :
    Option (Except SendError UtMetadataData) :=
  let metadataSize := infoBytes.length
  if metadataSize = 0 then some (.error .noMetadata)
  else
    let totalPieces := blockCount chunkSize metadataSize
    if pieceId > totalPieces then some (.error .outOfBounds)
    else
      (u32Mul pieceId chunkSize).bind fun offset =>
        (u32Add offset chunkSize).bind fun sum =>
          if 2 ^ 32 ≤ metadataSize then some (.error .tooLong)
          else
            (slice infoBytes offset (min sum metadataSize)).map fun data =>
              if channelOpen then .ok ⟨pieceId, metadataSize, data⟩ else .error .channelClosed

structure HandlerLocked where
  metadataSize : ℕ
  totalPieces : ℕ
  buffer : List UInt8
  receivedPieces : List Bool
  deriving DecidableEq, Repr

inductive RecordError where
  /-- "wrong index" -/
  | wrongIndex
  /-- "expected length of piece {piece} to be {size}, but got {len}" -/
  | wrongLength (piece size len : ℕ)
  /-- "already received piece {piece}" -/
  | alreadyReceived (piece : ℕ)
  /-- "info checksum invalid" -/
  | checksumInvalid
  deriving DecidableEq, Repr

/-- `librtbit_core::lengths::last_element_size`, of `total` units in elements of `chunk`. -/
def LastElementSize (f : ℕ → ℕ → ℕ) : Prop :=
  ∀ total chunk, 0 < total → 0 < chunk →
    f total chunk = if total % chunk = 0 then chunk else total % chunk

namespace HandlerLocked

/-- An error is "metadata size {metadata_size} is too big". -/
def new (metadataSize : ℕ) : Except ℕ HandlerLocked :=
  if metadataSize > 32 * 1024 * 1024 then .error metadataSize
  else
    let totalPieces := blockCount chunkSize metadataSize
    .ok {
      metadataSize
      totalPieces
      buffer := List.replicate metadataSize 0
      receivedPieces := List.replicate totalPieces false }

variable {H : Type} [DecidableEq H] (lastElementSize : ℕ → ℕ → ℕ) (sha1 : List UInt8 → H)

def pieceSize (s : HandlerLocked) (index : ℕ) : ℕ :=
  if index = s.totalPieces - 1 then lastElementSize s.metadataSize chunkSize else chunkSize

/-- `record_piece`: what it leaves, and its result. -/
def recordPiece (infoHash : H) (s : HandlerLocked) (d : UtMetadataData) :
    Option (HandlerLocked × Except RecordError Bool) :=
  if d.piece ≥ s.totalPieces then some (s, .error .wrongIndex)
  else
    (u32Mul d.piece chunkSize).bind fun offset =>
      let size := s.pieceSize lastElementSize d.piece
      if d.data.length ≠ size then some (s, .error (.wrongLength d.piece size d.data.length))
      else
        (s.receivedPieces[d.piece]?).bind fun received =>
          if received then some (s, .error (.alreadyReceived d.piece))
          else if offset + d.data.length > s.buffer.length then none
          else
            let s := { s with
              buffer := s.buffer.take offset ++ d.data ++ s.buffer.drop (offset + d.data.length)
              receivedPieces := s.receivedPieces.set d.piece true }
            if s.receivedPieces.all id then
              if sha1 s.buffer ≠ infoHash then some (s, .error .checksumInvalid)
              else some (s, .ok true)
            else some (s, .ok false)

end HandlerLocked

end Metadata

end Rtbit
