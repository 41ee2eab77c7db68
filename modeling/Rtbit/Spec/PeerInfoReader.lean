import Rtbit.Spec.Metadata

/-! `Handler` of `peer_info_reader`: the calls that the messages of the peer make, one after the
other. A call that has no value is a panic. -/

namespace Rtbit

namespace Metadata

/-- What the reader takes from an `ExtendedHandshake`. -/
structure ExtendedHandshake where
  metadataSize : Option ℕ
  utMetadata : Option ℕ
  deriving DecidableEq, Repr

inductive ReaderMessage where
  | data (utdata : UtMetadataData)
  | other
  deriving DecidableEq, Repr

inductive ReaderRequest where
  | unchoke
  | interested
  | request (piece : ℕ)
  deriving DecidableEq, Repr

inductive HandlerError where
  /-- "peer does not have metadata_size" -/
  | noMetadataSize
  /-- "peer does not support ut_metadata" -/
  | noUtMetadata
  | writerClosed
  /-- "metadata size {} is too big" -/
  | tooBig (metadataSize : ℕ)
  /-- The piece index does not fit into `u32`. -/
  | tooLong
  | record (e : RecordError)
  /-- "oneshot is consumed" -/
  | oneshotConsumed
  /-- "torrent info deserialized, but consumer closed" -/
  | consumerClosed
  deriving DecidableEq, Repr

/-- What goes through the oneshot: the parsed info with its bytes, or the error of the parser. -/
abbrev ReadResult (E I : Type) := Except E (I × List UInt8)

structure Handler (E I : Type) where
  /-- What `writer_tx` has taken. -/
  written : List ReaderRequest
  locked : Option HandlerLocked
  /-- The sender is still in `result_tx`. -/
  resultTx : Bool
  /-- What `send` of the oneshot has been called with. -/
  sent : List (ReadResult E I)

namespace Handler

variable {E I H : Type} [DecidableEq H]

/-- As `read_metainfo_from_peer` makes it. -/
def new : Handler E I := ⟨[], none, true, []⟩

/-- The loop over the pieces; `writerOpen k` tells whether the `k`-th `send` of the call finds the
channel open. -/
def requestPieces (writerOpen : ℕ → Bool) (s : Handler E I) :
    List ℕ → Handler E I × Except HandlerError Unit
  | [] => (s, .ok ())
  | i :: rest =>
    if i ≥ 2 ^ 32 then (s, .error .tooLong)
    else if writerOpen (i + 2) then
      requestPieces writerOpen { s with written := s.written ++ [.request i] } rest
    else (s, .error .writerClosed)

def onExtendedHandshake (writerOpen : ℕ → Bool) (s : Handler E I) (h : ExtendedHandshake) :
    Handler E I × Except HandlerError Unit :=
  match h.metadataSize with
  | none => (s, .error .noMetadataSize)
  | some metadataSize =>
    if h.utMetadata.isNone then (s, .error .noUtMetadata)
    else if !writerOpen 0 then (s, .error .writerClosed)
    else
      let s := { s with written := s.written ++ [.unchoke] }
      if !writerOpen 1 then (s, .error .writerClosed)
      else
        let s := { s with written := s.written ++ [.interested] }
        match HandlerLocked.new metadataSize with
        | .error size => (s, .error (.tooBig size))
        | .ok inner =>
          let totalPieces := inner.totalPieces
          requestPieces writerOpen { s with locked := some inner } (List.range totalPieces)

variable (lastElementSize : ℕ → ℕ → ℕ) (sha1 : List UInt8 → H) (infoHash : H)
  (parse : List UInt8 → Except E I)

def onReceivedMessage (consumerOpen : Bool) (s : Handler E I) :
    ReaderMessage → Option (Handler E I × Except HandlerError Unit)
  | .other => some (s, .ok ())
  | .data utdata =>
    -- the `unwrap`
    s.locked.bind fun locked =>
      (locked.recordPiece lastElementSize sha1 infoHash utdata).map fun (locked, pieceReady) =>
        match pieceReady with
        | .error e => ({ s with locked := some locked }, .error (.record e))
        | .ok false => ({ s with locked := some locked }, .ok ())
        | .ok true =>
          let info := (parse locked.buffer).map (·, locked.buffer)
          if s.resultTx then
            ({ s with locked := none, resultTx := false, sent := s.sent ++ [info] },
              if consumerOpen then .ok () else .error .consumerClosed)
          else ({ s with locked := none }, .error .oneshotConsumed)

end Handler

/-- A message of the peer, with what the call finds of the two channels. -/
inductive ReaderCall where
  | extendedHandshake (h : ExtendedHandshake) (writerOpen : ℕ → Bool)
  | message (m : ReaderMessage) (consumerOpen : Bool)

section

variable {E I H : Type} [DecidableEq H] (lastElementSize : ℕ → ℕ → ℕ) (sha1 : List UInt8 → H)
  (infoHash : H) (parse : List UInt8 → Except E I)

def ReaderCall.call (s : Handler E I) : ReaderCall → Option (Handler E I × Except HandlerError Unit)
  | .extendedHandshake h writerOpen => some (s.onExtendedHandshake writerOpen h)
  | .message m consumerOpen =>
    s.onReceivedMessage lastElementSize sha1 infoHash parse consumerOpen m

def readerStep (s : Handler E I) (c : ReaderCall) : Option (Handler E I) :=
  (c.call lastElementSize sha1 infoHash parse s).map Prod.fst

end

end Metadata

end Rtbit
