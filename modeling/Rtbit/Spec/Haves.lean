import Rtbit.Lib.Bits
import Rtbit.Lib.Broadcast
import Rtbit.Spec.Lengths

/-! One connection of a live torrent and what the writer of `manage_peer` announces on it: our
bitfield when it starts, and a `Have` for the pieces that complete later. The completions are the
steps of `write_to_disk` after a piece was checked. -/

namespace Rtbit

open Lib

namespace Haves

/-- The capacity of `have_broadcast_tx`. -/
def capacity : ℕ := 128

inductive Writer (l : Lengths) where
  /-- `have_broadcast_tx.subscribe()` is still to be called. -/
  | unsubscribed
  /-- Subscribed, up to `should_send_bitfield`. -/
  | subscribed
  /-- `should_send_bitfield` was true. -/
  | serializing
  | sendingBitfield (bitfield : Finset (ValidPieceIndex l))
  /-- In the loop, about to wait for the next request. -/
  | waiting
  | sendingHave (id : ValidPieceIndex l)
  deriving DecidableEq

structure Conn (l : Lengths) where
  havePieces : Finset (ValidPieceIndex l)
  haveBytes : ℕ
  /-- Completions between `mark_piece_hash_ok` and the update of `have_bytes`. -/
  marked : List (ValidPieceIndex l)
  /-- Completions between that and `transmit_haves`. -/
  counted : List (ValidPieceIndex l)
  /-- The pieces whose `transmit_haves` has run. -/
  sent : List (ValidPieceIndex l)
  /-- The place of the receiver of this connection. -/
  next : ℕ
  writer : Writer l
  /-- The entry of the peer is `Live`, with this bitfield. -/
  live : Bool
  bitfield : Bits
  /-- What was announced on this connection, by us and by the peer. -/
  announced : Finset (ValidPieceIndex l)
  peerAnnounced : Finset (ValidPieceIndex l)

inductive Event (l : Lengths) where
  | markPieceHashOk (id : ValidPieceIndex l)
  | addHaveBytes (i : ℕ)
  /-- `on_piece_completed`, and `transmit_haves` unless that has failed. -/
  | complete (i : ℕ) (ok : Bool)
  | subscribe
  /-- `set_peer_live`, or another change of the state of the peer. -/
  | setLive (live : Bool)
  | decideBitfield
  | serializeBitfield
  | written
  | recv
  | onBitfield (bitfield : Bits)
  | onHave (have_ : ℕ)

namespace Conn

variable {l : Lengths}

/-- A connection of a torrent that has the pieces `havePieces`, while pieces have completed. -/
def start (havePieces : Finset (ValidPieceIndex l)) : Conn l where
  havePieces := havePieces
  haveBytes := ∑ p ∈ havePieces, l.pieceLength p
  marked := []
  counted := []
  sent := []
  next := 0
  writer := .unsubscribed
  live := false
  bitfield := ⟨[]⟩
  announced := ∅
  peerAnnounced := ∅

def shouldSendBitfield (disableUpload : Bool) (s : Conn l) : Bool :=
  !disableUpload && 0 < s.haveBytes

def shouldTransmitHave (disableUpload : Bool) (s : Conn l) (id : ValidPieceIndex l) : Bool :=
  let have_ := if s.live then s.bitfield.bits[id.val]?.getD true else true
  !disableUpload && !have_

/-- The pieces that a bitfield announces. -/
def pieces (b : Bits) : Finset (ValidPieceIndex l) := Finset.univ.filter fun p => b.get p.val

/-- "If bitfield wasn't allocated yet, let's do it." -/
def allocated (s : Conn l) : Bits :=
  if s.bitfield.len = 0 then .zeros (l.pieceBitfieldBytes * 8) else s.bitfield

def onHave (s : Conn l) (have_ : ℕ) : Conn l :=
  if s.live then
    { s with
      bitfield := s.allocated.set have_ true
      peerAnnounced := s.peerAnnounced ∪ Finset.univ.filter fun p => p.val = have_ }
  else s

def recv (disableUpload : Bool) (s : Conn l) : Conn l :=
  match Broadcast.recv capacity s.sent s.next with
  | (.value id, next) =>
    if s.shouldTransmitHave disableUpload id then { s with next, writer := .sendingHave id }
    else { s with next }
  | (_, next) => { s with next }

def step (disableUpload : Bool) (s : Conn l) : Event l → Option (Conn l)
  | .markPieceHashOk id =>
    some { s with havePieces := insert id s.havePieces, marked := s.marked ++ [id] }
  | .addHaveBytes i =>
    (s.marked[i]?).map fun id : ValidPieceIndex l =>
      { s with
        haveBytes := s.haveBytes + l.pieceLength id
        marked := s.marked.eraseIdx i
        counted := s.counted ++ [id] }
  | .complete i ok =>
    (s.counted[i]?).map fun id : ValidPieceIndex l =>
      { s with
        counted := s.counted.eraseIdx i
        sent := if ok then s.sent ++ [id] else s.sent }
  | .subscribe =>
    if s.writer = .unsubscribed then
      some { s with writer := .subscribed, next := s.sent.length }
    else none
  | .setLive live =>
    -- a new `LivePeerState` has no bitfield
    if s.live && live then none else some { s with live, bitfield := ⟨[]⟩ }
  | .decideBitfield =>
    if s.writer = .subscribed then
      some { s with writer := if s.shouldSendBitfield disableUpload then .serializing else .waiting }
    else none
  | .serializeBitfield =>
    if s.writer = .serializing then some { s with writer := .sendingBitfield s.havePieces } else none
  | .written =>
    match s.writer with
    | .sendingBitfield b => some { s with writer := .waiting, announced := s.announced ∪ b }
    | .sendingHave id => some { s with writer := .waiting, announced := insert id s.announced }
    | _ => none
  | .recv => if s.writer = .waiting then some (s.recv disableUpload) else none
  | .onBitfield bitfield =>
    -- a bitfield of another size ends the connection
    if bitfield.len = l.pieceBitfieldBytes * 8 then
      if s.live then
        some { s with bitfield, peerAnnounced := s.peerAnnounced ∪ pieces bitfield }
      else some s
    else none
  | .onHave have_ => some (s.onHave have_)

end Conn

end Haves

end Rtbit
