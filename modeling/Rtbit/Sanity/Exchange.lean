import Rtbit.Proofs.ServeChunk
import Rtbit.Sanity.DiskWrites
import Rtbit.Spec.Exchange

/-! The steps of an exchange taken apart: a request is accepted for a piece that is have, a
message that is sent carries the bytes of its chunk in the files of its node, and every other step
is one of a single node. -/

namespace Rtbit

open Lib

/-- The data of a `Piece` message is that part of the file list. -/
theorem ChunkOps.sent_bytes {l : Lengths} {fs : List FileInfo} {st : Storage} {f : PieceFormat}
    {c : ChunkInfo} {writeBuf b : List UInt8}
    (hsum : (fs.map FileInfo.len).sum = l.totalLength) (hc : c.Valid l)
    (hbuf : writeBuf.length = f.maxMsgLen) (h : (readChunkRequest f l fs st c writeBuf).2 = .ok b) :
    b.drop (f.preamble c).length = slice fs st (l.chunkAbsoluteOffset c) c.size := by
  have hroom := f.room c
  have hsize := hc.size_le
  have hend := chunk_end_le hc
  rw [readChunkRequest_eq hc hbuf] at h
  cases hread : (readChunkLoop st 0 fs (l.chunkAbsoluteOffset c)
      (writeBuf.drop (f.preamble c).length)).2 with
  | error e => simp [hread, Except.map] at h
  | ok r =>
    rw [hread] at h
    obtain rfl := Except.ok.inj h
    have hlen : c.size ≤ (((flatFrom st 0 fs).drop (l.chunkAbsoluteOffset c)).take
        (writeBuf.drop (f.preamble c).length).length).length := by
      simp only [List.length_take, List.length_drop, length_flatFrom]
      omega
    rw [List.drop_left, readChunkLoop_slice hread, List.take_append_of_le_length hlen,
      List.take_take, Nat.min_eq_left, slice, flat]
    rw [List.length_drop]
    omega

namespace Exchange

variable {N : Type} [DecidableEq N] {l : Lengths} {fs : List FileInfo} {B H : Type} [DecidableEq H]
  {ph : PieceHash H} {d : DoubleBufHelper B} {f : ChunkOps.PieceFormat} {s s' : Exchange N l}

/-- The step of a node that a step is. -/
inductive Does (s : Exchange N l) : ExchangeOp N l → N → DiskOp l → Prop
  | deliver {k m b} (i peer cut) : s.sent[k]? = some (m, b) →
      Does s (.deliver k i peer cut) i (.recv peer m (b.take cut, b.drop cut))
  | receive (i peer m data) : Does s (.receive i peer m data) i (.recv peer m data)
  | node (i) {op} : op.isRecv = false → Does s (.node i op) i op

inductive Steps (fs : List FileInfo) (ph : PieceHash H) (d : DoubleBufHelper B)
    (f : ChunkOps.PieceFormat) (s : Exchange N l) : ExchangeOp N l → Exchange N l → Prop
  | accepts {i m} {p : ValidPieceIndex l} {c} : l.chunkInfoFromReceivedData p m.start m.len = some c →
      (s.nodes i).IsHave p →
      Steps fs ph d f s (.onDownloadRequest i m) { s with uploads := s.uploads ++ [(i, c)] }
  | fails (k writeBuf) :
      Steps fs ph d f s (.readChunkRequest k writeBuf) { s with uploads := s.uploads.eraseIdx k }
  | sends {k writeBuf i c b} : s.uploads[k]? = some (i, c) → writeBuf.length = f.maxMsgLen →
      (ChunkOps.readChunkRequest f l fs (s.nodes i).storage c writeBuf).2 = .ok b →
      Steps fs ph d f s (.readChunkRequest k writeBuf)
        { s with
          uploads := s.uploads.eraseIdx k
          sent := s.sent ++ [(⟨c.pieceIndex, c.offset, c.size⟩, b.drop (f.preamble c).length)] }
  | node {op i dop n} : Does s op i dop → (s.nodes i).step fs ph d dop = some n →
      Steps fs ph d f s op (s.setNode i n)

theorem step_cases {op : ExchangeOp N l} (h : step fs ph d f s op = some s') :
    Steps fs ph d f s op s' := by
  cases op with
  | onDownloadRequest i m =>
    obtain ⟨p, -, h⟩ := Option.bind_eq_some_iff.1 h
    obtain ⟨c, hc, h⟩ := Option.bind_eq_some_iff.1 h
    split_ifs at h with hp
    obtain rfl := Option.some.inj h
    exact .accepts hc hp
  | readChunkRequest k writeBuf =>
    simp only [step, readChunkRequest, Option.ite_none_right_eq_some, Option.map_eq_some_iff] at h
    obtain ⟨hbuf, ⟨i, c⟩, hk, h⟩ := h
    simp only at h
    split at h
    · subst h
      exact .fails k writeBuf
    next b hb =>
      subst h
      exact .sends hk hbuf hb
  | deliver k i peer cut =>
    obtain ⟨⟨m, b⟩, hk, h⟩ := Option.bind_eq_some_iff.1 h
    obtain ⟨n, hn, rfl⟩ := Option.map_eq_some_iff.1 h
    exact .node (.deliver i peer cut hk) hn
  | receive i peer m data =>
    obtain ⟨n, hn, rfl⟩ := Option.map_eq_some_iff.1 h
    exact .node (.receive i peer m data) hn
  | node i op =>
    simp only [step, Option.ite_none_left_eq_some, Option.map_eq_some_iff, Bool.not_eq_true] at h
    obtain ⟨hop, n, hn, rfl⟩ := h
    exact .node (.node i hop) hn

/-- What one node keeps, all nodes keep. -/
theorem setNode_nodes {P : DiskWrites l → Prop} (h : ∀ j, P (s.nodes j)) {i : N} {n : DiskWrites l}
    (hn : P n) (j : N) : P ((s.setNode i n).nodes j) := by
  by_cases hj : j = i
  · subst hj
    simpa [setNode] using hn
  · simpa [setNode, hj] using h j

/-- A message with the bytes of a chunk of the torrent. -/
def IsGenuine (l : Lengths) (content : List UInt8) (x : PieceMsg × List UInt8) : Prop :=
  ∃ c : ChunkInfo, c.Valid l ∧ x.1 = ⟨c.pieceIndex, c.offset, c.size⟩ ∧
    x.2 = (content.drop (l.chunkAbsoluteOffset c)).take c.size

/-- The requests that wait are for pieces that their node has. -/
def UploadsHave (s : Exchange N l) : Prop :=
  ∀ x ∈ s.uploads, ∃ hc : x.2.Valid l, (s.nodes x.1).IsHave ⟨x.2.pieceIndex, hc.piece_lt⟩

/-- Requests keep being for pieces that are have, as a node loses none. -/
theorem UploadsHave.step (hl : l.Tiled) {op : ExchangeOp N l} (h : s.UploadsHave)
    (hmono : ∀ (j : N) (p : ValidPieceIndex l), (s.nodes j).IsHave p → (s'.nodes j).IsHave p)
    (hs : Steps fs ph d f s op s') : s'.UploadsHave := by
  intro x hx
  have hold (hx : x ∈ s.uploads) :
      ∃ hc : x.2.Valid l, (s'.nodes x.1).IsHave ⟨x.2.pieceIndex, hc.piece_lt⟩ := by
    obtain ⟨hc, hp⟩ := h x hx
    exact ⟨hc, hmono _ _ hp⟩
  cases hs with
  | @accepts i m p c hc hp =>
    rcases List.mem_append.1 hx with hx | hx
    · exact hold hx
    · obtain rfl := List.mem_singleton.1 hx
      have hmem := ((l.received_iff p p.isLt _ _ c).1 hc).1
      have hpiece := l.pieceIndex_iter p p.isLt c hmem
      refine ⟨hl.valid p p.isLt c hmem, ?_⟩
      rwa [show (⟨c.pieceIndex, _⟩ : ValidPieceIndex l) = p from Fin.ext hpiece]
  | fails k writeBuf => exact hold (List.mem_of_mem_eraseIdx hx)
  | sends hk hbuf hb => exact hold (List.mem_of_mem_eraseIdx hx)
  | node hop hn => exact hold hx

/-- A node that sends from genuine files sends genuine messages. -/
theorem sends_genuine (hsum : (fs.map FileInfo.len).sum = l.totalLength) {content : List UInt8}
    {n : DiskWrites l} {c : ChunkInfo} (hc : c.Valid l) {writeBuf b : List UInt8}
    (hbytes : ∀ k, c.pieceIndex * l.defaultPieceLength ≤ k →
      k < c.pieceIndex * l.defaultPieceLength + l.pieceLength c.pieceIndex →
      (flat fs n.storage)[k]? = content[k]?)
    (hbuf : writeBuf.length = f.maxMsgLen)
    (h : (ChunkOps.readChunkRequest f l fs n.storage c writeBuf).2 = .ok b) :
    IsGenuine l content
      (⟨c.pieceIndex, c.offset, c.size⟩, b.drop (f.preamble c).length) := by
  refine ⟨c, hc, rfl, ?_⟩
  rw [ChunkOps.sent_bytes hsum hc hbuf h]
  refine ChunkOps.slice_eq_iff.2 fun k h1 h2 => ?_
  obtain ⟨h3, h4⟩ := l.chunk_in_piece hc h1 h2
  exact hbytes k h3 h4

end Exchange

end Rtbit
