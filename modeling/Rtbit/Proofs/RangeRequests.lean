import Rtbit.Proofs.FileStreamReads
import Rtbit.Spec.HttpStream

/-! A file over HTTP. However the reads of the body fall and whatever pieces come in between, what
has been sent is the beginning of the range that was asked for, and the body ends by itself only
when as many bytes have been sent as the answer has announced. -/

namespace Rtbit

namespace HttpStream

open Lib Streaming

variable {l : Lengths} {computeCurrentPiece : ℕ → ℕ → Option (Streams.CurrentPiece l)} {b b' : Body}
  {fileId : ℕ} {fi : FileInfo} {file : List UInt8} {start stop : ℕ}

/-! The header. -/

theorem digit_bounds {c : UInt8} (h : isDigit c = true) : 0x30 ≤ c.toNat ∧ c.toNat ≤ 0x39 := by
  rw [isDigit, Bool.and_eq_true, decide_eq_true_eq, decide_eq_true_eq, UInt8.le_iff_toNat_le,
    UInt8.le_iff_toNat_le] at h
  exact h

theorem parseU64_decimal {n : ℕ} (h : n < 2 ^ 64) : parseU64 (decimal n) = some n := by
  have hplus : (decimal n).head? ≠ some 0x2B := by
    intro hhead
    have hdigit := digit_bounds (isDigit_of_mem_decimal (List.mem_of_head? hhead))
    exact absurd hdigit.1 (by decide)
  rw [parseU64, if_neg hplus, ofDecimal_decimal]
  have hdigits : (decimal n).all isDigit = true :=
    List.all_eq_true.2 fun c hc => isDigit_of_mem_decimal hc
  rw [hdigits, List.isEmpty_eq_false_iff.2 (decimal_ne_nil n), decide_eq_true h]
  rfl

/-- The text in front of the first separator. -/
theorem splitOnce_append {c : UInt8} {s t : List UInt8} (h : ∀ b ∈ s, b ≠ c) :
    splitOnce c (s ++ c :: t) = some (s, t) := by
  have hs : ∀ b ∈ s, decide (b ≠ c) = true := fun b hb => decide_eq_true (h b hb)
  have hc : ¬decide (c ≠ c) = true := by simp
  rw [splitOnce, List.dropWhile_append_of_pos hs, List.takeWhile_append_of_pos hs,
    List.dropWhile_cons, if_neg hc, List.takeWhile_cons]
  simp

theorem stripPrefix_append (pre s : List UInt8) : stripPrefix pre (pre ++ s) = some s := by
  rw [stripPrefix, if_pos (List.prefix_append pre s), List.drop_left]

/-- A `Range` header as a client writes it. -/
def rangeText (first : ℕ) (last : Option ℕ) : List UInt8 :=
  bytesUnit ++ (decimal first ++ 0x2D :: (last.map decimal).getD [])

theorem toStr_rangeText (first : ℕ) (last : Option ℕ) :
    toStr (rangeText first last) = some (rangeText first last) := by
  have hdecimal (n : ℕ) : ∀ c ∈ decimal n, 0x20 ≤ c.toNat ∧ c.toNat < 0x7F := by
    intro c hc
    have hdigit := digit_bounds (isDigit_of_mem_decimal hc)
    omega
  have hall : ∀ c ∈ rangeText first last, 0x20 ≤ c.toNat ∧ c.toNat < 0x7F := by
    intro c hc
    rw [rangeText, List.mem_append, List.mem_append, List.mem_cons] at hc
    rcases hc with hc | hc | rfl | hc
    · have hunit : ∀ c ∈ bytesUnit, 0x20 ≤ c.toNat ∧ c.toNat < 0x7F := by simp [bytesUnit]
      exact hunit c hc
    · exact hdecimal first c hc
    · decide
    · cases last with
      | none => cases hc
      | some n => exact hdecimal n c hc
  refine if_pos (List.all_eq_true.2 fun c hc => ?_)
  obtain ⟨hlow, hhigh⟩ := hall c hc
  simp only [Bool.or_eq_true, Bool.and_eq_true, decide_eq_true_eq, UInt8.le_iff_toNat_le,
    UInt8.lt_iff_toNat_lt]
  exact Or.inr ⟨hlow, hhigh⟩

theorem parseRange_rangeText {first : ℕ} {last : Option ℕ} (hfirst : first < 2 ^ 64)
    (hlast : ∀ n ∈ last, n < 2 ^ 64) :
    parseRange (rangeText first last) = some (first, last.map (saturatingAdd · 1)) := by
  have hdash : ∀ c ∈ decimal first, c ≠ 0x2D := by
    rintro c hc rfl
    exact absurd (digit_bounds (isDigit_of_mem_decimal hc)).1 (by decide)
  rw [parseRange, toStr_rangeText]
  simp only [rangeText, Option.bind_eq_bind, Option.bind_some, stripPrefix_append,
    splitOnce_append hdash, parseU64_decimal hfirst]
  cases last with
  | none => rfl
  | some n =>
    have hne : (decimal n).isEmpty = false := List.isEmpty_eq_false_iff.2 (decimal_ne_nil n)
    simp [hne, parseU64_decimal (hlast n rfl)]

/-! The body. -/

/-- What the storage has of the pieces that are have is what the file is. -/
def Genuine (l : Lengths) (fileId : ℕ) (fi : FileInfo) (file : List UInt8) : BodyEvent l → Prop
  | .poll _ (some havePieces) (some storage) => ∀ p : ValidPieceIndex l, havePieces p = true →
    ∀ k < fi.len, p * l.defaultPieceLength ≤ fi.offsetInTorrent + k →
      fi.offsetInTorrent + k < p * l.defaultPieceLength + l.pieceLength p →
      (storage.contents fileId)[k]? = file[k]?
  | _ => True

theorem bytes_of_file {position bufLen : ℕ} {havePieces : Option (ValidPieceIndex l → Bool)}
    {storage : Option Storage} {bytes : List UInt8}
    (hgenuine : Genuine l fileId fi file (.poll bufLen havePieces storage))
    {n : ℕ} (h : ReadsFrom l fileId fi position n havePieces storage bytes) :
    bytes = (file.drop position).take bytes.length := by
  rcases List.eq_nil_or_concat' bytes with rfl | hne
  · simp
  have hne : bytes ≠ [] := by
    obtain ⟨init, last, rfl⟩ := hne
    simp
  obtain ⟨st, haves, rfl, rfl, hslice, p, hp, hstart, hend⟩ := h.piece hne
  have hle := h.end_le
  apply List.ext_getElem?
  intro k
  conv_lhs => rw [hslice]
  rw [List.getElem?_take, List.getElem?_take]
  split_ifs with hk
  · rw [List.getElem?_drop, List.getElem?_drop]
    exact hgenuine p hp (position + k) (by omega) (by omega) (by omega)
  · rfl

/-- The body has sent the beginning of the range, and its limit is what is left of it. -/
structure Body.Sends (b : Body) (fileId : ℕ) (fi : FileInfo) (file : List UInt8)
    (start stop : ℕ) : Prop where
  stream : b.stream.Wf fileId fi
  position : b.stream.stream.position = start + b.sent.length
  sent : b.sent = (file.drop start).take b.sent.length
  le_stop : start + b.sent.length ≤ stop
  stop_le : stop ≤ fi.len
  limit : b.limit = some (stop - (start + b.sent.length)) ∨ b.limit = none ∧ stop = fi.len
  ended : b.ended = some .eof → start + b.sent.length = stop

/-- One more chunk. -/
theorem Body.Sends.chunk (h : b.Sends fileId fi file start stop) {stream : Handle}
    {bytes : List UInt8} (hw : stream.Wf fileId fi)
    (hpos : stream.stream.position = b.stream.stream.position + bytes.length)
    (hbytes : bytes = (file.drop b.stream.stream.position).take bytes.length)
    (hend : b.stream.stream.position + bytes.length ≤ fi.len)
    (hlimit : ∀ n ∈ b.limit, bytes.length ≤ n) (hended : b.ended ≠ some .eof) :
    Body.Sends
      { b with
        stream
        limit := b.limit.map (· - bytes.length)
        sent := b.sent ++ bytes } fileId fi file start stop := by
  have hposition := h.position
  have hlength : (b.sent ++ bytes).length = b.sent.length + bytes.length := List.length_append
  constructor
  case stream => exact hw
  case position =>
    change stream.stream.position = start + (b.sent ++ bytes).length
    omega
  case sent =>
    change b.sent ++ bytes = (file.drop start).take (b.sent ++ bytes).length
    rw [hlength, List.take_add, ← h.sent, List.drop_drop, ← hposition, ← hbytes]
  case le_stop =>
    change start + (b.sent ++ bytes).length ≤ stop
    have hle := h.le_stop
    rcases h.limit with hl | ⟨-, hstop⟩
    · have hmax := hlimit _ hl
      omega
    · omega
  case stop_le => exact h.stop_le
  case limit =>
    change b.limit.map (· - bytes.length) = some (stop - (start + (b.sent ++ bytes).length)) ∨ _
    refine h.limit.imp (fun hl => ?_) fun hl => ⟨by rw [hl.1]; rfl, hl.2⟩
    rw [hl, hlength, Option.map_some]
    congr 1
    omega
  case ended => exact fun he => absurd he hended

/-- Another state of the stream at the same position. -/
theorem Body.Sends.moved (h : b.Sends fileId fi file start stop) {stream : Handle}
    (hw : stream.Wf fileId fi) (hpos : stream.stream.position = b.stream.stream.position) :
    Body.Sends { b with stream } fileId fi file start stop :=
  ⟨hw, hpos.trans h.position, h.sent, h.le_stop, h.stop_le, h.limit, h.ended⟩

theorem Body.Sends.pollNext (hcompute : ComputesPiece l computeCurrentPiece)
    (hlen : fi.len < 2 ^ 64) (h : b.Sends fileId fi file start stop) {bufLen : ℕ}
    (hbuf : 0 < bufLen) {havePieces : Option (ValidPieceIndex l → Bool)} {storage : Option Storage}
    (hgenuine : Genuine l fileId fi file (.poll bufLen havePieces storage)) :
    ∃ b', b.pollNext computeCurrentPiece bufLen havePieces storage = some b' ∧
      b'.Sends fileId fi file start stop := by
  rw [Body.pollNext]
  by_cases hended : b.ended.isSome = true
  · exact ⟨b, if_pos hended, h⟩
  rw [if_neg hended]
  by_cases hzero : b.limit = some 0
  · refine ⟨_, if_pos hzero, h.stream, h.position, h.sent, h.le_stop, h.stop_le, h.limit, ?_⟩
    intro _
    change start + b.sent.length = stop
    have hle := h.le_stop
    rcases h.limit with hl | ⟨hl, -⟩
    · rw [hl, Option.some.injEq] at hzero
      omega
    · rw [hl] at hzero
      cases hzero
  rw [if_neg hzero]
  have hroom : 0 < (b.limit.map (min bufLen)).getD bufLen := by
    cases hl : b.limit with
    | none => exact hbuf
    | some n =>
      rw [hl, Option.some.injEq] at hzero
      exact lt_min hbuf (Nat.pos_of_ne_zero hzero)
  obtain ⟨r, stream, hread, hw, hpolled⟩ := pollRead_spec hcompute h.stream hlen
    ((b.limit.map (min bufLen)).getD bufLen) havePieces storage
  dsimp only
  rw [hread, Option.map_some]
  rcases r with _ | _ | bytes
  · exact ⟨_, rfl, h.moved hw (by rw [hpolled])⟩
  · have hmoved := h.moved hw (by rw [hpolled])
    exact ⟨_, rfl, hmoved.stream, hmoved.position, hmoved.sent, hmoved.le_stop, hmoved.stop_le,
      hmoved.limit, nofun⟩
  obtain ⟨hpos, hreads⟩ := hpolled
  rcases bytes with _ | ⟨byte, bytes⟩
  · have hmoved := h.moved hw hpos
    refine ⟨_, rfl, hmoved.stream, hmoved.position, hmoved.sent, hmoved.le_stop, hmoved.stop_le,
      hmoved.limit, fun _ => ?_⟩
    -- nothing is read at the end of the file only
    have hend := (hreads.empty rfl).resolve_right hroom.ne'
    have hposition := h.position
    have hle := h.le_stop
    have hstop := h.stop_le
    change start + b.sent.length = stop
    omega
  · have hbytes := bytes_of_file hgenuine hreads
    refine ⟨_, rfl, h.chunk hw hpos hbytes hreads.end_le ?_ ?_⟩
    · intro n hn
      have hmax := hreads.length_le
      rw [hn] at hmax
      exact hmax.trans (min_le_right _ _)
    · intro he
      rw [he] at hended
      exact hended rfl

theorem pollRead_eof {h : Handle} (heof : h.stream.position = h.stream.fileLen) {bufLen : ℕ}
    {havePieces : Option (ValidPieceIndex l → Bool)} {storage : Option Storage} :
    h.pollRead computeCurrentPiece bufLen havePieces storage = some (.ok [], h) :=
  if_pos heof

/-- The poll after the last byte. -/
theorem Body.Sends.complete (h : b.Sends fileId fi file start stop)
    (hsent : start + b.sent.length = stop) (hnone : b.ended = none) (bufLen : ℕ)
    (havePieces : Option (ValidPieceIndex l → Bool)) (storage : Option Storage) :
    b.pollNext computeCurrentPiece bufLen havePieces storage =
      some { b with ended := some .eof } := by
  have hposition := h.position
  rw [Body.pollNext, if_neg (by simp [hnone])]
  rcases h.limit with hl | ⟨hl, hstop⟩
  · rw [if_pos (by rw [hl, hsent, Nat.sub_self])]
  · have heof : b.stream.stream.position = b.stream.stream.fileLen := by
      rw [h.stream.len]
      omega
    rw [if_neg (by simp [hl])]
    dsimp only
    rw [pollRead_eof heof]
    rfl

theorem Body.Sends.step (hcompute : ComputesPiece l computeCurrentPiece) (hlen : fi.len < 2 ^ 64)
    (h : b.Sends fileId fi file start stop) {e : BodyEvent l}
    (hgenuine : Genuine l fileId fi file e) (hs : b.step computeCurrentPiece e = some b') :
    b'.Sends fileId fi file start stop := by
  cases e with
  | poll bufLen havePieces storage =>
    rw [Body.step] at hs
    split_ifs at hs with hbuf
    obtain ⟨b₁, hpoll, hsends⟩ := h.pollNext hcompute hlen hbuf.1 hgenuine
    rw [hpoll] at hs
    exact Option.some.inj hs ▸ hsends
  | wake =>
    obtain ⟨stream, hstep, rfl⟩ := Option.map_eq_some_iff.1 hs
    refine h.moved (step_wf hcompute hlen h.stream hstep) ?_
    rw [Streaming.step] at hstep
    split at hstep <;> cases hstep <;> rfl
  | other streamId st =>
    obtain ⟨stream, hstep, rfl⟩ := Option.map_eq_some_iff.1 hs
    refine h.moved (step_wf hcompute hlen h.stream hstep) ?_
    rw [Streaming.step] at hstep
    split_ifs at hstep
    cases hstep
    rfl

/-! The answer. -/

/-- The answer announces the length of the range, and its body is the range: what is sent is always
a beginning of it, all of it when the body ends without an error, and when all is sent the body ends
at the next poll. -/
structure Serves (l : Lengths) (computeCurrentPiece : ℕ → ℕ → Option (Streams.CurrentPiece l))
    (fileId : ℕ) (fi : FileInfo) (file : List UInt8) (start stop : ℕ) (r : Response) : Prop where
  contentLength : r.contentLength = decimal (stop - start)
  body : ∀ evs b, Run (Body.step computeCurrentPiece) (fun _ e => Genuine l fileId fi file e)
      r.body evs b →
    b.sent <+: (file.drop start).take (stop - start) ∧
      (b.ended = some .eof → b.sent = (file.drop start).take (stop - start)) ∧
      ∀ bufLen havePieces storage, 0 < bufLen →
        Genuine l fileId fi file (.poll bufLen havePieces storage) →
        ∃ b', b.pollNext computeCurrentPiece bufLen havePieces storage = some b' ∧
          (b.sent = (file.drop start).take (stop - start) → b'.ended.isSome)

theorem serves_of_sends (hcompute : ComputesPiece l computeCurrentPiece) (hlen : fi.len < 2 ^ 64)
    (hfile : file.length = fi.len) {r : Response}
    (hlength : r.contentLength = decimal (stop - start))
    (h : r.body.Sends fileId fi file start stop) :
    Serves l computeCurrentPiece fileId fi file start stop r := by
  refine ⟨hlength, fun evs b hrun => ?_⟩
  have hb : b.Sends fileId fi file start stop :=
    hrun.inv (fun b => b.Sends fileId fi file start stop) h
      fun _ _ _ hi hgenuine hs => hi.step hcompute hlen hgenuine hs
  have hle := hb.le_stop
  have hstop := hb.stop_le
  have htotal : ((file.drop start).take (stop - start)).length = stop - start := by
    rw [List.length_take, List.length_drop]
    omega
  have hsent : b.sent <+: (file.drop start).take (stop - start) := by
    rw [hb.sent]
    exact List.take_prefix_take_left (by omega)
  refine ⟨hsent, fun he => hsent.eq_of_length ?_, fun bufLen havePieces storage hbuf hg => ?_⟩
  · have hend := hb.ended he
    omega
  · obtain ⟨b', hpoll, -⟩ := hb.pollNext hcompute hlen hbuf hg
    refine ⟨b', hpoll, fun hall => ?_⟩
    cases hended : b.ended with
    | some e =>
      rw [Body.pollNext, if_pos (by rw [hended]; rfl)] at hpoll
      rw [← Option.some.inj hpoll, hended]
      rfl
    | none =>
      have hsent : start + b.sent.length = stop := by
        rw [hall, htotal]
        omega
      rw [hb.complete hsent hended] at hpoll
      rw [← Option.some.inj hpoll]
      rfl

theorem sends_start {stream : Handle} {limit : Option ℕ} (hw : stream.Wf fileId fi)
    (hpos : stream.stream.position = start) (hle : start ≤ stop) (hstop : stop ≤ fi.len)
    (hlimit : limit = some (stop - start) ∨ limit = none ∧ stop = fi.len) :
    Body.Sends ⟨stream, limit, [], none⟩ fileId fi file start stop :=
  ⟨hw, hpos, List.take_zero.symm, hle, hstop, hlimit, nofun⟩

/-- What is answered to a `Range` that is understood. -/
def RangeAnswer (l : Lengths) (computeCurrentPiece : ℕ → ℕ → Option (Streams.CurrentPiece l))
    (fileId : ℕ) (fi : FileInfo) (file : List UInt8) (start stop : ℕ)
    (r : Option (Except StreamError Response)) : Prop :=
  if start < stop ∧ stop ≤ fi.len then
    if fi.len < 2 ^ 63 then
      ∃ answer, r = some (.ok answer) ∧ answer.status = .partialContent ∧
        answer.contentRange = some (contentRange start (stop - 1) fi.len) ∧
        Serves l computeCurrentPiece fileId fi file start stop answer
    -- a position in such a file is no `i64`
    else r = some (.error .seeking)
  else r = some (.error .badRange)

theorem parseU64_lt {s : List UInt8} {n : ℕ} (h : parseU64 s = some n) : n < 2 ^ 64 := by
  rw [parseU64] at h
  generalize (if s.head? = some 0x2B then s.tail else s) = digits at h
  split_ifs at h with hok
  rw [Bool.and_eq_true, decide_eq_true_eq] at hok
  exact Option.some.inj h ▸ hok.2

theorem parseRange_lt {header : List UInt8} {range : ℕ × Option ℕ}
    (h : parseRange header = some range) : range.1 < 2 ^ 64 := by
  simp only [parseRange, Option.bind_eq_bind, Option.bind_eq_some_iff] at h
  obtain ⟨v, -, v', -, ⟨first, rest⟩, -, n, hn, h⟩ := h
  have hlt := parseU64_lt hn
  split_ifs at h with hempty
  · cases h
    exact hlt
  · obtain ⟨m, -, h⟩ := Option.bind_eq_some_iff.1 h
    cases h
    exact hlt

/-- A `Range` header that is understood is answered with the bytes that it asks for, if the file has
them all, and with an error else; without such a header the whole file is sent. What a client writes
for a first and a last byte, or a first byte only, is understood. -/
theorem range_requests (l : Lengths)
    (computeCurrentPiece : ℕ → ℕ → Option (Streams.CurrentPiece l))
    (hcompute : ComputesPiece l computeCurrentPiece) (t : TorrentStreams) (fileId : ℕ)
    (fi : FileInfo) (hlen : fi.len < 2 ^ 64) (file : List UInt8) (hfile : file.length = fi.len)
    (header : Option (List UInt8)) :
    (match header.bind parseRange with
      | some (start, stop) =>
        RangeAnswer l computeCurrentPiece fileId fi file start (stop.getD fi.len)
          (hTorrentStreamFile (t.open fileId fi) header)
      | none =>
        ∃ answer, hTorrentStreamFile (t.open fileId fi) header = some (.ok answer) ∧
          answer.status = .ok ∧ answer.contentRange = none ∧
          Serves l computeCurrentPiece fileId fi file 0 fi.len answer) ∧
      ∀ first last, first < 2 ^ 64 → (∀ n ∈ last, n < 2 ^ 64) →
        parseRange (rangeText first last) = some (first, last.map (saturatingAdd · 1)) := by
  refine ⟨?_, fun first last => parseRange_rangeText⟩
  have hw := wf_open t fileId fi
  cases hrange : header.bind parseRange with
  | none =>
    rw [hTorrentStreamFile, hrange]
    refine ⟨_, rfl, rfl, rfl, serves_of_sends hcompute hlen hfile rfl ?_⟩
    exact sends_start hw rfl (Nat.zero_le _) le_rfl (Or.inr ⟨rfl, rfl⟩)
  | some range =>
    obtain ⟨start, stop⟩ := range
    have hstart : start < 2 ^ 64 := by
      obtain ⟨text, -, htext⟩ := Option.bind_eq_some_iff.1 hrange
      exact parseRange_lt htext
    have hbad : (decide (start ≥ fi.len) ||
        stop.any fun stop => decide (stop ≤ start) || decide (stop > fi.len)) = true ↔
        ¬(start < stop.getD fi.len ∧ stop.getD fi.len ≤ fi.len) := by
      cases stop with
      | none => simp
      | some stop =>
        simp only [Option.any_some, Option.getD_some, Bool.or_eq_true, decide_eq_true_eq]
        omega
    have hseek := startSeek_cases hw (.start start.toUInt64)
    have htarget : target (t.open fileId fi) (.start start.toUInt64) = start := by
      rw [target, Nat.toUInt64, UInt64.toNat_ofNat', Nat.mod_eq_of_lt hstart]
    rw [Reaches, htarget] at hseek
    unfold hTorrentStreamFile RangeAnswer
    rw [hrange]
    dsimp only [TorrentStreams.open] at hseek ⊢
    by_cases hgood : start < stop.getD fi.len ∧ stop.getD fi.len ≤ fi.len
    · rw [if_pos hgood, if_neg fun hb => hbad.1 hb hgood]
      rcases hseek with ⟨⟨hbig, -⟩, stream, hsought, hw', hpos⟩ | ⟨hfail, hsought⟩
      · rw [if_pos hbig, hsought]
        refine ⟨_, rfl, rfl, rfl, serves_of_sends hcompute hlen hfile rfl ?_⟩
        exact sends_start hw' (by exact_mod_cast hpos) hgood.1.le hgood.2 (Or.inl rfl)
      · rw [if_neg fun hbig => hfail ⟨hbig, by omega, by omega⟩, hsought]
        rfl
    · rw [if_neg hgood, if_pos (hbad.2 hgood)]

/-- Bytes 2 to 5 of a file of eight, which cross into the second piece: that piece is not there at
first. -/
def waitsForPiece : List (BodyEvent elevenBytes) :=
  [.poll 100 (some fun p => decide (p.val ≠ 2)) (some elevenStorage),
    .poll 65536 (some fun p => decide (p.val ≠ 2)) (some elevenStorage), .wake,
    .poll 65436 (some fun _ => true) (some elevenStorage), .poll 9 none none]

def eightBytes : FileInfo := ⟨3, (0, 3), false, 8⟩

theorem waitsForPiece_genuine : ∀ e ∈ waitsForPiece,
    Genuine elevenBytes 1 eightBytes [10, 11, 12, 13, 14, 15, 16, 17] e := by
  intro e he
  simp only [waitsForPiece, List.mem_cons, List.not_mem_nil, or_false] at he
  rcases he with rfl | rfl | rfl | rfl | rfl
  · exact fun _ _ _ _ _ _ => rfl
  · exact fun _ _ _ _ _ _ => rfl
  · trivial
  · exact fun _ _ _ _ _ _ => rfl
  · trivial

/-- What becomes of the body of an answer. -/
def bodyAfter (r : Option (Except StreamError Response)) (evs : List (BodyEvent elevenBytes)) :
    Option Body :=
  match r with
  | some (.ok answer) => exec (Body.step (pieceAt elevenBytes)) Any answer.body evs
  | _ => none

theorem waitsForPiece_sent : ∃ answer b,
    hTorrentStreamFile elevenStream (some (rangeText 2 (some 5))) = some (.ok answer) ∧
      Run (Body.step (pieceAt elevenBytes))
        (fun _ e => Genuine elevenBytes 1 eightBytes [10, 11, 12, 13, 14, 15, 16, 17] e)
        answer.body waitsForPiece b ∧
      b.sent = [12, 13, 14, 15] ∧ answer.contentLength = decimal b.sent.length := by
  have hall := range_requests elevenBytes (pieceAt elevenBytes) (pieceAt_computes elevenBytes)
    ⟨0, fun _ => none⟩ 1 eightBytes (by decide) [10, 11, 12, 13, 14, 15, 16, 17] rfl
    (some (rangeText 2 (some 5)))
  obtain ⟨hanswer, hparse⟩ := hall
  have hrange : (some (rangeText 2 (some 5))).bind parseRange = some (2, some 6) :=
    hparse 2 (some 5) (by decide) (by decide)
  rw [hrange] at hanswer
  simp only [RangeAnswer, Option.getD_some] at hanswer
  rw [if_pos (by decide), if_pos (by decide)] at hanswer
  obtain ⟨answer, hok, -, -, hserves⟩ := hanswer
  have hafter : (bodyAfter (hTorrentStreamFile elevenStream (some (rangeText 2 (some 5))))
      waitsForPiece).any (fun b => decide (b.ended = some .eof)) = true := by
    decide +kernel
  rw [show hTorrentStreamFile elevenStream (some (rangeText 2 (some 5))) = some (.ok answer)
    from hok] at hafter ⊢
  obtain ⟨b, hexec, hended⟩ := (Option.any_eq_true _ _).1 hafter
  have hrun : Run (Body.step (pieceAt elevenBytes))
      (fun _ e => Genuine elevenBytes 1 eightBytes [10, 11, 12, 13, 14, 15, 16, 17] e)
      answer.body waitsForPiece b :=
    (Run.of_exec hexec).of_events fun e he _ => waitsForPiece_genuine e he
  have hsent := (hserves.body _ _ hrun).2.1 (of_decide_eq_true hended)
  refine ⟨answer, b, rfl, hrun, hsent, ?_⟩
  rw [hserves.contentLength, hsent]
  rfl

end HttpStream

end Rtbit
