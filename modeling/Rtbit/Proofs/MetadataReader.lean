import Rtbit.Proofs.MetadataTransfer
import Rtbit.Spec.PeerInfoReader

/-! The metadata reader under any messages. The sizes of what `locked` holds fit together from the
handshake on, so that no piece is out of the buffer, and the sender of the result is there once.
What is left is the `unwrap`: a piece that arrives while `locked` holds nothing. -/

namespace Rtbit

open Lib

namespace Metadata

namespace HandlerLocked

variable {H : Type} [DecidableEq H] {lastElementSize : ℕ → ℕ → ℕ} {s : HandlerLocked} {n : ℕ}

/-- The fields as `new` makes them for a size that it lets through. -/
structure Sized (s : HandlerLocked) : Prop where
  small : s.metadataSize ≤ 32 * 1024 * 1024
  totalPieces : s.totalPieces = blockCount chunkSize s.metadataSize
  bufferLen : s.buffer.length = s.metadataSize
  receivedLen : s.receivedPieces.length = s.totalPieces

theorem sized_new (h : new n = .ok s) : s.Sized := by
  rw [new] at h
  split_ifs at h with hbig
  injection h with h
  subst h
  exact ⟨not_lt.1 hbig, rfl, List.length_replicate, List.length_replicate⟩

/-- A piece with an index that is let through is in the buffer. -/
theorem Sized.piece_end_le (hlast : LastElementSize lastElementSize) (h : s.Sized) {i : ℕ}
    (hi : i < s.totalPieces) :
    i * chunkSize + s.pieceSize lastElementSize i ≤ s.buffer.length := by
  have hstart : i * chunkSize < s.metadataSize :=
    (lt_blockCount (by decide)).1 (h.totalPieces ▸ hi)
  rw [pieceSize_eq_min hlast (Nat.zero_lt_of_lt hstart) h.totalPieces hi, h.bufferLen]
  omega

theorem Sized.stored (h : s.Sized) {d : UtMetadataData}
    (hend : d.piece * chunkSize + d.data.length ≤ s.buffer.length) : (s.stored d).Sized := by
  refine ⟨h.small, h.totalPieces, ?_, ?_⟩
  · rw [HandlerLocked.stored, setBlock, ← h.bufferLen]
    simp only [List.length_append, List.length_take, List.length_drop]
    omega
  · rw [HandlerLocked.stored, List.length_set, h.receivedLen]

/-- `record_piece` does not panic, and what it accepts as the metadata has the right hash. -/
theorem Sized.recordPiece (hlast : LastElementSize lastElementSize) (sha1 : List UInt8 → H)
    (infoHash : H) (h : s.Sized) (d : UtMetadataData) :
    ∃ s' r, s.recordPiece lastElementSize sha1 infoHash d = some (s', r) ∧ s'.Sized ∧
      (r = .ok true → sha1 s'.buffer = infoHash) := by
  unfold HandlerLocked.recordPiece
  rcases Nat.lt_or_ge d.piece s.totalPieces with hi | hi
  swap
  · exact ⟨s, _, if_pos hi, h, nofun⟩
  have hend := h.piece_end_le hlast hi
  have hsmall : d.piece * chunkSize < 2 ^ 32 := by
    have hsize := h.small
    rw [← h.bufferLen] at hsize
    omega
  rw [if_neg (not_le.2 hi), u32Mul, if_pos hsmall, Option.bind_some]
  by_cases hlen : d.data.length = s.pieceSize lastElementSize d.piece
  swap
  · exact ⟨s, _, if_pos hlen, h, fun he => by cases he⟩
  simp only [if_neg (not_not.2 hlen)]
  obtain ⟨received, hreceived⟩ : ∃ b, s.receivedPieces[d.piece]? = some b :=
    ⟨_, List.getElem?_eq_getElem (by rw [h.receivedLen]; exact hi)⟩
  rw [hreceived, Option.bind_some]
  cases received with
  | true => exact ⟨s, _, if_pos rfl, h, fun he => by cases he⟩
  | false =>
    rw [← hlen] at hend
    have hstored := h.stored hend
    rw [if_neg Bool.false_ne_true, if_neg (not_lt.2 hend)]
    by_cases hall : (s.stored d).receivedPieces.all id = true
    · by_cases hhash : sha1 (s.stored d).buffer = infoHash
      · exact ⟨s.stored d, _, (if_pos hall).trans (if_neg (not_not.2 hhash)), hstored,
          fun _ => hhash⟩
      · exact ⟨s.stored d, _, (if_pos hall).trans (if_pos hhash), hstored, fun he => by cases he⟩
    · exact ⟨s.stored d, _, if_neg hall, hstored, fun he => by cases he⟩

end HandlerLocked

variable {E I H : Type} {lastElementSize : ℕ → ℕ → ℕ} {sha1 : List UInt8 → H} {infoHash : H}
  {parse : List UInt8 → Except E I} {s s' : Handler E I}

/-- At most one value has been sent, and it is what is parsed from bytes that have the hash. -/
def SentOnce (sha1 : List UInt8 → H) (infoHash : H) (parse : List UInt8 → Except E I)
    (s : Handler E I) : Prop :=
  s.sent.length ≤ 1 ∧
    ∀ r ∈ s.sent, ∃ bytes, sha1 bytes = infoHash ∧ r = (parse bytes).map (·, bytes)

structure ReaderInv (sha1 : List UInt8 → H) (infoHash : H) (parse : List UInt8 → Except E I)
    (s : Handler E I) : Prop where
  sized : ∀ locked ∈ s.locked, HandlerLocked.Sized locked
  unsent : s.resultTx = true → s.sent = []
  once : SentOnce sha1 infoHash parse s

theorem readerInv_new : ReaderInv sha1 infoHash parse (Handler.new : Handler E I) := by
  refine ⟨?_, fun _ => rfl, Nat.zero_le 1, ?_⟩
  · rintro locked ⟨⟩
  · rintro r ⟨⟩

namespace Handler

theorem requestPieces_fst (writerOpen : ℕ → Bool) (s : Handler E I) (pieces : List ℕ) :
    ∃ w, (requestPieces writerOpen s pieces).1 = { s with written := w } := by
  induction pieces generalizing s with
  | nil => exact ⟨s.written, rfl⟩
  | cons i rest ih =>
    rw [requestPieces]
    split_ifs
    · exact ⟨s.written, rfl⟩
    · obtain ⟨w, hw⟩ := ih { s with written := s.written ++ [.request i] }
      exact ⟨w, hw⟩
    · exact ⟨s.written, rfl⟩

/-- A handshake leaves the result alone, and puts a new buffer into `locked` or leaves it. -/
theorem onExtendedHandshake_fst (writerOpen : ℕ → Bool) (s : Handler E I) (h : ExtendedHandshake) :
    ∃ w l, (s.onExtendedHandshake writerOpen h).1 = { s with written := w, locked := l } ∧
      (l = s.locked ∨ ∃ n inner, HandlerLocked.new n = .ok inner ∧ l = some inner) := by
  rw [onExtendedHandshake]
  rcases h.metadataSize with _ | n
  · exact ⟨s.written, s.locked, rfl, Or.inl rfl⟩
  dsimp only
  split_ifs
  · exact ⟨s.written, s.locked, rfl, Or.inl rfl⟩
  · exact ⟨s.written, s.locked, rfl, Or.inl rfl⟩
  · exact ⟨_, s.locked, rfl, Or.inl rfl⟩
  · cases hnew : HandlerLocked.new n with
    | error size => exact ⟨_, s.locked, rfl, Or.inl rfl⟩
    | ok inner =>
      obtain ⟨w, hw⟩ := requestPieces_fst writerOpen
        { s with
          written := s.written ++ [.unchoke] ++ [.interested]
          locked := some inner } (List.range inner.totalPieces)
      exact ⟨w, some inner, hw, Or.inr ⟨n, inner, hnew, rfl⟩⟩

end Handler

variable [DecidableEq H]

/-- A call with a piece returns when `locked` holds a buffer. -/
theorem ReaderInv.data (hlast : LastElementSize lastElementSize) (h : ReaderInv sha1 infoHash parse s)
    (hsome : s.locked.isSome) (utdata : UtMetadataData) (consumerOpen : Bool) :
    ∃ s' r, s.onReceivedMessage lastElementSize sha1 infoHash parse consumerOpen (.data utdata) =
      some (s', r) ∧ ReaderInv sha1 infoHash parse s' := by
  obtain ⟨locked, hlocked⟩ := Option.isSome_iff_exists.1 hsome
  obtain ⟨locked', ready, hrec, hsized, hhash⟩ :=
    (h.sized locked hlocked).recordPiece hlast sha1 infoHash utdata
  have hkeep : ReaderInv sha1 infoHash parse { s with locked := some locked' } := by
    refine ⟨?_, h.unsent, h.once⟩
    rintro l ⟨⟩
    exact hsized
  rw [Handler.onReceivedMessage, hlocked, Option.bind_some, hrec, Option.map_some]
  rcases ready with e | _ | _
  · exact ⟨_, _, rfl, hkeep⟩
  · exact ⟨_, _, rfl, hkeep⟩
  · dsimp only
    by_cases htx : s.resultTx = true
    · rw [if_pos htx]
      refine ⟨_, _, rfl, ?_, (fun hf => by cases hf), ?_, ?_⟩
      · rintro l ⟨⟩
      · simp [h.unsent htx]
      · intro r hr
        rw [h.unsent htx, List.nil_append, List.mem_singleton] at hr
        exact ⟨locked'.buffer, hhash rfl, hr⟩
    · rw [if_neg htx]
      refine ⟨_, _, rfl, ?_, h.unsent, h.once⟩
      rintro l ⟨⟩

/-- Every other call returns. -/
theorem ReaderInv.call (hlast : LastElementSize lastElementSize) (h : ReaderInv sha1 infoHash parse s)
    (c : ReaderCall) (hok : ∀ utdata b, c = .message (.data utdata) b → s.locked.isSome) :
    ∃ s' r, c.call lastElementSize sha1 infoHash parse s = some (s', r) ∧
      ReaderInv sha1 infoHash parse s' := by
  cases c with
  | extendedHandshake hs writerOpen =>
    obtain ⟨w, l, hfst, hl⟩ := s.onExtendedHandshake_fst writerOpen hs
    refine ⟨(s.onExtendedHandshake writerOpen hs).1, _, rfl, ?_⟩
    rw [hfst]
    refine ⟨?_, h.unsent, h.once⟩
    intro locked hlocked
    rcases hl with rfl | ⟨n, inner, hnew, rfl⟩
    · exact h.sized locked hlocked
    · obtain rfl := Option.some.inj hlocked
      exact HandlerLocked.sized_new hnew
  | message m consumerOpen =>
    cases m with
    | data utdata => exact h.data hlast (hok utdata consumerOpen rfl) utdata consumerOpen
    | other => exact ⟨s, .ok (), rfl, h⟩

/-- Without a buffer the `unwrap` panics. -/
theorem data_panics (hnone : s.locked = none) (utdata : UtMetadataData) (consumerOpen : Bool) :
    (ReaderCall.message (.data utdata) consumerOpen).call lastElementSize sha1 infoHash parse s =
      none := by
  rw [ReaderCall.call, Handler.onReceivedMessage, hnone, Option.bind_none]

/-! A run. -/

section

variable (lastElementSize) (sha1) (infoHash) (parse)

/-- The calls all return, one after the other. -/
def Returns (calls : List ReaderCall) (s : Handler E I) : Prop :=
  Run (readerStep lastElementSize sha1 infoHash parse) Any Handler.new calls s

/-- No call panics, and whenever one has returned at most one value has been sent, of bytes that
have the hash. -/
def Survives (calls : List ReaderCall) : Prop :=
  (∃ s, Returns lastElementSize sha1 infoHash parse calls s) ∧
    ∀ before s, before <+: calls → Returns lastElementSize sha1 infoHash parse before s →
      SentOnce sha1 infoHash parse s

/-- A piece arrives only while `locked` holds a buffer: a handshake has been accepted, and no
metadata completed since. -/
def PiecesExpected (calls : List ReaderCall) : Prop :=
  ∀ before utdata consumerOpen, before ++ [.message (.data utdata) consumerOpen] <+: calls →
    ∀ s, Returns lastElementSize sha1 infoHash parse before s → s.locked.isSome

end

theorem step_readerInv (hlast : LastElementSize lastElementSize) {c : ReaderCall}
    (h : ReaderInv sha1 infoHash parse s)
    (hs : readerStep lastElementSize sha1 infoHash parse s c = some s') :
    ReaderInv sha1 infoHash parse s' := by
  obtain ⟨⟨_, r⟩, hc, rfl⟩ := Option.map_eq_some_iff.1 hs
  have hok (utdata : UtMetadataData) (b : Bool) (he : c = .message (.data utdata) b) :
      s.locked.isSome := by
    subst he
    rw [Option.isSome_iff_ne_none]
    intro hnone
    rw [data_panics hnone] at hc
    cases hc
  obtain ⟨s₂, r₂, hc₂, h₂⟩ := h.call hlast c hok
  rw [hc] at hc₂
  cases hc₂
  exact h₂

theorem Returns.inv (hlast : LastElementSize lastElementSize) {calls : List ReaderCall}
    (h : Returns lastElementSize sha1 infoHash parse calls s) : ReaderInv sha1 infoHash parse s :=
  Run.inv _ readerInv_new (fun _ _ _ hi _ hs => step_readerInv hlast hi hs) h

theorem returns_of_expected (hlast : LastElementSize lastElementSize) {calls : List ReaderCall}
    (h : PiecesExpected lastElementSize sha1 infoHash parse calls) :
    ∃ s, Returns lastElementSize sha1 infoHash parse calls s := by
  induction calls using List.reverseRecOn with
  | nil => exact ⟨_, Run.nil⟩
  | append_singleton calls c ih =>
    obtain ⟨s, hr⟩ := ih fun before utdata b hpre => h before utdata b
      (hpre.trans (List.prefix_append calls [c]))
    have hinv := Returns.inv hlast hr
    obtain ⟨s', r, hc, -⟩ := hinv.call hlast c fun utdata b he => by
      subst he
      exact h calls utdata b List.prefix_rfl s hr
    exact ⟨s', hr.snoc trivial (by rw [readerStep, hc]; rfl)⟩

theorem Returns.expected {calls : List ReaderCall}
    (h : Returns lastElementSize sha1 infoHash parse calls s) :
    PiecesExpected lastElementSize sha1 infoHash parse calls := by
  rintro before utdata consumerOpen ⟨rest, rfl⟩ t hbefore
  obtain ⟨u, hu, -⟩ := h.split
  obtain ⟨v, hv, -, hstep⟩ := hu.snoc_inv
  obtain rfl := hv.unique hbefore
  rw [Option.isSome_iff_ne_none]
  intro hnone
  rw [readerStep, data_panics hnone] at hstep
  cases hstep

theorem metadata_reader_survives (lastElementSize : ℕ → ℕ → ℕ)
    (hlast : LastElementSize lastElementSize) (sha1 : List UInt8 → H) (infoHash : H)
    (parse : List UInt8 → Except E I) (calls : List ReaderCall) :
    Survives lastElementSize sha1 infoHash parse calls ↔
      PiecesExpected lastElementSize sha1 infoHash parse calls := by
  constructor
  · rintro ⟨⟨s, hr⟩, -⟩
    exact Returns.expected hr
  · intro h
    exact ⟨returns_of_expected hlast h, fun before s _ hr => (Returns.inv hlast hr).once⟩

/-! Metadata of one byte. -/

def offer : ReaderCall := .extendedHandshake ⟨some 1, some 3⟩ fun _ => true

def onePiece (b : UInt8) : ReaderCall := .message (.data ⟨0, 1, [b]⟩) true

def parseAny (bytes : List UInt8) : Except Unit ℕ := .ok bytes.length

/-- A wrong byte, the offer made again, and then the byte with the hash. -/
def offeredTwice : List ReaderCall := [offer, onePiece 9, offer, onePiece 7]

theorem offeredTwice_survives : Survives documentedSize id [7] parseAny offeredTwice ∧
    ∃ s, Returns documentedSize id [7] parseAny offeredTwice s ∧ s.sent.length = 1 := by
  obtain ⟨s, hs, hq⟩ : ∃ s, Returns documentedSize id [7] parseAny offeredTwice s ∧
      decide (s.sent.length = 1) = true := Run.exists_of_exec (by decide +kernel)
  exact ⟨(metadata_reader_survives documentedSize (fun _ _ _ _ => rfl) id [7] parseAny _).2
    (Returns.expected hs), s, hs, of_decide_eq_true hq⟩

/-- A piece before any handshake, and one behind the last. -/
theorem unexpected_panics : ¬Survives documentedSize id [7] parseAny [onePiece 7] ∧
    ¬Survives documentedSize id [7] parseAny [offer, onePiece 7, onePiece 7] := by
  constructor
  · rintro ⟨⟨s, hs⟩, -⟩
    exact absurd (Returns.expected hs [] _ true List.prefix_rfl Handler.new Run.nil) (by decide)
  · rintro ⟨⟨s, hs⟩, -⟩
    obtain ⟨t, ht, hq⟩ : ∃ s, Returns documentedSize id [7] parseAny [offer, onePiece 7] s ∧
        s.locked.isNone = true := Run.exists_of_exec (by decide +kernel)
    have hsome := Returns.expected hs [offer, onePiece 7] _ true List.prefix_rfl t ht
    rw [Option.isNone_iff_eq_none.1 hq] at hsome
    cases hsome

end Metadata

end Rtbit
