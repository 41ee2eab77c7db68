import Rtbit.Proofs.ByteQueue
import Rtbit.Spec.Handshake

/-! `read_handshake` parses what the first read of the socket returned, and reads no more. So a
connection depends on how the network splits its first bytes: a handshake that comes in two reads
is an error, on either path. -/

namespace Rtbit

open Lib

namespace ReadBuf

variable {I ε η δ M : Type}

/-- The number of bytes in the first read. -/
def firstRead (stream : List UInt8) (sizes : ℕ → ℕ) : ℕ :=
  min (max 1 (sizes 0)) (min bufLen stream.length)

theorem readHandshake_nil (f : HandshakeFormat I η) (sizes : ℕ → ℕ) (atEnd : ConnEnd ε) :
    (new.readHandshake f ⟨[], sizes, atEnd⟩ : Except (ReadError ε η δ) _) =
      match atEnd with
      | .eof => .error .peerDisconnectedReadingHandshake
      | .failed e => .error (.readHandshake e) := by
  cases atEnd <;> simp [readHandshake, Conn.read]

/-- What is parsed is the first read; what comes after the handshake stays in the buffer. -/
theorem readHandshake_cases (δ : Type) {f : HandshakeFormat I η} (hf : f.Lawful) {stream : List UInt8}
    (hne : stream ≠ []) (sizes : ℕ → ℕ) (atEnd : ConnEnd ε) :
    (∃ e, f.deserialize (stream.take (firstRead stream sizes)) = .error e ∧
      (new.readHandshake f ⟨stream, sizes, atEnd⟩ : Except (ReadError ε η δ) _) =
        .error (.deserializeHandshake e)) ∨
    ∃ h size b c, f.deserialize (stream.take (firstRead stream sizes)) = .ok (h, size) ∧
      (new.readHandshake f ⟨stream, sizes, atEnd⟩ : Except (ReadError ε η δ) _) =
        .ok (h, b, c) ∧
      b.Ok ∧ b.bytes ++ c.rest = stream.drop size ∧ c.atEnd = atEnd := by
  have hpos := List.length_pos_iff.2 hne
  have hn : 0 < firstRead stream sizes ∧ firstRead stream sizes ≤ bufLen ∧
      firstRead stream sizes ≤ stream.length := by
    have := bufLen_pos
    simp only [firstRead]
    omega
  generalize hk : firstRead stream sizes = n at hn ⊢
  have hread : (⟨stream, sizes, atEnd⟩ : Conn ε).read bufLen =
      .ok (stream.take n, ⟨stream.drop n, fun k => sizes (k + 1), atEnd⟩) := by
    unfold Conn.read
    split
    · next h _ => exact absurd h hne
    · rw [← hk]
      rfl
  have hlen : (stream.take n).length = n := by
    rw [List.length_take]
    omega
  generalize hb : (⟨put new.buf 0 (stream.take n), 0, n⟩ : ReadBuf) = b
  have hok : b.Ok := by
    rw [← hb]
    exact ⟨bufLen_pos, hn.2.1⟩
  have hcells : cells b.buf 0 b.len = stream.take n := by
    have h : cells (put new.buf 0 (stream.take n)) 0 (stream.take n).length = stream.take n :=
      cells_put (stream.take n)
    rw [hlen] at h
    rw [← hb]
    exact h
  have hbytes : b.bytes = stream.take n := by
    rw [← hok.asSlices_eq, ← hcells, ← hb]
    simp [asSlices, asSliceRanges, hn.2.1, cells]
  have hnot : n ≠ 0 := by omega
  cases hd : f.deserialize (stream.take n) with
  | error e =>
    refine Or.inl ⟨e, rfl, ?_⟩
    rw [← hcells, ← hb] at hd
    simp only [readHandshake, hread, hlen, if_neg hnot]
    simp only [hd]
  | ok r =>
    obtain ⟨h, size⟩ := r
    have hsize := ((hf.accepts _ h size).1 hd).1
    have hrun : (new.readHandshake f ⟨stream, sizes, atEnd⟩ : Except (ReadError ε η δ) _) =
        .ok (h, b.advance size, ⟨stream.drop n, fun k => sizes (k + 1), atEnd⟩) := by
      rw [← hcells, ← hb] at hd
      simp only [readHandshake, hread, hlen, if_neg hnot]
      simp only [hd]
      rw [← hb]
      rfl
    refine Or.inr ⟨h, size, _, _, rfl, hrun, (hok.advance size).1, ?_, rfl⟩
    rw [(hok.advance size).2, hbytes, ← List.drop_append_of_le_length hsize,
      List.take_append_drop]

end ReadBuf

open ReadBuf

section Paths

variable {I ε η δ M : Type} [DecidableEq I]

def PeerRun.handshake : PeerRun I ε η δ M → Option (Handshake I)
  | .readFailed _ => none
  | .refused h _ => some h
  | .messages h _ => some h

/-- Without the number in the error about a full buffer. -/
def PeerRun.forgetNeed : PeerRun I ε η δ M → PeerRun I ε η δ M
  | .messages h rs => .messages h (rs.map ReadBuf.forgetNeed)
  | r => r

/-- For two ways to split the bytes: the same handshake, messages and error, and a stream that
starts with a complete handshake is accepted. -/
def SplitIndependent (f : HandshakeFormat I η) (m : MessageFormat M δ) (path : ConnPath I)
    (stream : List UInt8) (atEnd : ConnEnd ε) (sizes₁ sizes₂ : ℕ → ℕ) : Prop :=
  ∀ k, ∃ r₁ r₂ : PeerRun I ε η δ M,
    managePeer f m path k ⟨stream, sizes₁, atEnd⟩ = some r₁ ∧
    managePeer f m path k ⟨stream, sizes₂, atEnd⟩ = some r₂ ∧
    r₁.forgetNeed = r₂.forgetNeed ∧ (m.Exact → r₁ = r₂) ∧
    ∀ h size, f.deserialize stream = .ok (h, size) →
      r₁.handshake = some h ∧ r₂.handshake = some h

/-- The first read holds the handshake that the stream starts with; if it starts with none, the
parser says the same about the first read of both. -/
def FirstReadsDecide (f : HandshakeFormat I η) (stream : List UInt8) (sizes₁ sizes₂ : ℕ → ℕ) :
    Prop :=
  (∀ h size, f.deserialize stream = .ok (h, size) →
    size ≤ firstRead stream sizes₁ ∧ size ≤ firstRead stream sizes₂) ∧
  ((∀ r, f.deserialize stream ≠ .ok r) →
    f.deserialize (stream.take (firstRead stream sizes₁)) =
      f.deserialize (stream.take (firstRead stream sizes₂)))

variable {f : HandshakeFormat I η} {m : MessageFormat M δ} {path : ConnPath I}
  {stream : List UInt8} {atEnd : ConnEnd ε} {sizes sizes₁ sizes₂ : ℕ → ℕ}

omit [DecidableEq I] in
/-- A prefix that is accepted is accepted with all that follows. -/
theorem HandshakeFormat.Lawful.of_take (hf : f.Lawful) {n size : ℕ} {h : Handshake I}
    (hd : f.deserialize (stream.take n) = .ok (h, size)) :
    f.deserialize stream = .ok (h, size) ∧ size ≤ n := by
  obtain ⟨hle, htake⟩ := (hf.accepts _ h size).1 hd
  rw [List.length_take] at hle
  rw [List.take_take, Nat.min_eq_left (by omega)] at htake
  exact ⟨(hf.accepts _ h size).2 ⟨by omega, htake⟩, by omega⟩

omit [DecidableEq I] in
theorem HandshakeFormat.Lawful.take (hf : f.Lawful) {n size : ℕ} {h : Handshake I}
    (hd : f.deserialize stream = .ok (h, size)) (hn : size ≤ n) :
    f.deserialize (stream.take n) = .ok (h, size) := by
  obtain ⟨hle, htake⟩ := (hf.accepts _ h size).1 hd
  refine (hf.accepts _ h size).2 ⟨by rw [List.length_take]; omega, ?_⟩
  rw [List.take_take, Nat.min_eq_left hn]
  exact htake

omit [DecidableEq I] in
theorem HandshakeFormat.Lawful.ne_nil (hf : f.Lawful) {size : ℕ} {h : Handshake I}
    (hd : f.deserialize stream = .ok (h, size)) : stream ≠ [] := by
  rintro rfl
  have hle := ((hf.accepts _ h size).1 hd).1
  have hpos := hf.size_pos _ h size hd
  rw [List.length_nil] at hle
  omega

/-- A run that shows the handshake has it in its first read. -/
theorem size_le_firstRead (hf : f.Lawful) {k size : ℕ} {h : Handshake I}
    {r : PeerRun I ε η δ M} (hr : managePeer f m path k ⟨stream, sizes, atEnd⟩ = some r)
    (hd : f.deserialize stream = .ok (h, size)) (hh : r.handshake = some h) :
    size ≤ firstRead stream sizes := by
  obtain ⟨e, -, hrun⟩ | ⟨h', size', b, c, hd', -, -⟩ :=
    readHandshake_cases δ hf (hf.ne_nil hd) sizes atEnd
  · rw [managePeer, hrun] at hr
    obtain rfl := Option.some.inj hr
    cases hh
  · obtain ⟨hstream, hle⟩ := hf.of_take hd'
    rw [hd, Except.ok.injEq, Prod.mk.injEq] at hstream
    omega

theorem managePeer_nil (f : HandshakeFormat I η) (m : MessageFormat M δ) (path : ConnPath I)
    (atEnd : ConnEnd ε) (k : ℕ) :
    ∃ e, ∀ sizes, managePeer f m path k ⟨[], sizes, atEnd⟩ =
      some (.readFailed e : PeerRun I ε η δ M) := by
  cases atEnd with
  | eof => exact ⟨.peerDisconnectedReadingHandshake, fun sizes => by simp [managePeer,
      readHandshake_nil]⟩
  | failed e => exact ⟨.readHandshake e, fun sizes => by simp [managePeer, readHandshake_nil]⟩

/-- A stream that starts with no handshake: the run is the error about the first read. -/
theorem managePeer_rejected (m : MessageFormat M δ) (path : ConnPath I) (hf : f.Lawful)
    (hne : stream ≠ []) (hd : ∀ r, f.deserialize stream ≠ .ok r) (sizes : ℕ → ℕ)
    (atEnd : ConnEnd ε) (k : ℕ) :
    ∃ e, f.deserialize (stream.take (firstRead stream sizes)) = .error e ∧
      managePeer f m path k ⟨stream, sizes, atEnd⟩ =
        some (.readFailed (.deserializeHandshake e) : PeerRun I ε η δ M) := by
  obtain ⟨e, hd', hrun⟩ | ⟨h, size, b, c, hd', -, -⟩ :=
    readHandshake_cases δ hf hne sizes atEnd
  · refine ⟨e, hd', ?_⟩
    rw [managePeer, hrun]
  · exact absurd (hf.of_take hd').1 (hd _)

theorem firstReadsDecide_of_splitIndependent (hf : f.Lawful)
    (h : SplitIndependent f m path stream atEnd sizes₁ sizes₂) :
    FirstReadsDecide f stream sizes₁ sizes₂ := by
  obtain ⟨r₁, r₂, hr₁, hr₂, hsame, -, hacc⟩ := h 0
  constructor
  · intro hs size hd
    obtain ⟨hh₁, hh₂⟩ := hacc hs size hd
    exact ⟨size_le_firstRead hf hr₁ hd hh₁, size_le_firstRead hf hr₂ hd hh₂⟩
  · intro hd
    by_cases hne : stream = []
    · rw [hne, List.take_nil, List.take_nil]
    · obtain ⟨e₁, he₁, hrun₁⟩ := managePeer_rejected m path hf hne hd sizes₁ atEnd 0
      obtain ⟨e₂, he₂, hrun₂⟩ := managePeer_rejected m path hf hne hd sizes₂ atEnd 0
      rw [hr₁, Option.some.injEq] at hrun₁
      rw [hr₂, Option.some.injEq] at hrun₂
      rw [hrun₁, hrun₂] at hsame
      simp only [PeerRun.forgetNeed, PeerRun.readFailed.injEq,
        ReadError.deserializeHandshake.injEq] at hsame
      rw [he₁, he₂, hsame]

omit [DecidableEq I] in
/-- A stream that starts with a handshake, which the first read holds. -/
theorem readHandshake_accepted (δ : Type) (hf : f.Lawful) {size : ℕ} {h : Handshake I}
    (hd : f.deserialize stream = .ok (h, size)) (hle : size ≤ firstRead stream sizes)
    (atEnd : ConnEnd ε) :
    ∃ b c, (new.readHandshake f ⟨stream, sizes, atEnd⟩ : Except (ReadError ε η δ) _) =
        .ok (h, b, c) ∧
      b.Ok ∧ b.bytes ++ c.rest = stream.drop size ∧ c.atEnd = atEnd := by
  obtain ⟨e, hd', -⟩ | ⟨h', size', b, c, hd', hrun, hb⟩ :=
    readHandshake_cases δ hf (hf.ne_nil hd) sizes atEnd
  · rw [hf.take hd hle] at hd'
    cases hd'
  · rw [hf.take hd hle, Except.ok.injEq, Prod.mk.injEq] at hd'
    obtain ⟨rfl, rfl⟩ := hd'
    exact ⟨b, c, hrun, hb⟩

theorem splitIndependent_of_firstReadsDecide (hf : f.Lawful) (hm : m.Lawful)
    (h : FirstReadsDecide f stream sizes₁ sizes₂) :
    SplitIndependent f m path stream atEnd sizes₁ sizes₂ := by
  intro k
  by_cases hd : ∃ hs size, f.deserialize stream = .ok (hs, size)
  · obtain ⟨hs, size, hd⟩ := hd
    obtain ⟨hle₁, hle₂⟩ := h.1 hs size hd
    obtain ⟨b₁, c₁, hrun₁, hb₁, hs₁, he₁⟩ := readHandshake_accepted δ hf hd hle₁ atEnd
    obtain ⟨b₂, c₂, hrun₂, hb₂, hs₂, he₂⟩ := readHandshake_accepted δ hf hd hle₂ atEnd
    have hshown (r : Handshake I) (n : ℕ) (hr : f.deserialize stream = .ok (r, n)) :
        some hs = some r := by
      rw [hd, Except.ok.injEq, Prod.mk.injEq] at hr
      rw [hr.1]
    cases hc : path.check hs with
    | some r =>
      refine ⟨.refused hs r, .refused hs r, by simp [managePeer, hrun₁, hc],
        by simp [managePeer, hrun₂, hc], rfl, fun _ => rfl, ?_⟩
      exact fun r n hr => ⟨hshown r n hr, hshown r n hr⟩
    | none =>
      obtain ⟨rs₁, rs₂, hrs₁, hrs₂, hforget, hexact⟩ :
          ∃ rs₁ rs₂ : List (Except (ReadError ε η δ) M), _ ∧ _ ∧ _ ∧ _ :=
        readMessages_same hm k hb₁ hb₂ (hs₁.trans hs₂.symm) (he₁.trans he₂.symm)
      refine ⟨.messages hs rs₁, .messages hs rs₂, by simp [managePeer, hrun₁, hc, hrs₁],
        by simp [managePeer, hrun₂, hc, hrs₂], ?_, ?_, ?_⟩
      · simp only [PeerRun.forgetNeed, hforget]
      · intro hx
        rw [hexact hx]
      · exact fun r n hr => ⟨hshown r n hr, hshown r n hr⟩
  · have hd' : ∀ r, f.deserialize stream ≠ .ok r := fun r hr => hd ⟨r.1, r.2, hr⟩
    by_cases hne : stream = []
    · subst hne
      obtain ⟨e, he⟩ := managePeer_nil f m path atEnd k
      exact ⟨_, _, he sizes₁, he sizes₂, rfl, fun _ => rfl, fun r n hr => absurd ⟨r, n, hr⟩ hd⟩
    · obtain ⟨e₁, he₁, hrun₁⟩ := managePeer_rejected m path hf hne hd' sizes₁ atEnd k
      obtain ⟨e₂, he₂, hrun₂⟩ := managePeer_rejected m path hf hne hd' sizes₂ atEnd k
      have he := h.2 hd'
      rw [he₁, he₂, Except.error.injEq] at he
      subst he
      exact ⟨_, _, hrun₁, hrun₂, rfl, fun _ => rfl, fun r n hr => absurd ⟨r, n, hr⟩ hd⟩

/-- On either path, the handshake, the messages and the error do not depend on how the bytes are
split exactly when the first read holds the handshake in both cases. -/
theorem splitIndependent_iff (hf : f.Lawful) (hm : m.Lawful) :
    SplitIndependent f m path stream atEnd sizes₁ sizes₂ ↔
      FirstReadsDecide f stream sizes₁ sizes₂ :=
  ⟨firstReadsDecide_of_splitIndependent hf, splitIndependent_of_firstReadsDecide hf hm⟩

end Paths

/-! The handshake of the protocol: its name with its length, 8 reserved bytes and the two ids. -/

def protocolName : List UInt8 :=
  [19, 66, 105, 116, 84, 111, 114, 114, 101, 110, 116, 32, 112, 114, 111, 116, 111, 99, 111, 108]

inductive HandshakeError where
  | notEnoughData
  | wrongProtocol
  deriving DecidableEq, Repr

def bitTorrent : HandshakeFormat (List UInt8) HandshakeError where
  deserialize bytes :=
    if bytes.length < 68 then .error .notEnoughData
    else if bytes.take 20 ≠ protocolName then .error .wrongProtocol
    else .ok (⟨(bytes.drop 28).take 20, (bytes.drop 48).take 20⟩, 68)

theorem bitTorrent_lawful : bitTorrent.Lawful where
  accepts bytes h size := by
    simp only [bitTorrent]
    constructor
    · intro hd
      split_ifs at hd with hlen hname
      simp only [Except.ok.injEq, Prod.mk.injEq] at hd
      obtain ⟨rfl, rfl⟩ := hd
      refine ⟨by omega, ?_⟩
      have htake : ¬ (bytes.take 68).length < 68 := by
        rw [List.length_take]
        omega
      rw [if_neg htake, List.take_take, if_neg (by simpa using hname)]
      simp [List.drop_take, List.take_take]
    · rintro ⟨hle, hd⟩
      split_ifs at hd with hlen hname
      simp only [Except.ok.injEq, Prod.mk.injEq] at hd
      obtain ⟨rfl, rfl⟩ := hd
      rw [List.take_take] at hname
      rw [if_neg (by omega), if_neg (by simpa using hname)]
      simp [List.drop_take, List.take_take]
  size_pos bytes h size hd := by
    simp only [bitTorrent] at hd
    split_ifs at hd
    simp only [Except.ok.injEq, Prod.mk.injEq] at hd
    omega

/-- A handshake for the torrent `1 1 …` from the peer `2 2 …`. -/
def peerHandshake : List UInt8 :=
  protocolName ++ List.replicate 8 0 ++ List.replicate 20 1 ++ List.replicate 20 2

theorem peerHandshake_deserialize (more : List UInt8) :
    bitTorrent.deserialize (peerHandshake ++ more) =
      .ok (⟨List.replicate 20 1, List.replicate 20 2⟩, 68) := by
  have hlen : ¬ (peerHandshake ++ more).length < 68 := by
    rw [List.length_append, show peerHandshake.length = 68 from rfl]
    omega
  simp only [bitTorrent]
  rw [if_neg hlen]
  rfl

/-- We have the torrent `1 1 …`, and our peer id is `3 3 …`. -/
def ourPath : Bool → ConnPath (List UInt8)
  | true => .outgoing (List.replicate 20 1) (List.replicate 20 3)
  | false => .incoming (List.replicate 20 3) [⟨List.replicate 20 1, true, .added⟩]

/-- The handshake and a message after it, in one read, or cut behind the handshake. -/
theorem wholeHandshake_accepted :
    SplitIndependent bitTorrent lengthPrefixed (ourPath true) (peerHandshake ++ [1, 9])
      (.eof : ConnEnd Unit) (fun _ => 70) (fun _ => 68) ∧
    SplitIndependent bitTorrent lengthPrefixed (ourPath false) (peerHandshake ++ [1, 9])
      (.eof : ConnEnd Unit) (fun _ => 70) (fun _ => 68) := by
  have hd : FirstReadsDecide bitTorrent (peerHandshake ++ [1, 9]) (fun _ => 70) (fun _ => 68) := by
    have hok := peerHandshake_deserialize [1, 9]
    refine ⟨?_, fun h => absurd hok (h _)⟩
    intro h size hs
    rw [hok, Except.ok.injEq, Prod.mk.injEq] at hs
    rw [← hs.2]
    decide
  exact ⟨(splitIndependent_iff bitTorrent_lawful lengthPrefixed_lawful).2 hd,
    (splitIndependent_iff bitTorrent_lawful lengthPrefixed_lawful).2 hd⟩

/-- The handshake in one read, and cut after 48 of its 68 bytes. -/
theorem cutHandshake_rejected :
    ¬ SplitIndependent bitTorrent lengthPrefixed (ourPath true) peerHandshake
      (.eof : ConnEnd Unit) (fun _ => 68) (fun _ => 48) ∧
    ¬ SplitIndependent bitTorrent lengthPrefixed (ourPath false) peerHandshake
      (.eof : ConnEnd Unit) (fun _ => 68) (fun _ => 48) := by
  have hd : ¬ FirstReadsDecide bitTorrent peerHandshake (fun _ => 68) (fun _ => 48) := by
    intro h
    have hle := (h.1 _ _ (peerHandshake_deserialize [])).2
    revert hle
    decide
  exact ⟨fun h => hd (firstReadsDecide_of_splitIndependent bitTorrent_lawful h),
    fun h => hd (firstReadsDecide_of_splitIndependent bitTorrent_lawful h)⟩

end Rtbit
