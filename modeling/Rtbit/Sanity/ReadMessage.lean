import Rtbit.Sanity.ReadBuf

/-! What one call of `read_message` returns is decided by the bytes of the buffer and those that
are still to come, however they are split into reads: it is what the parser says about as many
of them as the buffer can hold. -/

namespace Rtbit

open Lib

namespace ReadBuf

variable {ε η δ M : Type} {b : ReadBuf} {c : Conn ε}

/-- The error at the end of the bytes. -/
def endError : ConnEnd ε → ReadError ε η δ
  | .eof => .peerDisconnected
  | .failed e => .write e

/-- A read returns some of the bytes that are to come, or there are none. -/
theorem read_cases (c : Conn ε) {available : ℕ} (ha : 0 < available) :
    (c.rest = [] ∧ ((∃ e, c.atEnd = .failed e ∧ c.read available = .error e) ∨
      c.atEnd = .eof ∧ ∃ c', c.read available = .ok ([], c'))) ∨
    ∃ data c', c.read available = .ok (data, c') ∧ data ≠ [] ∧ data.length ≤ available ∧
      c.rest = data ++ c'.rest ∧ c'.atEnd = c.atEnd := by
  rcases c with ⟨rest, sizes, atEnd⟩
  cases rest with
  | nil =>
    refine Or.inl ⟨rfl, ?_⟩
    cases atEnd with
    | eof => exact Or.inr ⟨rfl, _, by simp only [Conn.read, List.take_nil]; rfl⟩
    | failed e => exact Or.inl ⟨e, rfl, rfl⟩
  | cons x rest =>
    have hpos : 0 < Conn.nextSize ⟨x :: rest, sizes, atEnd⟩ available := by
      simp only [Conn.nextSize, List.length_cons]
      omega
    have hle : Conn.nextSize ⟨x :: rest, sizes, atEnd⟩ available ≤ available := by
      simp only [Conn.nextSize]
      omega
    refine Or.inr ⟨_, _, rfl, ?_, ?_, (List.take_append_drop _ _).symm, rfl⟩
    · simp only [ne_eq, List.take_eq_nil_iff, reduceCtorEq, or_false]
      omega
    · rw [List.length_take]
      omega

/-- What comes of the loop that reads `need` more bytes. -/
inductive ReadsMore (b : ReadBuf) (c : Conn ε) (need : ℕ) :
    Except (ReadError ε η δ) (ReadBuf × Conn ε) → Prop
  | enough {b' c'} : b'.Ok → b'.bytes ++ c'.rest = b.bytes ++ c.rest → c'.atEnd = c.atEnd →
      b.len + need ≤ b'.len → ReadsMore b c need (.ok (b', c'))
  | full : bufLen ≤ (b.bytes ++ c.rest).length → bufLen < b.len + need →
      ReadsMore b c need (.error (.readBufFull (saturateU16 (b.len + need - bufLen))))
  | ended : (b.bytes ++ c.rest).length < bufLen → (b.bytes ++ c.rest).length < b.len + need →
      ReadsMore b c need (.error (endError c.atEnd))

/-- One read, and the rest of the loop. -/
theorem ReadsMore.fill {need : ℕ} {data : List UInt8} {c' : Conn ε}
    {r : Except (ReadError ε η δ) (ReadBuf × Conn ε)}
    (hbytes : (b.fill data).bytes = b.bytes ++ data) (hrest : c.rest = data ++ c'.rest)
    (hend : c'.atEnd = c.atEnd) (hmore : need ≤ data.length → ∃ x, r = .ok x)
    (h : ReadsMore (b.fill data) c' (need - data.length) r) : ReadsMore b c need r := by
  have hstream : (b.fill data).bytes ++ c'.rest = b.bytes ++ c.rest := by
    rw [hbytes, hrest, List.append_assoc]
  have hlen : (b.fill data).len = b.len + data.length := rfl
  cases h with
  | enough hok hs he hle =>
    refine .enough hok (hs.trans hstream) (he.trans hend) ?_
    omega
  | full hs hlt =>
    have hneed : data.length < need := by
      by_contra hge
      obtain ⟨x, hx⟩ := hmore (by omega)
      cases hx
    rw [hstream] at hs
    have heq : (b.fill data).len + (need - data.length) = b.len + need := by omega
    rw [heq] at hlt ⊢
    exact .full hs hlt
  | ended hs hlt =>
    have hneed : data.length < need := by
      by_contra hge
      obtain ⟨x, hx⟩ := hmore (by omega)
      cases c'.atEnd <;> cases hx
    rw [hstream] at hs hlt
    rw [hend]
    exact .ended hs (by omega)

theorem readMore_spec (rounds need : ℕ) (hr : need ≤ rounds) (b : ReadBuf) (hb : b.Ok)
    (c : Conn ε) : ∃ r : Except (ReadError ε η δ) (ReadBuf × Conn ε),
      readMore rounds need b c = some r ∧ ReadsMore b c need r ∧ (need = 0 → r = .ok (b, c)) := by
  induction rounds generalizing need b c with
  | zero =>
    obtain rfl : need = 0 := by omega
    exact ⟨_, rfl, .enough hb rfl rfl le_rfl, fun _ => rfl⟩
  | succ rounds ih =>
    by_cases hneed : need = 0
    · subst hneed
      exact ⟨_, by simp [readMore], .enough hb rfl rfl le_rfl, fun _ => rfl⟩
    have hlen := hb.len_le
    have hbytes := length_bytes b
    rw [readMore, if_neg hneed]
    by_cases hfull : b.isFull = true
    · rw [if_pos hfull]
      have hlen : b.len = bufLen := by simpa [isFull] using hfull
      have heq : b.len + need - bufLen = need := by omega
      have herr : ReadsMore b c need
          (.error (.readBufFull (saturateU16 (b.len + need - bufLen)) : ReadError ε η δ)) :=
        .full (by rw [List.length_append]; omega) (by omega)
      rw [heq] at herr
      exact ⟨_, rfl, herr, fun h => absurd h hneed⟩
    · have hlt : b.len < bufLen := by
        have hne : b.len ≠ bufLen := by simpa [isFull] using hfull
        omega
      rw [if_neg hfull]
      rcases read_cases c (Nat.sub_pos_of_lt hlt) with
        ⟨hrest, ⟨e, he, hread⟩ | ⟨he, c', hread⟩⟩ | ⟨data, c', hread, hne, hle, hrest, hend⟩
      · have herr : ReadsMore b c need (.error (endError c.atEnd : ReadError ε η δ)) :=
          .ended (by rw [hrest, List.append_nil]; omega) (by rw [hrest, List.append_nil]; omega)
        rw [he] at herr
        exact ⟨_, by simp only [hread]; rfl, herr, fun h => absurd h hneed⟩
      · have herr : ReadsMore b c need (.error (endError c.atEnd : ReadError ε η δ)) :=
          .ended (by rw [hrest, List.append_nil]; omega) (by rw [hrest, List.append_nil]; omega)
        rw [he] at herr
        exact ⟨_, by simp only [hread]; rfl, herr, fun h => absurd h hneed⟩
      · obtain ⟨hok, hfill⟩ := hb.fill hle
        have hpos := List.length_pos_iff.2 hne
        obtain ⟨r, hr', hspec, hzero⟩ := ih (need - data.length) (by omega) (b.fill data) hok c'
        refine ⟨r, ?_, hspec.fill hfill hrest hend ?_, fun h => absurd h hneed⟩
        · simp only [hread]
          rw [if_neg (by omega), hr']
        · intro hge
          exact ⟨_, hzero (by omega)⟩

/-! One call of `read_message`. -/

/-- What the parser says about the bytes `s`, of which the buffer can hold `bufLen`. -/
def parse (m : MessageFormat M δ) (s : List UInt8) : Except (MessageDeserializeError δ) (M × ℕ) :=
  m.deserialize (s.take bufLen) []

/-- The result of `read_message` when the bytes `s` are in the buffer or to come. -/
inductive Outcome (m : MessageFormat M δ) (s : List UInt8) (atEnd : ConnEnd ε) :
    Except (ReadError ε η δ) (M × ReadBuf × Conn ε) → Prop
  | message {msg size b c} : parse m s = .ok (msg, size) → b.Ok → b.bytes ++ c.rest = s.drop size →
      c.atEnd = atEnd → Outcome m s atEnd (.ok (msg, b, c))
  | failed {e} : parse m s = .error (.other e) → Outcome m s atEnd (.error (.deserialize e))
  | full {n need} : parse m s = .error (.notEnoughData n) → bufLen ≤ s.length →
      (m.Exact → need = n) → Outcome m s atEnd (.error (.readBufFull (saturateU16 need)))
  | ended {n} : parse m s = .error (.notEnoughData n) → s.length < bufLen →
      Outcome m s atEnd (.error (endError atEnd))

/-- The bytes of the buffer, and what it can still take up. -/
theorem Ok.take_stream (hb : b.Ok) (rest : List UInt8) :
    (b.bytes ++ rest).take bufLen = b.bytes ++ rest.take (bufLen - b.len) := by
  rw [List.take_append, List.take_of_length_le (by rw [length_bytes]; exact hb.len_le), length_bytes]

section Message

variable {m : MessageFormat M δ}

theorem parse_cases (m : MessageFormat M δ) (s : List UInt8) :
    (∃ n, parse m s = .error (.notEnoughData n)) ∨ m.Decided (s.take bufLen) := by
  by_cases h : ∃ n, parse m s = .error (.notEnoughData n)
  · exact Or.inl h
  · exact Or.inr fun n hn => h ⟨n, hn⟩

/-- When the buffer does not have enough, the parser does not either if all that the buffer can
take up is less than what is asked for. -/
theorem parse_notEnough (hm : m.Lawful) (hb : b.Ok) {n : ℕ} (rest : List UInt8)
    (h : m.deserialize b.bytes [] = .error (.notEnoughData n))
    (hlt : (rest.take (bufLen - b.len)).length < n) :
    ∃ n', parse m (b.bytes ++ rest) = .error (.notEnoughData n') ∧
      (m.Exact → n' = n - (rest.take (bufLen - b.len)).length) := by
  rcases parse_cases m (b.bytes ++ rest) with ⟨n', hn'⟩ | hdec
  · refine ⟨n', hn', ?_⟩
    intro hexact
    have he := hexact _ _ _ h hlt
    rw [← hb.take_stream] at he
    have hparse : (Except.error (.notEnoughData n') : Except (MessageDeserializeError δ) (M × ℕ)) =
        .error (.notEnoughData (n - (rest.take (bufLen - b.len)).length)) := hn'.symm.trans he
    simpa using hparse
  · rw [hb.take_stream] at hdec
    have hle := hm.need_le _ _ _ h hdec
    omega

theorem readMessageLoop_outcome (hm : m.Lawful) (rounds : ℕ) (b : ReadBuf) (hb : b.Ok) (c : Conn ε)
    (hr : 2 * c.rest.length + (if b.asSlices.2 = [] then 0 else 1) < rounds) :
    ∃ r : Except (ReadError ε η δ) (M × ReadBuf × Conn ε), readMessageLoop m rounds b c = some r ∧
      Outcome m (b.bytes ++ c.rest) c.atEnd r := by
  induction rounds generalizing b c with
  | zero => omega
  | succ rounds ih =>
    have hslices := hb.asSlices_eq
    have hlen := length_bytes b
    have hle := hb.len_le
    rw [readMessageLoop]
    rcases hm.split b.asSlices.1 b.asSlices.2 with hsplit | ⟨hne, hsplit⟩
    · rw [hslices] at hsplit
      rw [hsplit]
      cases hd : m.deserialize b.bytes [] with
      | ok r =>
        obtain ⟨msg, size⟩ := r
        have hsize := hm.size_le _ _ _ hd
        have hadv := hb.advance size
        have hparse : parse m (b.bytes ++ c.rest) = .ok (msg, size) := by
          rw [parse, hb.take_stream]
          exact hm.ok_append _ _ _ hd
        refine ⟨_, rfl, .message hparse hadv.1 ?_ rfl⟩
        rw [hadv.2, List.drop_append_of_le_length hsize]
      | error e =>
        cases e with
        | needContiguous => exact absurd hd (hm.contiguous _)
        | other e =>
          refine ⟨_, rfl, .failed ?_⟩
          rw [parse, hb.take_stream]
          exact hm.other_append _ _ _ hd
        | notEnoughData n =>
          have hpos := hm.need_pos _ _ hd
          obtain ⟨r, hmore, hspec, -⟩ : ∃ r : Except (ReadError ε η δ) (ReadBuf × Conn ε),
              readMore n n b c = some r ∧ ReadsMore b c n r ∧ (n = 0 → r = .ok (b, c)) :=
            readMore_spec n n le_rfl b hb c
          simp only [hmore]
          have htake : (c.rest.take (bufLen - b.len)).length = min (bufLen - b.len) c.rest.length :=
            List.length_take
          cases hspec with
          | enough hok hstream hend hmore' =>
            next b' c' =>
            have hshorter : c'.rest.length + b'.len = c.rest.length + b.len := by
              have hl := congrArg List.length hstream
              simp only [List.length_append, length_bytes] at hl
              omega
            obtain ⟨r, hr', hout⟩ := ih b' hok c' (by split_ifs <;> omega)
            rw [hstream, hend] at hout
            exact ⟨r, hr', hout⟩
          | full hstream hlt =>
            rw [List.length_append] at hstream
            obtain ⟨n', hn', hexact⟩ := parse_notEnough hm hb c.rest hd (by omega)
            refine ⟨_, rfl, .full hn' (by rw [List.length_append]; omega) ?_⟩
            intro he
            rw [hexact he, htake]
            omega
          | ended hstream hlt =>
            rw [List.length_append] at hstream hlt
            obtain ⟨n', hn', -⟩ := parse_notEnough hm hb c.rest hd (by omega)
            exact ⟨_, rfl, .ended hn' (by rw [List.length_append]; omega)⟩
    · -- the slices are joined; the buffer is not contiguous, as the second one is not empty
      have hsecond := hb.length_second
      have hpos := List.length_pos_iff.2 hne
      rw [hsplit]
      simp only
      cases hc : b.makeContiguous with
      | none =>
        have hlt := hb.makeContiguous_eq_none.1 hc
        omega
      | some b' =>
        obtain ⟨hok, hbytes, hnil⟩ := hb.makeContiguous hc
        rw [if_neg hne] at hr
        obtain ⟨r, hr', hout⟩ := ih b' hok c (by rw [if_pos hnil]; omega)
        rw [hbytes] at hout
        exact ⟨r, hr', hout⟩

theorem readMessage_outcome (hm : m.Lawful) (b : ReadBuf) (hb : b.Ok) (c : Conn ε) :
    ∃ r : Except (ReadError ε η δ) (M × ReadBuf × Conn ε), readMessage m b c = some r ∧
      Outcome m (b.bytes ++ c.rest) c.atEnd r :=
  readMessageLoop_outcome hm _ b hb c (by split_ifs <;> omega)

end Message

end ReadBuf

end Rtbit
