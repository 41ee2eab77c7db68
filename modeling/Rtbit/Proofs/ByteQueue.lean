import Rtbit.Lib.Runs
import Rtbit.Sanity.ReadMessage

/-! A `ReadBuf` is a first-in first-out queue of bytes, and what `read_message` parses from it
does not depend on how the network splits the bytes into reads. The one thing that may is the
number in the error about a full buffer: it is what was last asked for, less what has come since,
and is settled only if the parser asks for the same bytes at every point of the message. -/

namespace Rtbit

open Lib

namespace ReadBuf

/-! Sequences of operations. -/

inductive BufOp where
  /-- A read of the socket. -/
  | fill (data : List UInt8)
  | makeContiguous
  | advance (n : ℕ)
  deriving DecidableEq, Repr

/-- A read takes up at least one byte and no more than there is room for; `make_contiguous`
leaves the buffer as it is when it returns an error. -/
def step (b : ReadBuf) : BufOp → Option ReadBuf
  | .fill data => if data ≠ [] ∧ data.length ≤ bufLen - b.len then some (b.fill data) else none
  | .makeContiguous => some (b.makeContiguous.getD b)
  | .advance n => if n ≤ b.len then some (b.advance n) else none

/-- The bytes that an operation puts in, and the number of bytes it takes out. -/
def BufOp.added : BufOp → List UInt8
  | .fill data => data
  | .makeContiguous | .advance _ => []

def BufOp.taken : BufOp → ℕ
  | .advance n => n
  | .makeContiguous | .fill _ => 0

def received (ops : List BufOp) : List UInt8 := ops.flatMap BufOp.added

def consumed (ops : List BufOp) : ℕ := (ops.map BufOp.taken).sum

/-- The buffer holds what has been received and not consumed, and has room for the rest. -/
structure IsQueue (b : ReadBuf) (ops : List BufOp) : Prop where
  bytes_eq : b.asSlices.1 ++ b.asSlices.2 = (received ops).drop (consumed ops)
  start_lt : b.start < bufLen
  len_le : b.len ≤ bufLen
  disjoint : ∀ i, InRange i b.unfilledIoslices.1 ∨ InRange i b.unfilledIoslices.2 →
    ¬ InRange i b.asSliceRanges.1 ∧ ¬ InRange i b.asSliceRanges.2
  room : (b.unfilledIoslices.1.2 - b.unfilledIoslices.1.1) +
    (b.unfilledIoslices.2.2 - b.unfilledIoslices.2.1) = bufLen - b.len

/-- What a run of operations keeps. -/
structure Holds (b : ReadBuf) (ops : List BufOp) : Prop where
  ok : b.Ok
  bytes_eq : b.bytes = (received ops).drop (consumed ops)
  consumed_le : consumed ops ≤ (received ops).length

theorem Holds.isQueue {b : ReadBuf} {ops : List BufOp} (h : Holds b ops) : IsQueue b ops where
  bytes_eq := h.ok.asSlices_eq.trans h.bytes_eq
  start_lt := h.ok.start_lt
  len_le := h.ok.len_le
  disjoint _ hi := (h.ok.unfilled_disjoint hi).2
  room := h.ok.length_unfilled

@[simp] theorem received_snoc (ops : List BufOp) (op : BufOp) :
    received (ops ++ [op]) = received ops ++ op.added := by
  simp [received]

@[simp] theorem consumed_snoc (ops : List BufOp) (op : BufOp) :
    consumed (ops ++ [op]) = consumed ops + op.taken := by
  simp [consumed]

theorem Holds.step {b b' : ReadBuf} {ops : List BufOp} {op : BufOp} (h : Holds b ops)
    (hs : b.step op = some b') : Holds b' (ops ++ [op]) := by
  have hle := h.consumed_le
  cases op with
  | fill data =>
    rw [ReadBuf.step] at hs
    split_ifs at hs with hd
    obtain rfl := Option.some.inj hs
    obtain ⟨hok, hbytes⟩ := h.ok.fill hd.2
    refine ⟨hok, ?_, ?_⟩
    · rw [hbytes, h.bytes_eq, received_snoc, consumed_snoc, BufOp.taken, BufOp.added, Nat.add_zero,
        List.drop_append_of_le_length hle]
    · rw [received_snoc, consumed_snoc, BufOp.taken, List.length_append]
      omega
  | makeContiguous =>
    rw [ReadBuf.step, Option.some.injEq] at hs
    have hb' : b'.Ok ∧ b'.bytes = b.bytes := by
      cases hc : b.makeContiguous with
      | none =>
        rw [hc, Option.getD_none] at hs
        rw [← hs]
        exact ⟨h.ok, rfl⟩
      | some b₁ =>
        rw [hc, Option.getD_some] at hs
        obtain ⟨hok, hbytes, -⟩ := h.ok.makeContiguous hc
        rw [← hs]
        exact ⟨hok, hbytes⟩
    refine ⟨hb'.1, ?_, ?_⟩
    · rw [hb'.2, h.bytes_eq, received_snoc, consumed_snoc, BufOp.added, BufOp.taken, List.append_nil,
        Nat.add_zero]
    · rw [received_snoc, consumed_snoc, BufOp.added, BufOp.taken, List.append_nil, Nat.add_zero]
      exact hle
  | advance n =>
    rw [ReadBuf.step] at hs
    split_ifs at hs with hn
    obtain rfl := Option.some.inj hs
    obtain ⟨hok, hbytes⟩ := h.ok.advance n
    have hlen := length_bytes b
    rw [h.bytes_eq, List.length_drop] at hlen
    refine ⟨hok, ?_, ?_⟩
    · rw [hbytes, h.bytes_eq, received_snoc, consumed_snoc, BufOp.added, BufOp.taken,
        List.append_nil, List.drop_drop]
    · rw [received_snoc, consumed_snoc, BufOp.added, BufOp.taken, List.append_nil]
      omega

theorem run_holds {ops : List BufOp} {b : ReadBuf} (h : Run step Any new ops b) : Holds b ops := by
  induction h with
  | nil => exact ⟨new_ok, rfl, le_rfl⟩
  | snoc _ _ hs ih => exact ih.step hs

/-! Two ways to split the same bytes. -/

variable {ε η δ M : Type}

/-- The result of a call without the number in the error about a full buffer. -/
def forgetNeed : Except (ReadError ε η δ) M → Except (ReadError ε η δ) M
  | .error (.readBufFull _) => .error (.readBufFull 0)
  | r => r

/-- The results of two calls that have the same bytes before them: the same message, with the
same bytes after it, or the same error. -/
inductive Same (exact : Prop) : Except (ReadError ε η δ) (M × ReadBuf × Conn ε) →
    Except (ReadError ε η δ) (M × ReadBuf × Conn ε) → Prop
  | message {msg b₁ b₂ c₁ c₂} : b₁.Ok → b₂.Ok → b₁.bytes ++ c₁.rest = b₂.bytes ++ c₂.rest →
      c₁.atEnd = c₂.atEnd → Same exact (.ok (msg, b₁, c₁)) (.ok (msg, b₂, c₂))
  | error {e₁ e₂} : forgetNeed (M := M) (.error e₁) = forgetNeed (.error e₂) →
      (exact → e₁ = e₂) → Same exact (.error e₁) (.error e₂)

theorem Outcome.same {m : MessageFormat M δ} {s : List UInt8} {atEnd : ConnEnd ε}
    {r₁ r₂ : Except (ReadError ε η δ) (M × ReadBuf × Conn ε)} (h₁ : Outcome m s atEnd r₁)
    (h₂ : Outcome m s atEnd r₂) : Same m.Exact r₁ r₂ := by
  cases h₁ with
  | message hp₁ hok₁ hs₁ he₁ =>
    cases h₂ with
    | message hp₂ hok₂ hs₂ he₂ =>
      rw [hp₁, Except.ok.injEq, Prod.mk.injEq] at hp₂
      obtain ⟨rfl, rfl⟩ := hp₂
      exact .message hok₁ hok₂ (hs₁.trans hs₂.symm) (he₁.trans he₂.symm)
    | failed hp₂ => simp [hp₁] at hp₂
    | full hp₂ => simp [hp₁] at hp₂
    | ended hp₂ => simp [hp₁] at hp₂
  | failed hp₁ =>
    cases h₂ with
    | message hp₂ => simp [hp₁] at hp₂
    | failed hp₂ =>
      obtain rfl : _ = _ := by simpa [hp₁] using hp₂
      exact .error rfl fun _ => rfl
    | full hp₂ => simp [hp₁] at hp₂
    | ended hp₂ => simp [hp₁] at hp₂
  | full hp₁ hl₁ hn₁ =>
    cases h₂ with
    | message hp₂ => simp [hp₁] at hp₂
    | failed hp₂ => simp [hp₁] at hp₂
    | full hp₂ _ hn₂ =>
      obtain rfl : _ = _ := by simpa [hp₁] using hp₂
      refine .error rfl ?_
      intro he
      rw [hn₁ he, hn₂ he]
    | ended _ hl₂ => omega
  | ended hp₁ hl₁ =>
    cases h₂ with
    | message hp₂ => simp [hp₁] at hp₂
    | failed hp₂ => simp [hp₁] at hp₂
    | full _ hl₂ => omega
    | ended => exact .error rfl fun _ => rfl

theorem readMessages_same {m : MessageFormat M δ} (hm : m.Lawful) (k : ℕ) {b₁ b₂ : ReadBuf}
    {c₁ c₂ : Conn ε} (hb₁ : b₁.Ok) (hb₂ : b₂.Ok)
    (hs : b₁.bytes ++ c₁.rest = b₂.bytes ++ c₂.rest) (he : c₁.atEnd = c₂.atEnd) :
    ∃ rs₁ rs₂ : List (Except (ReadError ε η δ) M), readMessages m k b₁ c₁ = some rs₁ ∧
      readMessages m k b₂ c₂ = some rs₂ ∧ rs₁.map forgetNeed = rs₂.map forgetNeed ∧
      (m.Exact → rs₁ = rs₂) := by
  induction k generalizing b₁ b₂ c₁ c₂ with
  | zero => exact ⟨[], [], rfl, rfl, rfl, fun _ => rfl⟩
  | succ k ih =>
    obtain ⟨r₁, hr₁, ho₁⟩ : ∃ r : Except (ReadError ε η δ) (M × ReadBuf × Conn ε), _ ∧ _ :=
      readMessage_outcome hm b₁ hb₁ c₁
    obtain ⟨r₂, hr₂, ho₂⟩ : ∃ r : Except (ReadError ε η δ) (M × ReadBuf × Conn ε), _ ∧ _ :=
      readMessage_outcome hm b₂ hb₂ c₂
    rw [← hs, ← he] at ho₂
    rw [readMessages, readMessages, hr₁, hr₂]
    cases ho₁.same ho₂ with
    | message hok₁ hok₂ hs' he' =>
      next msg b₁ b₂ c₁ c₂ =>
      obtain ⟨rs₁, rs₂, h₁, h₂, hmap, hexact⟩ := ih hok₁ hok₂ hs' he'
      refine ⟨.ok msg :: rs₁, .ok msg :: rs₂, by simp [h₁], by simp [h₂], ?_, ?_⟩
      · rw [List.map_cons, List.map_cons, hmap]
      · intro hx
        rw [hexact hx]
    | error hforget hexact =>
      refine ⟨_, _, rfl, rfl, by simpa using hforget, ?_⟩
      intro hx
      rw [hexact hx]

/-- Messages of up to 255 bytes after a byte with their length, in one slice. -/
def lengthPrefixed : MessageFormat (List UInt8) Unit where
  deserialize first second :=
    if second ≠ [] then .error .needContiguous
    else
      match first with
      | [] => .error (.notEnoughData 1)
      | n :: rest =>
        if rest.length < n.toNat then .error (.notEnoughData (n.toNat - rest.length))
        else .ok (rest.take n.toNat, n.toNat + 1)

theorem lengthPrefixed_exact : lengthPrefixed.Exact := by
  intro bytes more n h hlt
  cases bytes with
  | nil =>
    simp only [lengthPrefixed, ne_eq, not_true_eq_false, if_false, Except.error.injEq,
      MessageDeserializeError.notEnoughData.injEq] at h
    subst h
    obtain rfl : more = [] := List.eq_nil_of_length_eq_zero (by omega)
    rfl
  | cons x rest =>
    simp only [lengthPrefixed, ne_eq, not_true_eq_false, if_false] at h
    split_ifs at h with hx
    simp only [Except.error.injEq, MessageDeserializeError.notEnoughData.injEq] at h
    simp only [lengthPrefixed, ne_eq, not_true_eq_false, if_false, List.cons_append]
    rw [if_pos (by rw [List.length_append]; omega), List.length_append]
    congr 2
    omega

theorem lengthPrefixed_lawful : lengthPrefixed.Lawful where
  split first second := by
    by_cases hs : second = []
    · exact Or.inl (by rw [hs, List.append_nil])
    · exact Or.inr ⟨hs, by simp [lengthPrefixed, hs]⟩
  contiguous bytes := by
    cases bytes with
    | nil => simp [lengthPrefixed]
    | cons x rest =>
      simp only [lengthPrefixed, ne_eq, not_true_eq_false, if_false]
      split_ifs <;> simp
  ok_append bytes more r h := by
    cases bytes with
    | nil => simp [lengthPrefixed] at h
    | cons x rest =>
      simp only [lengthPrefixed, ne_eq, not_true_eq_false, if_false, List.cons_append] at h ⊢
      split_ifs at h with hx
      rw [if_neg (by rw [List.length_append]; omega), List.take_append_of_le_length (by omega)]
      exact h
  other_append bytes more e h := by
    cases bytes with
    | nil => simp [lengthPrefixed] at h
    | cons x rest =>
      simp only [lengthPrefixed, ne_eq, not_true_eq_false, if_false] at h
      split_ifs at h
      simp at h
  size_le bytes msg size h := by
    cases bytes with
    | nil => simp [lengthPrefixed] at h
    | cons x rest =>
      simp only [lengthPrefixed, ne_eq, not_true_eq_false, if_false] at h
      split_ifs at h with hx
      simp only [Except.ok.injEq, Prod.mk.injEq] at h
      rw [List.length_cons]
      omega
  need_pos bytes n h := by
    cases bytes with
    | nil =>
      simp only [lengthPrefixed, ne_eq, not_true_eq_false, if_false, Except.error.injEq,
        MessageDeserializeError.notEnoughData.injEq] at h
      omega
    | cons x rest =>
      simp only [lengthPrefixed, ne_eq, not_true_eq_false, if_false] at h
      split_ifs at h with hx
      simp only [Except.error.injEq, MessageDeserializeError.notEnoughData.injEq] at h
      omega
  need_le bytes more n h hdec := by
    by_contra hlt
    exact hdec _ (lengthPrefixed_exact bytes more n h (by omega))

/-- Messages of 40000 bytes. -/
def chunkwise : MessageFormat Unit Unit where
  deserialize first second :=
    if first.length + second.length < 40000 then
      .error (.notEnoughData (min (40000 - (first.length + second.length)) 16384))
    else .ok ((), 40000)

theorem chunkwise_lawful : chunkwise.Lawful where
  split first second := Or.inl (by simp [chunkwise])
  contiguous bytes := by
    simp only [chunkwise]
    split_ifs <;> simp
  ok_append bytes more r h := by
    simp only [chunkwise, List.length_nil, Nat.add_zero, List.length_append] at h ⊢
    split_ifs at h with hl
    rw [if_neg (by omega)]
    exact h
  other_append bytes more e h := by
    simp only [chunkwise] at h
    split_ifs at h
    simp at h
  size_le bytes msg size h := by
    simp only [chunkwise, List.length_nil, Nat.add_zero] at h
    split_ifs at h with hl
    simp only [Except.ok.injEq, Prod.mk.injEq] at h
    omega
  need_pos bytes n h := by
    simp only [chunkwise, List.length_nil, Nat.add_zero] at h
    split_ifs at h with hl
    simp only [Except.error.injEq, MessageDeserializeError.notEnoughData.injEq] at h
    omega
  need_le bytes more n h hdec := by
    simp only [chunkwise, List.length_nil, Nat.add_zero] at h
    split_ifs at h with hl
    simp only [Except.error.injEq, MessageDeserializeError.notEnoughData.injEq] at h
    by_contra hlt
    refine hdec (min (40000 - (bytes ++ more).length) 16384) ?_
    simp only [chunkwise, List.length_nil, Nat.add_zero]
    rw [if_pos (by rw [List.length_append]; omega)]

section Chunkwise

variable {b : ReadBuf} {c : Conn Unit}

theorem readMore_zero (rounds : ℕ) (b : ReadBuf) (c : Conn Unit) :
    readMore rounds 0 b c = some (.ok (b, c) : Except (ReadError Unit Unit Unit) _) := by
  cases rounds <;> simp [readMore]

/-- A round that reads. -/
theorem readMore_read {rounds need : ℕ} (hneed : need ≠ 0) (hlt : b.len < bufLen)
    (hrest : c.rest ≠ []) :
    (readMore (rounds + 1) need b c : Option (Except (ReadError Unit Unit Unit) _)) =
      readMore rounds (need - c.nextSize (bufLen - b.len))
        (b.fill (c.rest.take (c.nextSize (bufLen - b.len))))
        ⟨c.rest.drop (c.nextSize (bufLen - b.len)), fun k => c.sizes (k + 1), c.atEnd⟩ := by
  have hpos := List.length_pos_iff.2 hrest
  have hfull : ¬ b.isFull = true := by
    simp only [isFull, beq_iff_eq]
    omega
  have hread : c.read (bufLen - b.len) = .ok (c.rest.take (c.nextSize (bufLen - b.len)),
      ⟨c.rest.drop (c.nextSize (bufLen - b.len)), fun k => c.sizes (k + 1), c.atEnd⟩) := by
    unfold Conn.read
    split
    · next h _ => exact absurd h hrest
    · rfl
  have hn : (c.rest.take (c.nextSize (bufLen - b.len))).length = c.nextSize (bufLen - b.len) := by
    rw [List.length_take]
    simp only [Conn.nextSize]
    omega
  have hn' : c.nextSize (bufLen - b.len) ≠ 0 := by
    simp only [Conn.nextSize]
    omega
  rw [readMore, if_neg hneed, if_neg hfull, hread]
  simp only [hn]
  rw [if_neg hn']

theorem readMore_full {rounds need : ℕ} (hneed : need ≠ 0) (hlen : b.len = bufLen) :
    readMore (rounds + 1) need b c =
      some (.error (.readBufFull (saturateU16 need)) : Except (ReadError Unit Unit Unit) _) := by
  rw [readMore, if_neg hneed, if_pos (by simp [isFull, hlen])]

theorem deserialize_chunkwise {n : ℕ} (hb : b.Ok) (hn : b.len = n) :
    chunkwise.deserialize b.asSlices.1 b.asSlices.2 =
      .error (.notEnoughData (min (40000 - n) 16384)) := by
  have hlen : b.asSlices.1.length + b.asSlices.2.length = n := by
    rw [← List.length_append, hb.asSlices_eq, length_bytes, hn]
  have hle : b.len ≤ 32768 := hb.len_le
  simp only [chunkwise, hlen]
  rw [if_pos (by omega)]

/-- The first read has `first` bytes, the second one fills the buffer. -/
theorem readMessages_chunkwise {stream : List UInt8} {sizes : ℕ → ℕ} (first : ℕ)
    (hstream : stream.length = 40000) (hfirst : sizes 0 = first) (hge : 16384 < first)
    (hle : first ≤ 32768) (hnext : 32768 ≤ sizes 1) :
    (readMessages chunkwise 1 new ⟨stream, sizes, .eof⟩ :
      Option (List (Except (ReadError Unit Unit Unit) Unit))) =
    some [.error (.readBufFull (saturateU16
      (min (40000 - first) 16384 - (32768 - first))))] := by
  have hbuf : bufLen = 32768 := rfl
  have hsize : (⟨stream, sizes, .eof⟩ : Conn Unit).nextSize (bufLen - new.len) = first := by
    simp only [Conn.nextSize, new, hbuf]
    omega
  have htake : (stream.take first).length = first := by
    rw [List.length_take]
    omega
  obtain ⟨hok, -⟩ : (new.fill (stream.take first)).Ok ∧ _ :=
    new_ok.fill (by rw [htake]; simp only [new, hbuf]; omega)
  have hlen : (new.fill (stream.take first)).len = first := by
    rw [fill, htake]
    exact Nat.zero_add _
  have hone : (readMore 16384 16384 new ⟨stream, sizes, .eof⟩ :
      Option (Except (ReadError Unit Unit Unit) _)) =
      some (.ok (new.fill (stream.take first),
        ⟨stream.drop first, fun k => sizes (k + 1), .eof⟩)) := by
    rw [readMore_read (by omega) (by decide) (by rintro rfl; simp at hstream), hsize,
      show 16384 - first = 0 by omega, readMore_zero]
  have htwo : (readMore (min (40000 - first) 16384) (min (40000 - first) 16384)
      (new.fill (stream.take first)) ⟨stream.drop first, fun k => sizes (k + 1), .eof⟩ :
      Option (Except (ReadError Unit Unit Unit) _)) =
      some (.error (.readBufFull (saturateU16
        (min (40000 - first) 16384 - (32768 - first))))) := by
    obtain ⟨need, hneed⟩ : ∃ need, min (40000 - first) 16384 = need + 2 :=
      ⟨min (40000 - first) 16384 - 2, by omega⟩
    rw [hneed]
    by_cases hfull : first = 32768
    · rw [readMore_full (by omega) (by rw [hlen, hfull, hbuf]), hfull]
      rfl
    · have hdrop : (stream.drop first).length = 40000 - first := by
        rw [List.length_drop, hstream]
      have hsize₂ : (⟨stream.drop first, fun k => sizes (k + 1), .eof⟩ : Conn Unit).nextSize
          (bufLen - (new.fill (stream.take first)).len) = 32768 - first := by
        simp only [Conn.nextSize, hlen, hbuf, hdrop, Nat.zero_add]
        omega
      have hrest : stream.drop first ≠ [] := by
        intro h
        rw [h, List.length_nil] at hdrop
        omega
      have hlen₂ : ((new.fill (stream.take first)).fill
          ((stream.drop first).take (32768 - first))).len = bufLen := by
        rw [fill, List.length_take, hdrop]
        simp only [hlen, hbuf]
        omega
      rw [readMore_read (by omega) (by rw [hlen, hbuf]; omega) hrest, hsize₂,
        readMore_full (by omega) hlen₂]
  have hneed : min (40000 - new.len) 16384 = 16384 := rfl
  have hloop (rounds : ℕ) : (readMessageLoop chunkwise (rounds + 2) new ⟨stream, sizes, .eof⟩ :
      Option (Except (ReadError Unit Unit Unit) _)) =
      some (.error (.readBufFull (saturateU16
        (min (40000 - first) 16384 - (32768 - first))))) := by
    simp only [readMessageLoop, deserialize_chunkwise new_ok rfl, hneed, hone,
      deserialize_chunkwise hok hlen, htwo]
  rw [readMessages, readMessage, hloop]

end Chunkwise

end ReadBuf

end Rtbit
