import Rtbit.Sanity.ChunkBits
import Rtbit.Sanity.Torrent

/-! The results of `mark_chunk_downloaded` over a run. As long as the bits of a piece are not
cleared they only grow, by the chunks that arrive; so `Completed` comes with the last missing chunk
of the piece and not again. -/

namespace Rtbit

open Lib

namespace ChunkTracker

/-- The calls that change chunk bits. -/
inductive MarkCall (l : Lengths) where
  | chunk (piece : PieceMsg)
  | broken (index : ValidPieceIndex l)
  deriving DecidableEq

variable {l : Lengths} {t : ChunkTracker l} {p q : ValidPieceIndex l} {i j k : ℕ} {m : PieceMsg}
  {call : MarkCall l} {calls : List (MarkCall l)}

def MarkCall.run (t : ChunkTracker l) : MarkCall l → ChunkTracker l
  | .chunk piece => ((t.markChunkDownloaded piece).map Prod.snd).getD t
  | .broken index => t.markPieceBrokenIfNotHave index

/-- The tracker after the calls. -/
def after (t : ChunkTracker l) (calls : List (MarkCall l)) : ChunkTracker l :=
  calls.foldl MarkCall.run t

/-- What `mark_chunk_downloaded` returns after the calls. -/
def marked (t : ChunkTracker l) (calls : List (MarkCall l)) (m : PieceMsg) :
    Option ChunkMarkingResult :=
  ((t.after calls).markChunkDownloaded m).map Prod.fst

/-- The piece whose bits a call may change. -/
def MarkCall.Touches (p : ValidPieceIndex l) : MarkCall l → Prop
  | .chunk piece => piece.index = p
  | .broken index => index = p

/-- The chunk was there at the beginning, or has arrived. -/
def Held (t : ChunkTracker l) (calls : List (MarkCall l)) (p : ValidPieceIndex l) (j : ℕ) : Prop :=
  t.chunkBit p j = true ∨ ∃ m, .chunk m ∈ calls ∧ l.IsChunk m p j

def Full (t : ChunkTracker l) (calls : List (MarkCall l)) (p : ValidPieceIndex l) : Prop :=
  ∀ j < l.chunksPerPiece p, t.Held calls p j

/-! One call. -/

theorem run_eq_self (h : t.markChunkDownloaded m = none) : MarkCall.run t (.chunk m) = t := by
  rw [MarkCall.run, h]
  rfl

theorem run_have : (call.run t).havePieces = t.havePieces := by
  cases call with
  | chunk m =>
    cases hm : t.markChunkDownloaded m with
    | none => rw [run_eq_self hm]
    | some r =>
      obtain ⟨r, t'⟩ := r
      rw [MarkCall.run, hm]
      exact (chunk_same hm).have_
  | broken q => exact broken_have t q

theorem run_chunk_bit (h : l.IsChunk m p i) (hj : j < l.chunksPerPiece q) :
    (MarkCall.run t (.chunk m)).chunkBit q j =
      if p = q ∧ i = j then true else t.chunkBit q j := by
  rw [MarkCall.run, markChunk_eq h]
  split_ifs with hall hfull hnew hnew
  all_goals simp only [Option.map_some, Option.getD_some]
  · obtain ⟨rfl, rfl⟩ := hfull
    exact hall i hj
  all_goals rw [setChunk_bit h.lt hj]
  · rw [if_pos hnew]
  · rw [if_neg hnew]
  · rw [if_pos ‹_›]
  · rw [if_neg ‹_›]

/-- The bits of the other pieces stay as they are. -/
theorem run_bit_other (h : ¬call.Touches q) (hj : j < l.chunksPerPiece q) :
    (call.run t).chunkBit q j = t.chunkBit q j := by
  cases call with
  | chunk m =>
    by_cases hchunk : ∃ p i, l.IsChunk m p i
    · obtain ⟨p, i, hchunk⟩ := hchunk
      rw [run_chunk_bit hchunk hj, if_neg]
      rintro ⟨rfl, -⟩
      exact h hchunk.index_eq
    · rw [run_eq_self (markChunk_eq_none_iff.2 hchunk)]
  | broken p =>
    rw [MarkCall.run, broken_bit hj, if_neg (fun he => h he.1)]

/-- A call that does not clear the piece adds the chunk it brings. -/
theorem run_bit (hclear : t.havePieces.get p = false → call ≠ .broken p)
    (hj : j < l.chunksPerPiece p) : (call.run t).chunkBit p j = true ↔ t.Held [call] p j := by
  cases call with
  | chunk m =>
    simp only [Held, List.mem_singleton, MarkCall.chunk.injEq, exists_eq_left]
    by_cases hchunk : ∃ q i, l.IsChunk m q i
    · obtain ⟨q, i, hchunk⟩ := hchunk
      rw [run_chunk_bit hchunk hj]
      split_ifs with he
      · obtain ⟨rfl, rfl⟩ := he
        exact iff_of_true rfl (Or.inr hchunk)
      · rw [or_iff_left]
        exact fun hother => he (hchunk.unique hother)
    · rw [run_eq_self (markChunk_eq_none_iff.2 hchunk), or_iff_left]
      exact fun h => hchunk ⟨p, j, h⟩
  | broken q =>
    have hkept : ¬(q = p ∧ t.havePieces.get q = false) := by
      rintro ⟨rfl, hhave⟩
      exact hclear hhave rfl
    rw [MarkCall.run, broken_bit hj, if_neg hkept]
    simp [Held]

/-! A run. -/

theorem after_have (t : ChunkTracker l) (calls : List (MarkCall l)) :
    (t.after calls).havePieces = t.havePieces := by
  unfold after
  induction calls generalizing t with
  | nil => rfl
  | cons call calls ih => rw [List.foldl_cons, ih, run_have]

theorem after_append (t : ChunkTracker l) (calls calls' : List (MarkCall l)) :
    t.after (calls ++ calls') = (t.after calls).after calls' :=
  List.foldl_append

theorem after_bit (hclear : t.havePieces.get p = false → .broken p ∉ calls)
    (hj : j < l.chunksPerPiece p) : (t.after calls).chunkBit p j = true ↔ t.Held calls p j := by
  induction calls using List.reverseRecOn with
  | nil => simp [after, Held]
  | append_singleton calls call ih =>
    have hcalls : t.havePieces.get p = false → .broken p ∉ calls := by
      intro hhave hmem
      exact hclear hhave (List.mem_append_left _ hmem)
    have hcall : (t.after calls).havePieces.get p = false → call ≠ .broken p := by
      rw [after_have]
      rintro hhave rfl
      exact hclear hhave (List.mem_append_right _ (List.mem_singleton_self _))
    rw [after_append]
    refine (run_bit hcall hj).trans ?_
    simp only [Held] at ih ⊢
    rw [ih hcalls]
    simp only [List.mem_append, or_and_right, exists_or, or_assoc]

theorem held_append_chunk {m : PieceMsg} :
    t.Held (calls ++ [.chunk m]) p j ↔ t.Held calls p j ∨ l.IsChunk m p j := by
  simp only [Held, List.mem_append, List.mem_singleton, MarkCall.chunk.injEq, or_and_right,
    exists_or, exists_eq_left, or_assoc]

theorem Full.append {calls' : List (MarkCall l)} (h : t.Full calls p) :
    t.Full (calls ++ calls') p := by
  intro j hj
  rcases h j hj with hbit | ⟨m, hm, hchunk⟩
  · exact Or.inl hbit
  · exact Or.inr ⟨m, List.mem_append_left _ hm, hchunk⟩

/-- The result says whether the piece was full before the chunk, and whether it is now. -/
theorem marked_iff (hclear : t.havePieces.get p = false → .broken p ∉ calls)
    (h : l.IsChunk m p i) :
    (t.marked calls m = some .previouslyCompleted ↔ t.Full calls p) ∧
      (t.marked calls m = some .completed ↔
        ¬t.Full calls p ∧ t.Full (calls ++ [.chunk m]) p) ∧
      (t.marked calls m = some .notCompleted ↔ ¬t.Full (calls ++ [.chunk m]) p) := by
  have hbefore : (∀ j < l.chunksPerPiece p, (t.after calls).chunkBit p j = true) ↔
      t.Full calls p :=
    forall₂_congr fun j hj => after_bit hclear hj
  have hafter : (∀ j < l.chunksPerPiece p, ((t.after calls).setChunk p i).chunkBit p j = true) ↔
      t.Full (calls ++ [.chunk m]) p := by
    refine forall₂_congr fun j hj => ?_
    rw [setChunk_bit h.lt hj, held_append_chunk, ← after_bit hclear hj]
    split_ifs with he
    · obtain ⟨-, rfl⟩ := he
      exact iff_of_true rfl (Or.inr h)
    · rw [or_iff_left]
      exact fun hj => he ⟨rfl, (h.unique hj).2⟩
  have hgrow : t.Full calls p → t.Full (calls ++ [.chunk m]) p := Full.append
  rw [marked, markChunk_eq h]
  by_cases hb : t.Full calls p
  · rw [if_pos (hbefore.2 hb)]
    simp [hb, hgrow hb]
  · rw [if_neg (mt hbefore.1 hb)]
    by_cases ha : t.Full (calls ++ [.chunk m]) p
    · rw [if_pos (hafter.2 ha)]
      simp [hb, ha]
    · rw [if_neg (mt hafter.1 ha)]
      simp [hb, ha]

theorem take_succ_chunk (h : calls[k]? = some (.chunk m)) :
    calls.take (k + 1) = calls.take k ++ [.chunk m] := by
  rw [List.take_add_one, h]
  rfl

/-- From any state of the tracker, such as the one after earlier calls. Every call: data is refused,
without a change, exactly if it is no chunk, and the bits of other pieces stay as they are. And for
a piece whose bits no call clears, the results are `PreviouslyCompleted` once all its chunks are
there, `Completed` for the chunk that is the last, `NotCompleted` before; so that `Completed` comes
at most once. -/
theorem chunk_completion (l : Lengths) (t : ChunkTracker l) (calls : List (MarkCall l)) :
    (∀ k call, calls[k]? = some call →
      (∀ m, call = .chunk m →
        (t.marked (calls.take k) m = none ↔ ¬∃ p i, l.IsChunk m p i) ∧
        (t.marked (calls.take k) m = none →
          t.after (calls.take (k + 1)) = t.after (calls.take k))) ∧
      ∀ q : ValidPieceIndex l, ¬call.Touches q → ∀ j < l.chunksPerPiece q,
        (t.after (calls.take (k + 1))).chunkBit q j = (t.after (calls.take k)).chunkBit q j) ∧
    ∀ p : ValidPieceIndex l, (t.havePieces.get p = false → .broken p ∉ calls) →
      ∀ k m i, calls[k]? = some (.chunk m) → l.IsChunk m p i →
        (t.marked (calls.take k) m = some .previouslyCompleted ↔ t.Full (calls.take k) p) ∧
        (t.marked (calls.take k) m = some .completed ↔
          ¬t.Full (calls.take k) p ∧ t.Full (calls.take (k + 1)) p) ∧
        (t.marked (calls.take k) m = some .notCompleted ↔ ¬t.Full (calls.take (k + 1)) p) ∧
        ∀ k' m' i', k < k' → calls[k']? = some (.chunk m') → l.IsChunk m' p i' →
          (t.marked (calls.take k) m = some .completed →
            t.marked (calls.take k') m' = some .previouslyCompleted) ∧
          (t.marked (calls.take k') m' = some .completed →
            t.marked (calls.take k) m = some .notCompleted) := by
  constructor
  · intro k call hk
    have hsucc : t.after (calls.take (k + 1)) = call.run (t.after (calls.take k)) := by
      rw [List.take_add_one, hk, after_append]
      rfl
    rw [hsucc]
    refine ⟨?_, fun q hq j hj => run_bit_other hq hj⟩
    rintro m rfl
    simp only [marked, Option.map_eq_none_iff]
    exact ⟨markChunk_eq_none_iff, run_eq_self⟩
  · intro p hclear
    have hclear (k : ℕ) : t.havePieces.get p = false → .broken p ∉ calls.take k :=
      fun hhave hmem => hclear hhave (List.mem_of_mem_take hmem)
    have hmono {a b : ℕ} (hab : a ≤ b) (h : t.Full (calls.take a) p) : t.Full (calls.take b) p := by
      obtain ⟨rest, hrest⟩ := List.take_prefix_take_left (l := calls) hab
      rw [← hrest]
      exact h.append
    have hresult (k : ℕ) (m : PieceMsg) (i : ℕ) (hk : calls[k]? = some (.chunk m))
        (h : l.IsChunk m p i) :
        (t.marked (calls.take k) m = some .previouslyCompleted ↔ t.Full (calls.take k) p) ∧
          (t.marked (calls.take k) m = some .completed ↔
            ¬t.Full (calls.take k) p ∧ t.Full (calls.take (k + 1)) p) ∧
          (t.marked (calls.take k) m = some .notCompleted ↔ ¬t.Full (calls.take (k + 1)) p) := by
      rw [take_succ_chunk hk]
      exact marked_iff (hclear k) h
    intro k m i hk h
    obtain ⟨hprev, hcompleted, hnot⟩ := hresult k m i hk h
    refine ⟨hprev, hcompleted, hnot, ?_⟩
    intro k' m' i' hlt hk' h'
    have hlater : t.Full (calls.take (k + 1)) p → t.Full (calls.take k') p := hmono hlt
    obtain ⟨hprev', hcompleted', -⟩ := hresult k' m' i' hk' h'
    exact ⟨fun hc => hprev'.2 (hlater (hcompleted.1 hc).2),
      fun hc => hnot.2 fun hfull => (hcompleted'.1 hc).1 (hlater hfull)⟩

/-- A piece of two chunks, and one of 232 bytes. -/
def shortLast : Lengths := Lengths.new 33000 (2 ^ 15) (by decide) (by decide) (by decide) (by decide)

/-- Nothing is there yet. -/
def emptyTracker : ChunkTracker shortLast where
  queuePieces := Bits.zeros 8
  chunkStatus := Bits.zeros 8
  havePieces := Bits.zeros 8
  selected := Bits.zeros 8
  perFileBytes := []
  hns := .zero
  queue_len := by decide +kernel
  have_len := by decide +kernel
  selected_len := by decide +kernel
  chunk_len := by decide +kernel

/-- The second chunk twice, a piece that is marked as broken, data that is no chunk, the first
chunk, and the second again. -/
def shortCalls : List (MarkCall shortLast) :=
  [.chunk ⟨0, 16384, 16384⟩, .chunk ⟨0, 16384, 16384⟩, .broken ⟨1, by decide⟩, .chunk ⟨1, 0, 233⟩,
    .chunk ⟨0, 0, 16384⟩, .chunk ⟨0, 16384, 16384⟩]

/-- The first chunk is the last missing one. -/
theorem shortCalls_completed :
    ¬emptyTracker.Full (shortCalls.take 4) ⟨0, by decide⟩ ∧
      emptyTracker.Full (shortCalls.take 5) ⟨0, by decide⟩ ∧
      emptyTracker.marked (shortCalls.take 5) ⟨0, 16384, 16384⟩ = some .previouslyCompleted := by
  have hfirst : shortLast.IsChunk ⟨0, 0, 16384⟩ ⟨0, by decide⟩ 0 := ⟨rfl, by decide +kernel⟩
  have hsecond : shortLast.IsChunk ⟨0, 16384, 16384⟩ ⟨0, by decide⟩ 1 := ⟨rfl, by decide +kernel⟩
  have hmarked : emptyTracker.marked (shortCalls.take 4) ⟨0, 0, 16384⟩ = some .completed := by
    decide +kernel
  obtain ⟨-, hcompleted, -, hlater⟩ := (chunk_completion shortLast emptyTracker shortCalls).2
    ⟨0, by decide⟩ (fun _ => by decide +kernel) 4 _ 0 rfl hfirst
  obtain ⟨hbefore, hfull⟩ := hcompleted.1 hmarked
  exact ⟨hbefore, hfull, (hlater 5 _ 1 (by decide) rfl hsecond).1 hmarked⟩

end ChunkTracker

end Rtbit
