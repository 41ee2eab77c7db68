import Rtbit.Lib.Interleave
import Rtbit.Spec.StreamPriority

/-! The pieces of the streams come in the order of a round robin over their windows. A stream that has
bytes left asks for the pieces of its window as long as the end of the lookahead fits 64 bits; a stream at
the end of its file asks for the piece it ends inside of. -/

namespace Rtbit

namespace Streaming

variable {l : Lengths} {s : StreamState}

/-! One window. -/

/-- A stream of a file of the torrent. -/
structure StreamState.Inside (s : StreamState) (l : Lengths) : Prop where
  position_le : s.position ≤ s.fileLen
  file_le : s.fileAbsOffset + s.fileLen ≤ l.totalLength

/-- The piece has a byte of the file from the position on, not behind the lookahead. -/
def StreamState.InWindow (s : StreamState) (l : Lengths) (p : ValidPieceIndex l) : Prop :=
  ∃ b < min (s.position + perStreamBufDefault) s.fileLen, s.position ≤ b ∧
    p * l.defaultPieceLength ≤ s.fileAbsOffset + b ∧
    s.fileAbsOffset + b < p * l.defaultPieceLength + l.pieceLength p

instance (s : StreamState) (l : Lengths) (p : ValidPieceIndex l) : Decidable (s.InWindow l p) :=
  inferInstanceAs (Decidable (∃ b < min (s.position + perStreamBufDefault) s.fileLen, s.position ≤ b ∧
    p * l.defaultPieceLength ≤ s.fileAbsOffset + b ∧
    s.fileAbsOffset + b < p * l.defaultPieceLength + l.pieceLength p))

/-- The pieces of the window, in increasing order and without repetition. -/
def StreamState.IsWindow (s : StreamState) (l : Lengths) (w : List (ValidPieceIndex l)) : Prop :=
  w.Pairwise (· < ·) ∧ ∀ p, p ∈ w ↔ s.InWindow l p

/-- Before the end of the file the lookahead ends below `2 ^ 64`; at the end of the file a piece starts,
or the lookahead does not end below. -/
def StreamState.WindowFits (s : StreamState) (l : Lengths) : Prop :=
  if s.position < s.fileLen then
    s.fileAbsOffset + s.position + perStreamBufDefault < 2 ^ 64
  else
    l.defaultPieceLength ∣ s.fileAbsOffset + s.position ∨
      2 ^ 64 ≤ s.fileAbsOffset + s.position + perStreamBufDefault

instance (s : StreamState) (l : Lengths) : Decidable (s.WindowFits l) :=
  inferInstanceAs (Decidable (ite _ _ _))

theorem StreamState.Inside.inWindow_iff (h : s.Inside l) (p : ValidPieceIndex l) :
    s.InWindow l p ↔ s.position < s.fileLen ∧
      p * l.defaultPieceLength <
        min (s.fileAbsOffset + s.position + perStreamBufDefault) (s.fileAbsOffset + s.fileLen) ∧
      s.fileAbsOffset + s.position < p * l.defaultPieceLength + l.defaultPieceLength := by
  have hlen := l.pieceLength_eq p p.isLt
  have hstart := l.start_lt p p.isLt
  have hpos := l.pieceLength_pos p
  have hfile := h.file_le
  have hbuf : 0 < perStreamBufDefault := by decide
  unfold InWindow
  generalize perStreamBufDefault = buf at *
  generalize (p : ℕ) * l.defaultPieceLength = start at *
  constructor
  · rintro ⟨b, hb, hbpos, hle, hlt⟩
    omega
  · rintro ⟨hne, hstop, hnext⟩
    refine ⟨max start (s.fileAbsOffset + s.position) - s.fileAbsOffset, ?_, ?_, ?_, ?_⟩ <;> omega

/-- The end of the queue of a stream. -/
def StreamState.stop (s : StreamState) : ℕ :=
  min ((s.fileAbsOffset + s.position + perStreamBufDefault) % 2 ^ 64) (s.fileAbsOffset + s.fileLen)

theorem mem_validated {a b : ℕ} {p : ValidPieceIndex l} :
    p ∈ (List.range' a (b - a)).filterMap l.validatePieceIndex ↔ a ≤ p ∧ p < b := by
  simp only [List.mem_filterMap, l.validatePieceIndex_eq_some, exists_eq_right, List.mem_range'_1]
  omega

theorem validated_sorted (a b : ℕ) :
    ((List.range' a (b - a)).filterMap l.validatePieceIndex).Pairwise (· < ·) := by
  refine List.pairwise_filterMap.2 (List.Pairwise.imp (fun hlt p hp q hq => ?_) List.pairwise_lt_range')
  rw [l.validatePieceIndex_eq_some] at hp hq
  exact Fin.lt_def.2 (hp ▸ hq ▸ hlt)

theorem StreamState.Inside.queue_spec (h : s.Inside l) (hpos : 0 < l.defaultPieceLength) :
    ∃ w, s.queue l = some w ∧ w.Pairwise (· < ·) ∧ ∀ p, p ∈ w ↔
      p * l.defaultPieceLength < s.stop ∧
        s.fileAbsOffset + s.position < p * l.defaultPieceLength + l.defaultPieceLength := by
  have htotal := l.totalLength_lt
  have hcover := l.totalLength_le
  have hpieces := l.totalPieces_lt
  have hfile := h.file_le
  have hposition := h.position_le
  have hstop : s.stop ≤ l.totalLength := (Nat.min_le_right _ _).trans hfile
  have hqueue : s.queue l =
      if (s.fileAbsOffset + s.position) / l.defaultPieceLength < 2 ^ 32 ∧
          (s.stop + l.defaultPieceLength - 1) / l.defaultPieceLength < 2 ^ 32 then
        some ((List.range' ((s.fileAbsOffset + s.position) / l.defaultPieceLength)
          ((s.stop + l.defaultPieceLength - 1) / l.defaultPieceLength -
            (s.fileAbsOffset + s.position) / l.defaultPieceLength)).filterMap l.validatePieceIndex)
      else none := by
    unfold queue stop
    rw [Nat.mod_eq_of_lt (show s.fileAbsOffset + s.position < 2 ^ 64 by omega),
      Nat.mod_eq_of_lt (show s.fileAbsOffset + s.fileLen < 2 ^ 64 by omega)]
    exact if_neg hpos.ne'
  have hstart : (s.fileAbsOffset + s.position) / l.defaultPieceLength ≤ l.totalPieces :=
    Nat.div_le_of_le_mul (by rw [Nat.mul_comm]; omega)
  have hend : (s.stop + l.defaultPieceLength - 1) / l.defaultPieceLength ≤ l.totalPieces := by
    rw [← Nat.lt_succ_iff, Nat.div_lt_iff_lt_mul hpos, Nat.succ_mul]
    omega
  rw [if_pos ⟨by omega, by omega⟩] at hqueue
  refine ⟨_, hqueue, validated_sorted _ _, fun p => ?_⟩
  rw [mem_validated, Nat.lt_iff_add_one_le, Nat.le_div_iff_mul_le hpos, Nat.add_mul, Nat.one_mul,
    ← Nat.lt_succ_iff, Nat.div_lt_iff_lt_mul hpos, Nat.succ_mul, and_comm]
  refine and_congr_left fun _ => ?_
  omega

/-- The piece that the position is in. -/
theorem StreamState.Inside.exists_piece (h : s.Inside l) (hpos : 0 < l.defaultPieceLength)
    (hne : s.position < s.fileLen ∨ ¬ l.defaultPieceLength ∣ s.fileAbsOffset + s.position) :
    ∃ p : ValidPieceIndex l, p * l.defaultPieceLength ≤ s.fileAbsOffset + s.position ∧
      s.fileAbsOffset + s.position < p * l.defaultPieceLength + l.defaultPieceLength ∧
      (p * l.defaultPieceLength = s.fileAbsOffset + s.position →
        l.defaultPieceLength ∣ s.fileAbsOffset + s.position) := by
  have hcover := l.totalLength_le
  have hfile := h.file_le
  have hposition := h.position_le
  have hdiv := Nat.div_add_mod (s.fileAbsOffset + s.position) l.defaultPieceLength
  have hmod := Nat.mod_lt (s.fileAbsOffset + s.position) hpos
  rw [Nat.mul_comm] at hdiv
  have hlt : (s.fileAbsOffset + s.position) / l.defaultPieceLength < l.totalPieces := by
    by_contra hge
    have hmul := Nat.mul_le_mul_right l.defaultPieceLength (Nat.le_of_not_lt hge)
    rcases hne with hne | hne
    · omega
    · rw [Nat.dvd_iff_mod_eq_zero] at hne
      omega
  exact ⟨⟨_, hlt⟩, by simp only; omega, by simp only; omega, fun he => Dvd.intro_left _ he⟩

/-- The queue of a stream is its window exactly when the window fits. -/
theorem StreamState.Inside.queue_isWindow_iff (h : s.Inside l) (hpos : 0 < l.defaultPieceLength)
    (h32 : l.defaultPieceLength < 2 ^ 32) :
    ∃ w, s.queue l = some w ∧ (s.IsWindow l w ↔ s.WindowFits l) := by
  obtain ⟨w, hw, hsorted, hmem⟩ := h.queue_spec hpos
  refine ⟨w, hw, ?_⟩
  have htotal := l.totalLength_lt
  have hfile := h.file_le
  have hposition := h.position_le
  have hbuf : perStreamBufDefault = 33554432 := by decide
  unfold StreamState.IsWindow StreamState.WindowFits
  simp only [hsorted, true_and, hmem, h.inWindow_iff]
  unfold StreamState.stop
  generalize perStreamBufDefault = buf at *
  by_cases hwrap : s.fileAbsOffset + s.position + buf < 2 ^ 64
  · rw [Nat.mod_eq_of_lt hwrap]
    split_ifs with hne
    · exact iff_of_true (fun p => by rw [and_iff_right hne]) hwrap
    · constructor
      · intro hall
        by_contra hdvd
        rw [not_or] at hdvd
        obtain ⟨p, hle, hlt, heq⟩ := h.exists_piece hpos (.inr hdvd.1)
        have hstart := fun he => hdvd.1 (heq he)
        exact hne ((hall p).1 ⟨by omega, hlt⟩).1
      · rintro (⟨k, hk⟩ | hge) p
        · refine iff_of_false (fun hp => ?_) fun hp => hne hp.1
          have hbefore : p * l.defaultPieceLength < k * l.defaultPieceLength := by
            rw [Nat.mul_comm k]
            omega
          have hbehind : k * l.defaultPieceLength < (p + 1) * l.defaultPieceLength := by
            rw [Nat.mul_comm k, Nat.succ_mul]
            omega
          have := Nat.lt_of_mul_lt_mul_right hbefore
          have := Nat.lt_of_mul_lt_mul_right hbehind
          omega
        · omega
  · -- nothing is left of the queue, as the end of the lookahead lies before the position
    have hmod : (s.fileAbsOffset + s.position + buf) % 2 ^ 64 =
        s.fileAbsOffset + s.position + buf - 2 ^ 64 := by omega
    have hempty : ∀ p : ValidPieceIndex l, ¬ (p * l.defaultPieceLength <
        min ((s.fileAbsOffset + s.position + buf) % 2 ^ 64) (s.fileAbsOffset + s.fileLen) ∧
        s.fileAbsOffset + s.position < p * l.defaultPieceLength + l.defaultPieceLength) := fun p hp => by
      rw [hmod] at hp
      omega
    split_ifs with hne
    · refine iff_of_false (fun hall => ?_) hwrap
      obtain ⟨p, hle, hlt, -⟩ := h.exists_piece hpos (.inl hne)
      exact hempty p ((hall p).2 ⟨hne, by omega, hlt⟩)
    · exact iff_of_true (fun p => iff_of_false (hempty p) fun hp => hne hp.1)
        (.inr (Nat.le_of_not_lt hwrap))

/-! All the streams. -/

theorem next_eq {α : Type} (all : List (List α)) :
    (Interleave.mk all).next = (Lib.pop all).map fun r => (r.1, ⟨r.2⟩) := by
  induction all with
  | nil => rfl
  | cons it all ih =>
    cases it with
    | nil => exact ih
    | cons piece it => rfl

theorem collect_next {α : Type} (all : List (List α)) (fuel : ℕ) :
    Lib.collect Interleave.next fuel ⟨all⟩ = Lib.collect Lib.pop fuel all := by
  induction fuel generalizing all with
  | zero => rfl
  | succ fuel ih =>
    simp only [Lib.collect, next_eq]
    cases Lib.pop all with
    | none => rfl
    | some r => exact congrArg (Option.map (r.1 :: ·)) (ih r.2)

/-- What stands with each stream, under its id. -/
def Listed (P : StreamState → List (ValidPieceIndex l) → Prop) (streams : List (ℕ × StreamState))
    (lists : List (ℕ × List (ValidPieceIndex l))) : Prop :=
  List.Forall₂ (fun s w => w.1 = s.1 ∧ P s.2 w.2) streams lists

variable {P Q : StreamState → List (ValidPieceIndex l) → Prop} {streams order : List (ℕ × StreamState)}
  {lists queues : List (ℕ × List (ValidPieceIndex l))}

theorem Listed.keys (h : Listed P streams lists) : lists.map Prod.fst = streams.map Prod.fst := by
  induction h with
  | nil => rfl
  | cons hw _ ih => rw [List.map_cons, List.map_cons, ih, hw.1]

theorem Listed.mem (h : Listed P streams lists) {s : ℕ × StreamState} (hs : s ∈ streams) :
    ∃ w, (s.1, w) ∈ lists ∧ P s.2 w := by
  induction h with
  | nil => simp at hs
  | @cons s' w _ _ hw _ ih =>
    rcases List.mem_cons.1 hs with rfl | hs
    · exact ⟨w.2, by rw [← hw.1]; exact List.mem_cons_self, hw.2⟩
    · obtain ⟨w', hmem, hp⟩ := ih hs
      exact ⟨w', List.mem_cons_of_mem _ hmem, hp⟩

theorem exists_listed (h : ∀ s ∈ streams, ∃ w, P s.2 w) : ∃ lists, Listed P streams lists := by
  induction streams with
  | nil => exact ⟨[], .nil⟩
  | cons s streams ih =>
    obtain ⟨w, hw⟩ := h s List.mem_cons_self
    obtain ⟨lists, hlists⟩ := ih fun s' hs' => h s' (List.mem_cons_of_mem _ hs')
    exact ⟨(s.1, w) :: lists, .cons ⟨rfl, hw⟩ hlists⟩

/-- What `iter_next_pieces` yields from the streams in some order, each item with its stream. -/
def Yields (l : Lengths) (order : List (ℕ × StreamState)) (T : List (ℕ × ValidPieceIndex l)) : Prop :=
  ∃ queues, Listed (fun s q => s.queue l = some q) order queues ∧
    iterNextPieces l order = some ⟨queues.map Prod.snd⟩ ∧
    (∃ fuel, Lib.collect Interleave.next fuel ⟨queues.map Prod.snd⟩ = some (T.map Prod.snd)) ∧
    ∃ fuel, Lib.collect Interleave.next fuel ⟨Lib.tag queues⟩ = some T

/-- It yields the round robin of the queues. -/
theorem Listed.yields (h : Listed (fun s q => s.queue l = some q) order queues) :
    Yields l order (Lib.roundRobin (Lib.tag queues)) := by
  refine ⟨queues, h, ?_, ⟨Lib.items (queues.map Prod.snd) + 1, ?_⟩,
    Lib.items (Lib.tag queues) + 1, ?_⟩
  · have hall : (order.mapM fun s => s.2.queue l) = some (queues.map Prod.snd) := by
      induction h with
      | nil => rfl
      | cons hw _ ih =>
        rw [List.mapM_cons, hw.2, ih]
        rfl
    rw [iterNextPieces, hall]
    rfl
  · rw [collect_next, Lib.collect_eq _ (Nat.lt_succ_self _), ← Lib.roundRobin_map, Lib.tag_untag]
  · rw [collect_next, Lib.collect_eq _ (Nat.lt_succ_self _)]

theorem Yields.eq {T : List (ℕ × ValidPieceIndex l)} (h : Yields l order T) :
    ∃ queues, Listed (fun s q => s.queue l = some q) order queues ∧
      T = Lib.roundRobin (Lib.tag queues) := by
  obtain ⟨queues, hlisted, -, -, fuel, hcollect⟩ := h
  rw [collect_next] at hcollect
  exact ⟨queues, hlisted, Lib.eq_roundRobin_of_collect hcollect⟩

/-- The round robin of the windows in some order of the streams; each piece as often as there are
streams whose window has it; and between an item of a stream and its next one, one item of every other
stream that has one left. -/
structure IsPriorityOrder (l : Lengths) (streams : List (ℕ × StreamState))
    (T : List (ℕ × ValidPieceIndex l)) : Prop where
  roundRobin : ∃ order windows, order.Perm streams ∧ Listed (fun s w => s.IsWindow l w) order windows ∧
    T = Lib.roundRobin (Lib.tag windows)
  count : ∀ p, (T.map Prod.snd).count p = streams.countP fun s => s.2.InWindow l p
  fair : ∀ A B C i p q, T = A ++ (i, p) :: (B ++ (i, q) :: C) → (∀ z ∈ B, z.1 ≠ i) → ∀ j ≠ i,
    (B.map Prod.fst).count j = if j ∈ (B ++ C).map Prod.fst then 1 else 0

theorem Listed.count {windows : List (ℕ × List (ValidPieceIndex l))}
    (h : Listed (fun s w => s.IsWindow l w) order windows) (p : ValidPieceIndex l) :
    (windows.map Prod.snd).flatten.count p = order.countP fun s => s.2.InWindow l p := by
  induction h with
  | nil => rfl
  | @cons s w _ _ hw _ ih =>
    rw [List.map_cons, List.flatten_cons, List.count_append, ih, List.countP_cons, Nat.add_comm]
    have hnodup : w.2.Nodup := hw.2.1.imp fun hlt => hlt.ne
    rw [hnodup.count]
    simp only [hw.2.2 p, decide_eq_true_eq]

/-- Windows in turn are a priority order. -/
theorem Listed.isPriorityOrder {windows : List (ℕ × List (ValidPieceIndex l))}
    (hids : (streams.map Prod.fst).Nodup) (hperm : order.Perm streams)
    (h : Listed (fun s w => s.IsWindow l w) order windows) :
    IsPriorityOrder l streams (Lib.roundRobin (Lib.tag windows)) := by
  have hkeys : (windows.map Prod.fst).Nodup := by
    rw [h.keys]
    exact ((hperm.map Prod.fst).nodup_iff).2 hids
  refine ⟨⟨order, windows, hperm, h, rfl⟩, fun p => ?_, fun A B C i p q hT hB j hj => ?_⟩
  · rw [← Lib.roundRobin_map, Lib.tag_untag, (Lib.roundRobin_perm _).count_eq, h.count,
      hperm.countP_eq]
  · exact Lib.roundRobin_fair (Lib.tag_owned hkeys) hT rfl hB hj

/-- `iter_next_pieces` terminates and yields the priority order, in whatever order the map and the
shuffle leave the streams, exactly when the window of every stream fits. -/
theorem yields_iff_windowsFit (hpos : 0 < l.defaultPieceLength) (h32 : l.defaultPieceLength < 2 ^ 32)
    (hids : (streams.map Prod.fst).Nodup) (hin : ∀ s ∈ streams, s.2.Inside l) :
    (∀ order, order.Perm streams → ∃ T, Yields l order T ∧ IsPriorityOrder l streams T) ↔
      ∀ s ∈ streams, s.2.WindowFits l := by
  constructor
  · intro hall s hs
    obtain ⟨T, hyields, ⟨order, windows, hperm, hwindows, hT⟩, -, -⟩ := hall streams (.refl _)
    obtain ⟨queues, hqueues, rfl⟩ := hyields.eq
    obtain ⟨q, hq, hqueue⟩ := hqueues.mem hs
    obtain ⟨w, hw, hwindow⟩ := hwindows.mem (hperm.mem_iff.2 hs)
    have hqkeys : (queues.map Prod.fst).Nodup := by
      rwa [hqueues.keys]
    have hwkeys : (windows.map Prod.fst).Nodup := by
      rw [hwindows.keys]
      exact ((hperm.map Prod.fst).nodup_iff).2 hids
    -- what the round robin has of the stream is its queue, and its window
    have hsame : q.map (Prod.mk s.1) = w.map (Prod.mk s.1) := by
      rw [← Lib.filter_tag hqkeys hq, hT, Lib.filter_tag hwkeys hw]
    have hqw : q = w := List.map_injective_iff.2 (Prod.mk_right_injective s.1) hsame
    obtain ⟨w', hw', hiff⟩ := (hin s hs).queue_isWindow_iff hpos h32
    rw [hqueue] at hw'
    cases hw'
    exact hiff.1 (hqw ▸ hwindow)
  · intro hfits order hperm
    have hboth : ∀ s ∈ order, ∃ w, s.2.queue l = some w ∧ s.2.IsWindow l w := fun s hs => by
      have hs' := hperm.mem_iff.1 hs
      obtain ⟨w, hw, hiff⟩ := (hin s hs').queue_isWindow_iff hpos h32
      exact ⟨w, hw, hiff.2 (hfits s hs')⟩
    obtain ⟨windows, hlisted⟩ :=
      @exists_listed l (fun s w => s.queue l = some w ∧ s.IsWindow l w) order hboth
    have hqueues : Listed (fun s q => s.queue l = some q) order windows :=
      hlisted.imp fun _ _ hw => ⟨hw.1, hw.2.1⟩
    have hwindows : Listed (fun s w => s.IsWindow l w) order windows :=
      hlisted.imp fun _ _ hw => ⟨hw.1, hw.2.2⟩
    exact ⟨_, hqueues.yields, hwindows.isPriorityOrder hids hperm⟩

def twelves : Lengths :=
  .new 24 12 (by decide) (by decide) (by decide) (by decide)

theorem twoStreams_yield :
    ∃ T, Yields twelves [(2, ⟨0, 24, 0, 18, false⟩), (1, ⟨0, 24, 0, 0, false⟩)] T ∧
      IsPriorityOrder twelves [(1, ⟨0, 24, 0, 0, false⟩), (2, ⟨0, 24, 0, 18, false⟩)] T :=
  (yields_iff_windowsFit (by decide) (by decide) (by decide) (by
    simp only [List.forall_mem_cons]
    exact ⟨⟨by decide, by decide⟩, ⟨by decide, by decide⟩, by simp⟩)).2 (by decide) _ (.swap _ _ _)

/-- A stream at the end of its file, inside the second piece, asks for that piece. -/
theorem endOfFile_not_priorityOrder :
    Yields twelves [(1, ⟨0, 18, 0, 18, false⟩)] [(1, ⟨1, by decide⟩)] ∧
    ∀ T, Yields twelves [(1, ⟨0, 18, 0, 18, false⟩)] T →
      ¬ IsPriorityOrder twelves [(1, ⟨0, 18, 0, 18, false⟩)] T := by
  have hqueue : (StreamState.mk 0 18 0 18 false).queue twelves = some [⟨1, by decide⟩] := by
    decide +kernel
  have hlisted : @Listed twelves (fun s q => s.queue twelves = some q)
      [(1, ⟨0, 18, 0, 18, false⟩)] [(1, [⟨1, by decide⟩])] := .cons ⟨rfl, hqueue⟩ .nil
  refine ⟨hlisted.yields, fun T hT horder => ?_⟩
  obtain ⟨queues, hqueues, rfl⟩ := hT.eq
  cases hqueues with
  | @cons _ w _ _ hw hrest =>
    cases hrest
    obtain ⟨i, q⟩ := w
    obtain ⟨rfl, hq⟩ := hw
    cases hqueue.symm.trans hq
    have hcount := horder.count ⟨1, by decide⟩
    have hzero : [(1, StreamState.mk 0 18 0 18 false)].countP
        (fun s => s.2.InWindow twelves ⟨1, by decide⟩) = 0 := by decide +kernel
    rw [hzero] at hcount
    exact absurd hcount (by decide +kernel)

end Streaming

end Rtbit
