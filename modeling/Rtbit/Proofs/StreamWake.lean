import Rtbit.Lib.Runs
import Rtbit.Sanity.Torrent
import Rtbit.Spec.Streams

/-! Streams that wait for a piece. A piece is marked first and the streams are woken later, by the
live state that marked it and in its own `TorrentStreams`: a pause in between takes the pieces and
the wake fails, and a torrent that is initialized again wakes only the streams made since. -/

namespace Rtbit

open Lib

namespace Streams

variable {l : Lengths} {computeCurrentPiece : ℕ → ℕ → Option (CurrentPiece l)}

namespace FileStream

variable {f : FileStream} {p : ValidPieceIndex l}

/-- The last poll has returned `Pending`, and its waker is registered. -/
def Parked (f : FileStream) : Prop := f.pending = true ∧ f.waker = true

instance (f : FileStream) : Decidable f.Parked := inferInstanceAs (Decidable (_ ∧ _))

variable (computeCurrentPiece) in
/-- The piece at the position of the stream. -/
def At (f : FileStream) (p : ValidPieceIndex l) : Prop :=
  (f.currentPiece computeCurrentPiece).map CurrentPiece.id = some p

instance (f : FileStream) (p : ValidPieceIndex l) : Decidable (f.At computeCurrentPiece p) :=
  inferInstanceAs (Decidable (_ = _))

/-- A poll is ready, or it registers its waker at a piece that the torrent does not have. -/
theorem pollRead_cases (f : FileStream) (havePieces : Option (Finset (ValidPieceIndex l)))
    (bufLen : ℕ) (readOk : Bool) :
    (f.pollRead computeCurrentPiece havePieces bufLen readOk).pending = false ∨
      ∃ current pieces, f.currentPiece computeCurrentPiece = some current ∧
        havePieces = some pieces ∧ current.id ∉ pieces ∧
        f.pollRead computeCurrentPiece havePieces bufLen readOk = f.registerWaker := by
  unfold pollRead
  split
  · exact Or.inl rfl
  · split
    · exact Or.inl rfl
    · exact Or.inl rfl
    · rename_i current pieces hc
      split_ifs with hhave
      · exact Or.inl rfl
      · exact Or.inl rfl
      · exact Or.inr ⟨current, pieces, hc, rfl, hhave, rfl⟩

theorem pollRead_parked {havePieces : Option (Finset (ValidPieceIndex l))} {bufLen : ℕ}
    {readOk : Bool}
    (h : (f.pollRead computeCurrentPiece havePieces bufLen readOk).Parked)
    (hat : (f.pollRead computeCurrentPiece havePieces bufLen readOk).At computeCurrentPiece p) :
    ∀ pieces ∈ havePieces, p ∉ pieces := by
  rcases pollRead_cases f havePieces bufLen readOk with hr | ⟨current, pieces, hc, hp, hnot, hr⟩
  · exact absurd (hr.symm.trans h.1) Bool.false_ne_true
  · intro pieces' hp'
    obtain rfl := Option.some.inj (hp.symm.trans hp')
    rw [hr] at hat
    have hid : some current.id = some p := by
      rw [← hat]
      change _ = (f.currentPiece computeCurrentPiece).map CurrentPiece.id
      rw [hc, Option.map_some]
    rw [← Option.some.inj hid]
    exact hnot

theorem not_parked_seek {newPos : ℕ} (h : (f.seek newPos).Parked) : f.seek newPos = f := by
  unfold seek at h ⊢
  split_ifs at h ⊢
  · cases h.1
  · rfl

/-- A stream that is parked after a wake was parked before, and is not one that was to be woken. -/
theorem parked_of_wake {streams : ℕ} {id : ValidPieceIndex l}
    (h : (f.wakeOnPieceCompleted computeCurrentPiece streams id).Parked) :
    f.wakeOnPieceCompleted computeCurrentPiece streams id = f ∧
      ¬(f.streams = streams ∧ f.At computeCurrentPiece id) := by
  unfold wakeOnPieceCompleted at h ⊢
  split_ifs at h ⊢ with hw
  · cases h.2
  · exact ⟨rfl, hw⟩

end FileStream

namespace Torrent

variable {t t' : Torrent l} {n : ℕ} {id p : ValidPieceIndex l}

def Have (t : Torrent l) (p : ValidPieceIndex l) : Prop := ∃ pieces ∈ t.havePieces, p ∈ pieces

instance (t : Torrent l) (p : ValidPieceIndex l) : Decidable (t.Have p) :=
  inferInstanceAs (Decidable (∃ pieces ∈ t.havePieces, p ∈ pieces))

/-- An `on_piece_completed` is still to come that wakes the streams of `streams` at the piece. -/
def Outstanding (t : Torrent l) (streams : ℕ) (p : ValidPieceIndex l) : Prop :=
  ∃ c ∈ t.completed, c.id = p ∧ ∃ live ∈ t.lives[c.live]?, live.pieces.isSome ∧
    live.streams = streams

instance (t : Torrent l) (streams : ℕ) (p : ValidPieceIndex l) :
    Decidable (t.Outstanding streams p) :=
  inferInstanceAs (Decidable (∃ c ∈ t.completed, c.id = p ∧ ∃ live ∈ t.lives[c.live]?,
    live.pieces.isSome ∧ live.streams = streams))

variable (computeCurrentPiece) in
/-- No stream is parked at a piece that is there, unless it is still to be woken. -/
def Woken (t : Torrent l) : Prop :=
  ∀ f ∈ t.streams, f.Parked → ∀ p, f.At computeCurrentPiece p → t.Have p →
    t.Outstanding f.streams p

instance (t : Torrent l) : Decidable (t.Woken computeCurrentPiece) :=
  inferInstanceAs (Decidable (∀ f ∈ t.streams, f.Parked → ∀ p, f.At computeCurrentPiece p →
    t.Have p → t.Outstanding f.streams p))

variable (computeCurrentPiece) in
/-- When the live torrent marks a piece, the streams that wait for it are registered where that
live state wakes them; a pause does not come while a stream is still to be woken by a completion of
the live state it ends; and no stream waits for a piece that `check()` finds. -/
def KeepsWakes (t : Torrent l) : Event l → Prop
  | .markPieceHashOk n id => t.state = .live n → ∀ f ∈ t.streams, f.Parked →
      f.At computeCurrentPiece id → t.torrentStreams = some f.streams
  | .pause _ => ∀ c ∈ t.completed, t.state = .live c.live → ∀ f ∈ t.streams, f.Parked →
      ¬f.At computeCurrentPiece c.id
  | .checkDone (some havePieces) => t.state = .initializing → ∀ f ∈ t.streams, f.Parked →
      ∀ p ∈ havePieces, ¬f.At computeCurrentPiece p
  | _ => True

instance (t : Torrent l) : (e : Event l) → Decidable (t.KeepsWakes computeCurrentPiece e)
  | .markPieceHashOk n id =>
    inferInstanceAs (Decidable (t.state = .live n → ∀ f ∈ t.streams, f.Parked →
      f.At computeCurrentPiece id → t.torrentStreams = some f.streams))
  | .pause _ =>
    inferInstanceAs (Decidable (∀ c ∈ t.completed, t.state = .live c.live → ∀ f ∈ t.streams,
      f.Parked → ¬f.At computeCurrentPiece c.id))
  | .checkDone (some havePieces) =>
    inferInstanceAs (Decidable (t.state = .initializing → ∀ f ∈ t.streams, f.Parked →
      ∀ p ∈ havePieces, ¬f.At computeCurrentPiece p))
  | .checkDone none | .stream _ _ | .insertStream _ | .dropStream _ | .pollRead _ _ _
  | .seek _ _ | .onPieceCompleted _ | .start | .stopWithError | .checkAgain => isTrue trivial

/-- A step that parks no stream, adds no piece and takes no wake. -/
theorem Woken.mono (h : t.Woken computeCurrentPiece)
    (hs : ∀ f ∈ t'.streams, f.Parked → f ∈ t.streams) (hh : ∀ p, t'.Have p → t.Have p)
    (ho : ∀ streams p, t.Outstanding streams p → t'.Outstanding streams p) :
    t'.Woken computeCurrentPiece := by
  intro f hf hp p hat hhave
  exact ho _ _ (h f (hs f hf hp) hp p hat (hh p hhave))

/-- A torrent that is initializing or in the error state has no piece. -/
theorem woken_of_havePieces_none (h : t.havePieces = none) : t.Woken computeCurrentPiece := by
  rintro f - - p - ⟨pieces, hp, -⟩
  rw [h] at hp
  cases hp

theorem Woken.pollRead (h : t.Woken computeCurrentPiece) (i bufLen : ℕ) (readOk : Bool) :
    Woken computeCurrentPiece { t with
      streams := t.streams.modify i fun f =>
        f.pollRead computeCurrentPiece t.havePieces bufLen readOk } := by
  intro f hf hp p hat hhave
  rcases mem_modify hf with hf | ⟨g, hg, rfl⟩
  · exact h f hf hp p hat hhave
  · obtain ⟨pieces, hpieces, hmem⟩ := hhave
    exact absurd hmem (FileStream.pollRead_parked hp hat pieces hpieces)

theorem get_takePieces {m : ℕ} (h : m ≠ n) : (t.takePieces n).lives[m]? = t.lives[m]? :=
  List.getElem?_modify_ne _ _ (Ne.symm h)

theorem Woken.pause (h : t.Woken computeCurrentPiece) (taken : Bool)
    (hok : t.KeepsWakes computeCurrentPiece (.pause taken)) :
    (t.pause taken).Woken computeCurrentPiece := by
  unfold Torrent.pause
  split
  · rename_i n hst
    split
    · rename_i pieces streams hn
      split_ifs
      · -- the streams still to be woken wait for a live state that is left alone
        intro f hf hp p hat hhave
        have hbefore : t.Have p := by
          obtain ⟨_, hpieces, hmem⟩ := hhave
          obtain rfl := Option.some.inj hpieces
          refine ⟨pieces, ?_, hmem⟩
          simp [havePieces, hst, hn]
        obtain ⟨c, hc, rfl, live, hlive, hsome, hstreams⟩ := h f hf hp p hat hbefore
        have hne : c.live ≠ n := by
          rintro rfl
          exact hok c hc hst f hf hp hat
        exact ⟨c, hc, rfl, live, by rw [← get_takePieces hne] at hlive; exact hlive, hsome, hstreams⟩
      · refine woken_of_havePieces_none ?_
        simp [havePieces, takePieces, hst, hn]
    · exact h
  · exact woken_of_havePieces_none rfl
  · exact h
  · exact h

theorem stopWithError_havePieces : t.stopWithError.havePieces = none := by
  unfold stopWithError
  split <;> rfl

theorem markPieceHashOk_eq_some (hs : t.markPieceHashOk n id = some t') :
    ∃ pieces streams, t.lives[n]? = some ⟨some pieces, streams⟩ ∧ t' = { t with
      lives := t.lives.set n ⟨some (insert id pieces), streams⟩
      completed := t.completed ++ [⟨n, id⟩] } := by
  unfold Torrent.markPieceHashOk at hs
  split at hs
  · rename_i pieces streams hn
    exact ⟨pieces, streams, hn, (Option.some.inj hs).symm⟩
  · cases hs

/-- The live state that has marked the piece, or another one. -/
theorem lives_of_mark (hs : t.markPieceHashOk n id = some t') {m : ℕ} {live : Live l}
    (h : t.lives[m]? = some live) (hsome : live.pieces.isSome) :
    ∃ live', t'.lives[m]? = some live' ∧ live'.pieces.isSome ∧ live'.streams = live.streams := by
  obtain ⟨pieces, streams, hn, rfl⟩ := markPieceHashOk_eq_some hs
  by_cases hmn : n = m
  · subst hmn
    obtain rfl := Option.some.inj (hn.symm.trans h)
    exact ⟨_, List.getElem?_set_self (List.getElem?_eq_some_iff.1 hn).1, rfl, rfl⟩
  · exact ⟨live, (List.getElem?_set_ne hmn).trans h, hsome, rfl⟩

theorem outstanding_of_mark (hs : t.markPieceHashOk n id = some t') {streams : ℕ}
    (h : t.Outstanding streams p) : t'.Outstanding streams p := by
  obtain ⟨c, hc, hid, live, hlive, hsome, hstreams⟩ := h
  obtain ⟨live', hlive', hsome', hstreams'⟩ := lives_of_mark hs hlive hsome
  refine ⟨c, ?_, hid, live', hlive', hsome', hstreams'.trans hstreams⟩
  obtain ⟨_, _, -, rfl⟩ := markPieceHashOk_eq_some hs
  exact List.mem_append_left _ hc

/-- The streams of the live state that has marked the piece are still to be woken. -/
theorem outstanding_marked (hs : t.markPieceHashOk n id = some t') (hst : t.state = .live n)
    {streams : ℕ} (h : t.torrentStreams = some streams) : t'.Outstanding streams id := by
  obtain ⟨pieces, streams', hn, ht'⟩ := markPieceHashOk_eq_some hs
  have heq : streams' = streams := by
    simpa [torrentStreams, hst, hn] using h
  obtain ⟨live, hlive, hsome, hstreams⟩ := lives_of_mark hs hn rfl
  refine ⟨⟨n, id⟩, ?_, rfl, live, hlive, hsome, hstreams.trans heq⟩
  rw [ht']
  exact List.mem_append_right _ (List.mem_singleton_self _)

/-- The torrent has one more piece, if the live state is its current one. -/
theorem have_of_mark (hs : t.markPieceHashOk n id = some t') (h : t'.Have p) :
    t.Have p ∨ t.state = .live n ∧ p = id := by
  obtain ⟨pieces, streams, hn, rfl⟩ := markPieceHashOk_eq_some hs
  obtain ⟨pieces', hpieces', hmem⟩ := h
  have hlt : n < t.lives.length := (List.getElem?_eq_some_iff.1 hn).1
  cases hst : t.state with
  | initializing | error => simp [havePieces, hst] at hpieces'
  | paused found streams =>
    exact Or.inl ⟨pieces', by simpa [havePieces, hst] using hpieces', hmem⟩
  | live m =>
    by_cases hnm : n = m
    · subst hnm
      have heq : insert id pieces = pieces' := by
        simpa [havePieces, hst, List.getElem?_set_self hlt] using hpieces'
      rw [← heq] at hmem
      rcases Finset.mem_insert.1 hmem with rfl | hin
      · exact Or.inr ⟨rfl, rfl⟩
      · exact Or.inl ⟨pieces, by simp [havePieces, hst, hn], hin⟩
    · refine Or.inl ⟨pieces', ?_, hmem⟩
      simpa [havePieces, hst, List.getElem?_set_ne hnm] using hpieces'

theorem Woken.markPieceHashOk (h : t.Woken computeCurrentPiece)
    (hok : t.KeepsWakes computeCurrentPiece (.markPieceHashOk n id))
    (hs : t.markPieceHashOk n id = some t') : t'.Woken computeCurrentPiece := by
  have hstreams : t'.streams = t.streams := by
    obtain ⟨_, _, -, rfl⟩ := markPieceHashOk_eq_some hs
    rfl
  intro f hf hp p hat hhave
  rw [hstreams] at hf
  rcases have_of_mark hs hhave with hbefore | ⟨hst, rfl⟩
  · exact outstanding_of_mark hs (h f hf hp p hat hbefore)
  · exact outstanding_marked hs hst (hok hst f hf hp hat)

/-- The streams that an `on_piece_completed` leaves parked wait for another one. -/
theorem Woken.onPieceCompleted (h : t.Woken computeCurrentPiece) {i : ℕ} {c : Completion l}
    (hc : t.completed[i]? = some c) :
    ({ t with completed := t.completed.eraseIdx i }.onPieceCompleted
      computeCurrentPiece c).Woken computeCurrentPiece := by
  unfold Torrent.onPieceCompleted
  split
  · rename_i pieces streams hn
    intro f hf hp p hat hhave
    obtain ⟨g, hg, rfl⟩ := List.mem_map.1 hf
    obtain ⟨hsame, hnot⟩ := FileStream.parked_of_wake hp
    rw [hsame] at hp hat ⊢
    obtain ⟨c', hc', hid, live, hlive, hsome, hstreams⟩ := h g hg hp p hat hhave
    refine ⟨c', mem_eraseIdx_of_ne hc hc' ?_, hid, live, hlive, hsome, hstreams⟩
    rintro rfl
    obtain rfl := Option.some.inj (hn.symm.trans hlive)
    exact hnot ⟨hstreams.symm, hid ▸ hat⟩
  · rename_i hn
    intro f hf hp p hat hhave
    obtain ⟨c', hc', hid, live, hlive, hsome, hstreams⟩ := h f hf hp p hat hhave
    refine ⟨c', mem_eraseIdx_of_ne hc hc' ?_, hid, live, hlive, hsome, hstreams⟩
    rintro rfl
    obtain ⟨pieces, hpieces⟩ := Option.isSome_iff_exists.1 hsome
    exact hn pieces live.streams (by rw [← hpieces]; exact hlive)

/-- A new live state has the pieces of the paused one; what is outstanding is of older ones. -/
theorem Woken.start (h : t.Woken computeCurrentPiece) {pieces : Finset (ValidPieceIndex l)}
    {streams : ℕ} (hst : t.state = .paused pieces streams) :
    Woken computeCurrentPiece { t with
      state := .live t.lives.length
      lives := t.lives ++ [⟨some pieces, streams⟩] } := by
  refine h.mono (fun _ hf _ => hf) ?_ ?_
  · rintro p ⟨pieces', hpieces', hmem⟩
    have heq : pieces = pieces' := by
      simpa [havePieces] using hpieces'
    exact ⟨pieces, by simp [havePieces, hst], heq ▸ hmem⟩
  · rintro streams' p ⟨c, hc, hid, live, hlive, hsome⟩
    refine ⟨c, hc, hid, live, ?_, hsome⟩
    have hlt : c.live < t.lives.length := (List.getElem?_eq_some_iff.1 hlive).1
    exact (List.getElem?_append_left hlt).trans hlive

theorem Woken.step {e : Event l} (h : t.Woken computeCurrentPiece)
    (hok : t.KeepsWakes computeCurrentPiece e) (hs : t.step computeCurrentPiece e = some t') :
    t'.Woken computeCurrentPiece := by
  cases e with
  | stream fileLen fileAbsOffset =>
    obtain ⟨streams, -, rfl⟩ := Option.map_eq_some_iff.1 hs
    exact h
  | insertStream i =>
    obtain ⟨o, -, rfl⟩ := Option.map_eq_some_iff.1 hs
    refine h.mono ?_ (fun _ hp => hp) (fun _ _ ho => ho)
    intro f hf hp
    rcases List.mem_append.1 hf with hf | hf
    · exact hf
    · rw [List.mem_singleton.1 hf] at hp
      cases hp.1
  | dropStream i =>
    obtain rfl := Option.some.inj hs
    exact h.mono (fun _ hf _ => List.mem_of_mem_eraseIdx hf) (fun _ hp => hp) (fun _ _ ho => ho)
  | pollRead i bufLen readOk =>
    obtain rfl := Option.some.inj hs
    exact h.pollRead i bufLen readOk
  | seek i newPos =>
    obtain rfl := Option.some.inj hs
    refine h.mono ?_ (fun _ hp => hp) (fun _ _ ho => ho)
    intro f hf hp
    rcases mem_modify hf with hf | ⟨g, hg, rfl⟩
    · exact hf
    · rw [FileStream.not_parked_seek hp]
      exact hg
  | markPieceHashOk n id => exact h.markPieceHashOk hok hs
  | onPieceCompleted i =>
    obtain ⟨c, hc, rfl⟩ := Option.map_eq_some_iff.1 hs
    exact h.onPieceCompleted hc
  | pause taken =>
    obtain rfl := Option.some.inj hs
    exact h.pause taken hok
  | start =>
    simp only [Torrent.step] at hs
    split at hs
    · rename_i pieces streams hst
      obtain rfl := Option.some.inj hs
      exact h.start hst
    · cases hs
  | stopWithError =>
    obtain rfl := Option.some.inj hs
    exact woken_of_havePieces_none stopWithError_havePieces
  | checkAgain =>
    simp only [Torrent.step] at hs
    split at hs
    · obtain rfl := Option.some.inj hs
      exact woken_of_havePieces_none rfl
    · cases hs
  | checkDone found =>
    obtain rfl := Option.some.inj hs
    cases found with
    | none => exact woken_of_havePieces_none rfl
    | some found =>
      simp only [Torrent.checkDone]
      split
      · rename_i hst
        rintro f hf hp p hat ⟨pieces, hpieces, hmem⟩
        obtain rfl := Option.some.inj hpieces
        exact absurd hat (hok hst f hf hp p hmem)
      · exact h

/-- Along every run in which no pause or new initialization comes between a stream and its wake: a
stream that is parked at a piece that the torrent has is still to be woken. -/
theorem keepsWakes_woken (l : Lengths) (computeCurrentPiece : ℕ → ℕ → Option (CurrentPiece l))
    (evs : List (Event l)) (t : Torrent l)
    (hr : Run (step computeCurrentPiece) (KeepsWakes computeCurrentPiece) new evs t) :
    ∀ f ∈ t.streams, f.Parked → ∀ p, f.At computeCurrentPiece p → t.Have p →
      t.Outstanding f.streams p :=
  hr.inv (Woken computeCurrentPiece) (woken_of_havePieces_none rfl) fun _ _ _ h hok hs =>
    h.step hok hs

/-- What `compute_current_piece` returns. -/
def pieceAt (l : Lengths) (position fileAbsOffset : ℕ) : Option (CurrentPiece l) :=
  let offset := fileAbsOffset + position
  (l.validatePieceIndex (offset / l.defaultPieceLength)).map fun id =>
    ⟨id, l.pieceLength id - offset % l.defaultPieceLength⟩

/-- A torrent without pieces becomes live, and a stream of its first file waits. -/
def parks : List (Event twoPieces) :=
  [.checkDone (some ∅), .start, .stream 16384 0, .insertStream 0, .pollRead 0 512 true]

theorem marked_is_outstanding :
    ∃ t, Run (step (pieceAt twoPieces)) (KeepsWakes (pieceAt twoPieces)) new
        (parks ++ [.markPieceHashOk 0 firstPiece]) t ∧
      ∃ f ∈ t.streams, f.Parked ∧ t.Have firstPiece ∧ t.Outstanding f.streams firstPiece := by
  have hrun : ∃ t, Run (step (pieceAt twoPieces)) (KeepsWakes (pieceAt twoPieces)) new
      (parks ++ [.markPieceHashOk 0 firstPiece]) t ∧
      decide ((∃ f ∈ t.streams, f.Parked ∧ f.At (pieceAt twoPieces) firstPiece) ∧
        t.Have firstPiece) = true := Run.exists_of_exec (by decide +kernel)
  obtain ⟨t, hr, hq⟩ := hrun
  obtain ⟨⟨f, hf, hp, hat⟩, hhave⟩ := of_decide_eq_true hq
  exact ⟨t, hr, f, hf, hp, hhave, keepsWakes_woken _ _ _ _ hr f hf hp firstPiece hat hhave⟩

/-- The torrent stops with an error while the stream waits, and is started again. -/
def startedAgain : List (Event twoPieces) :=
  parks ++ [.stopWithError, .checkAgain, .checkDone (some ∅), .start,
    .markPieceHashOk 1 firstPiece, .onPieceCompleted 0]

/-- The torrent is paused after the piece was marked, and before the stream is woken. -/
def pausedBetween : List (Event twoPieces) :=
  parks ++ [.markPieceHashOk 0 firstPiece, .pause true, .onPieceCompleted 0]

/-- The piece is there, no completion is left, and the stream still waits for it. -/
theorem stream_not_woken :
    (∃ t, Run (step (pieceAt twoPieces)) Any new startedAgain t ∧
      decide (t.completed = [] ∧ ¬t.Woken (pieceAt twoPieces)) = true) ∧
    ∃ t, Run (step (pieceAt twoPieces)) Any new pausedBetween t ∧
      decide (t.completed = [] ∧ ¬t.Woken (pieceAt twoPieces)) = true :=
  ⟨Run.exists_of_exec (by decide +kernel), Run.exists_of_exec (by decide +kernel)⟩

end Torrent

end Streams

end Rtbit
