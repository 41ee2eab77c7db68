import Rtbit.Lib.Runs
import Rtbit.Proofs.ServeMetadata

/-! The pieces that `send_metadata_piece` cuts are put together by `record_piece`, in whatever
order they arrive and whatever is rejected in between: after every message the buffer has the
blocks that have arrived, and the last of them makes it the info bytes. -/

namespace Rtbit

open Lib

namespace Metadata

variable {info : List UInt8} {msgs before : List UtMetadataData} {d : UtMetadataData} {i : ℕ}

/-- A piece as `send_metadata_piece` cuts it. -/
def Genuine (info : List UInt8) (d : UtMetadataData) : Prop :=
  d.piece < blockCount chunkSize info.length ∧ sendMetadataPiece info true d.piece = some (.ok d)

instance (info : List UInt8) (d : UtMetadataData) : Decidable (Genuine info d) :=
  inferInstanceAs (Decidable (_ ∧ _))

/-- The piece with number `i` has arrived. -/
def Arrived (info : List UInt8) (msgs : List UtMetadataData) (i : ℕ) : Prop :=
  ∃ d ∈ msgs, Genuine info d ∧ d.piece = i

instance (info : List UInt8) (msgs : List UtMetadataData) (i : ℕ) :
    Decidable (Arrived info msgs i) :=
  inferInstanceAs (Decidable (∃ d ∈ msgs, _))

/-- The index is out of range, or the length is wrong, or the piece has arrived before. -/
def Rejectable (info : List UInt8) (before : List UtMetadataData) (d : UtMetadataData) : Prop :=
  blockCount chunkSize info.length ≤ d.piece ∨
    d.data.length ≠ (block chunkSize info d.piece).length ∨ Arrived info before d.piece

/-- Pieces in any order, and messages to be rejected in between. -/
def Interleaving (info : List UInt8) (msgs : List UtMetadataData) : Prop :=
  ∀ before d, before ++ [d] <+: msgs → Genuine info d ∨ Rejectable info before d

theorem interleaving_nil : Interleaving info [] := by
  intro before d hpre
  simpa using List.prefix_nil.1 hpre

theorem interleaving_snoc : Interleaving info (msgs ++ [d]) ↔
    Interleaving info msgs ∧ (Genuine info d ∨ Rejectable info msgs d) := by
  constructor
  · intro h
    exact ⟨fun before e hpre => h before e (hpre.trans (List.prefix_append msgs [d])),
      h msgs d List.prefix_rfl⟩
  · rintro ⟨h, hd⟩ before e hpre
    rcases List.prefix_concat_iff.1 hpre with heq | hpre
    · obtain ⟨rfl, hde⟩ := List.append_inj' heq rfl
      obtain rfl := (List.cons.inj hde).1
      exact hd
    · exact h before e hpre

theorem arrived_snoc (info : List UInt8) (msgs : List UtMetadataData) (d : UtMetadataData) (i : ℕ) :
    Arrived info (msgs ++ [d]) i ↔ Arrived info msgs i ∨ Genuine info d ∧ d.piece = i := by
  simp only [Arrived, List.mem_append, List.mem_singleton, or_and_right, exists_or, exists_eq_left]

/-- The metadata is small enough for 32-bit arithmetic on its pieces. -/
theorem piece_end_lt (hlen : info.length ≤ 32 * 1024 * 1024)
    (hi : i < blockCount chunkSize info.length) : i * chunkSize + chunkSize < 2 ^ 32 := by
  have hstart := piece_start_lt hi
  have hbound : info.length + chunkSize < 2 ^ 32 :=
    lt_of_le_of_lt (Nat.add_le_add_right hlen chunkSize) (by decide)
  omega

theorem Genuine.eq (hlen : info.length ≤ 32 * 1024 * 1024) (h : Genuine info d) :
    d = ⟨d.piece, info.length, block chunkSize info d.piece⟩ := by
  obtain ⟨hi, hsend⟩ := h
  rw [served_of_lt (by omega) hi (piece_end_lt hlen hi)] at hsend
  injection hsend with hsend
  injection hsend with hsend
  exact hsend.symm

theorem Genuine.data (hlen : info.length ≤ 32 * 1024 * 1024) (h : Genuine info d) :
    d.data = block chunkSize info d.piece :=
  congrArg UtMetadataData.data (h.eq hlen)

/-- A piece that is rejected is one that has arrived before. -/
theorem Genuine.arrived (hlen : info.length ≤ 32 * 1024 * 1024) (h : Genuine info d)
    (hr : Rejectable info before d) : Arrived info before d.piece := by
  rcases hr with hle | hne | harr
  · exact absurd h.1 (by omega)
  · exact absurd (congrArg List.length (h.data hlen)) hne
  · exact harr

namespace HandlerLocked

variable {H : Type} [DecidableEq H] {lastElementSize : ℕ → ℕ → ℕ} {sha1 : List UInt8 → H}
  {infoHash : H} {s s' : HandlerLocked}

/-- The buffer has the blocks that have arrived. -/
structure Assembled (info : List UInt8) (msgs : List UtMetadataData) (s : HandlerLocked) : Prop where
  metadataSize : s.metadataSize = info.length
  totalPieces : s.totalPieces = blockCount chunkSize info.length
  bufferLen : s.buffer.length = info.length
  receivedLen : s.receivedPieces.length = blockCount chunkSize info.length
  received : ∀ i, s.receivedPieces[i]? = some true ↔ Arrived info msgs i
  block_eq : ∀ i, Arrived info msgs i → block chunkSize s.buffer i = block chunkSize info i

theorem new_assembled (hlen : info.length ≤ 32 * 1024 * 1024) :
    ∃ s, new info.length = .ok s ∧ Assembled info [] s := by
  refine ⟨_, by rw [new, if_neg (by omega)], rfl, rfl, ?_, ?_, ?_, ?_⟩
  · exact List.length_replicate
  · exact List.length_replicate
  · intro i
    simp [List.getElem?_replicate, Arrived]
  · rintro i ⟨d, hd, -⟩
    cases hd

/-- The last piece has what the others leave. -/
theorem pieceSize_eq_min (hlast : LastElementSize lastElementSize) (hpos : 0 < s.metadataSize)
    (hcount : s.totalPieces = blockCount chunkSize s.metadataSize) (hi : i < s.totalPieces) :
    s.pieceSize lastElementSize i = min chunkSize (s.metadataSize - i * chunkSize) := by
  have hstart : i * chunkSize < s.metadataSize := (lt_blockCount (by decide)).1 (hcount ▸ hi)
  rw [pieceSize, hlast _ _ hpos (by decide)]
  rw [hcount] at hi ⊢
  by_cases hend : i = blockCount chunkSize s.metadataSize - 1
  · -- the last piece
    rw [if_pos hend]
    by_cases hmod : s.metadataSize % chunkSize = 0
    · rw [if_pos hmod]
      simp only [blockCount, chunkSize] at hend hstart hmod ⊢
      omega
    · rw [if_neg hmod]
      simp only [blockCount, chunkSize] at hend hstart hmod ⊢
      omega
  · rw [if_neg hend]
    simp only [blockCount, chunkSize] at hi hend hstart ⊢
    omega

/-- Both ends agree on the size of a piece. -/
theorem Assembled.pieceSize_eq (hlast : LastElementSize lastElementSize) (hne : info ≠ [])
    (h : Assembled info msgs s) (hi : i < blockCount chunkSize info.length) :
    s.pieceSize lastElementSize i = (block chunkSize info i).length := by
  have hpos : 0 < s.metadataSize := by
    rw [h.metadataSize]
    exact List.length_pos_iff.2 hne
  have hcount : s.totalPieces = blockCount chunkSize s.metadataSize := by
    rw [h.totalPieces, h.metadataSize]
  rw [pieceSize_eq_min hlast hpos hcount (by rw [h.totalPieces]; exact hi), h.metadataSize,
    length_block]

theorem Assembled.rejects (hlast : LastElementSize lastElementSize) (sha1 : List UInt8 → H)
    (infoHash : H) (hne : info ≠ []) (hlen : info.length ≤ 32 * 1024 * 1024) (h : Assembled info msgs s)
    (hr : Rejectable info msgs d) :
    ∃ e, recordPiece lastElementSize sha1 infoHash s d = some (s, .error e) := by
  unfold recordPiece
  rw [h.totalPieces]
  rcases Nat.lt_or_ge d.piece (blockCount chunkSize info.length) with hi | hi
  swap
  · exact ⟨.wrongIndex, by rw [if_pos hi]⟩
  have hend := piece_end_lt hlen hi
  rw [if_neg (by omega), u32Mul, if_pos (by omega), Option.bind_some, h.pieceSize_eq hlast hne hi]
  by_cases hsize : d.data.length = (block chunkSize info d.piece).length
  swap
  · exact ⟨.wrongLength _ _ _, by rw [if_pos hsize]⟩
  have harr : Arrived info msgs d.piece := by
    rcases hr with hle | hwrong | harr
    · omega
    · exact absurd hsize hwrong
    · exact harr
  refine ⟨.alreadyReceived d.piece, ?_⟩
  simp only [hsize, ne_eq, not_true_eq_false, if_false, (h.received d.piece).2 harr,
    Option.bind_some, if_true]

/-- Nothing changes for the pieces when a message is rejected. -/
theorem Assembled.rejected (hlen : info.length ≤ 32 * 1024 * 1024) (h : Assembled info msgs s)
    (hr : Rejectable info msgs d) : Assembled info (msgs ++ [d]) s := by
  have harr (i : ℕ) : Arrived info (msgs ++ [d]) i ↔ Arrived info msgs i := by
    rw [arrived_snoc]
    refine or_iff_left_of_imp ?_
    rintro ⟨hg, rfl⟩
    exact hg.arrived hlen hr
  exact ⟨h.metadataSize, h.totalPieces, h.bufferLen, h.receivedLen,
    fun i => (h.received i).trans (harr i).symm, fun i hi => h.block_eq i ((harr i).1 hi)⟩

/-- What is left when the piece is written into the buffer. -/
def stored (s : HandlerLocked) (d : UtMetadataData) : HandlerLocked :=
  { s with
    buffer := setBlock chunkSize s.buffer d.piece d.data
    receivedPieces := s.receivedPieces.set d.piece true }

theorem Assembled.stored (hlen : info.length ≤ 32 * 1024 * 1024) (h : Assembled info msgs s)
    (hg : Genuine info d) : Assembled info (msgs ++ [d]) (s.stored d) := by
  have hstart := piece_start_lt hg.1
  have hdata := hg.data hlen
  have hlt : d.piece * chunkSize < s.buffer.length := by
    rw [h.bufferLen]
    exact hstart
  have hfit : d.data.length = min chunkSize (s.buffer.length - d.piece * chunkSize) := by
    rw [hdata, length_block, h.bufferLen]
  refine ⟨h.metadataSize, h.totalPieces, ?_, ?_, ?_, ?_⟩
  · rw [HandlerLocked.stored, length_setBlock (fits_block hlt hfit), h.bufferLen]
  · rw [HandlerLocked.stored, List.length_set, h.receivedLen]
  · intro i
    rw [arrived_snoc, ← h.received, HandlerLocked.stored]
    by_cases hi : d.piece = i
    · subst hi
      simp [h.receivedLen, hg, hg.1]
    · simp [List.getElem?_set_ne hi, hi]
  · intro i hi
    rw [arrived_snoc] at hi
    rw [HandlerLocked.stored]
    by_cases hid : i = d.piece
    · subst hid
      rw [block_setBlock_self hlt hfit, hdata]
    · rw [block_setBlock_ne hlt hfit hid]
      exact h.block_eq i (hi.resolve_right fun hg => hid hg.2.symm)

theorem Assembled.all_iff (h : Assembled info msgs s) : s.receivedPieces.all id = true ↔
    ∀ i < blockCount chunkSize info.length, Arrived info msgs i := by
  rw [← h.receivedLen, List.all_eq_true]
  constructor
  · intro hall i hi
    have hget := hall _ (List.getElem_mem hi)
    rw [← h.received, List.getElem?_eq_getElem hi, Option.some.injEq]
    exact hget
  · intro hall b hb
    obtain ⟨i, hi, rfl⟩ := List.getElem_of_mem hb
    have hget := (h.received i).2 (hall i hi)
    rw [List.getElem?_eq_getElem hi, Option.some.injEq] at hget
    exact hget

/-- When every piece has arrived the buffer is the info bytes. -/
theorem Assembled.complete (h : Assembled info msgs s)
    (hall : ∀ i < blockCount chunkSize info.length, Arrived info msgs i) : s.buffer = info :=
  ext_blocks (by decide) h.bufferLen fun i hi => h.block_eq i (hall i hi)

/-- The first arrival of a piece. -/
theorem Assembled.accepts (hlast : LastElementSize lastElementSize)
    (hlen : info.length ≤ 32 * 1024 * 1024) (hsha : infoHash = sha1 info)
    (h : Assembled info msgs s) (hg : Genuine info d) (hfirst : ¬Arrived info msgs d.piece) :
    recordPiece lastElementSize sha1 infoHash s d =
      some (s.stored d, .ok ((s.stored d).receivedPieces.all id)) := by
  have hi := hg.1
  have hstart := piece_start_lt hi
  have hne : info ≠ [] := by
    rintro rfl
    exact absurd hstart (Nat.not_lt_zero _)
  have hend := piece_end_lt hlen hi
  have hsize : d.data.length = (block chunkSize info d.piece).length :=
    congrArg List.length (hg.data hlen)
  have hnot : s.receivedPieces[d.piece]? = some false := by
    obtain ⟨b, hb⟩ : ∃ b, s.receivedPieces[d.piece]? = some b :=
      ⟨_, List.getElem?_eq_getElem (by rw [h.receivedLen]; exact hi)⟩
    cases b with
    | false => exact hb
    | true => exact absurd ((h.received d.piece).1 hb) hfirst
  have hbuf : ¬d.piece * chunkSize + d.data.length > s.buffer.length := by
    rw [h.bufferLen, hsize, length_block]
    omega
  have hindex : ¬d.piece ≥ s.totalPieces := by
    rw [h.totalPieces]
    omega
  rw [recordPiece, if_neg hindex, u32Mul, if_pos (by omega), Option.bind_some,
    h.pieceSize_eq hlast hne hi]
  simp only [if_neg (not_not.2 hsize), hnot, Option.bind_some, Bool.false_eq_true, if_false,
    if_neg hbuf]
  have hstored := h.stored hlen hg
  by_cases hall : (s.stored d).receivedPieces.all id = true
  · -- the hash is that of the info bytes
    have hbytes := hstored.complete (hstored.all_iff.1 hall)
    have hsum : sha1 (s.stored d).buffer = infoHash := by
      rw [hbytes, hsha]
    rw [hall]
    exact (if_pos hall).trans (if_neg (not_not.2 hsum))
  · rw [eq_false_of_ne_true hall]
    exact if_neg hall

end HandlerLocked

/-! A run. -/

section

open HandlerLocked

variable {H : Type} [DecidableEq H] (lastElementSize : ℕ → ℕ → ℕ) (sha1 : List UInt8 → H)

/-- The state after a message; an error leaves what `record_piece` has left. -/
def step (infoHash : H) (s : HandlerLocked) (d : UtMetadataData) : Option HandlerLocked :=
  (recordPiece lastElementSize sha1 infoHash s d).map Prod.fst

variable {lastElementSize}

theorem step_assembled (hlast : LastElementSize lastElementSize) (hne : info ≠ [])
    (hlen : info.length ≤ 32 * 1024 * 1024) {s : HandlerLocked} (h : Assembled info msgs s)
    (hd : Genuine info d ∨ Rejectable info msgs d) :
    ∃ s', step lastElementSize sha1 (sha1 info) s d = some s' ∧ Assembled info (msgs ++ [d]) s' := by
  by_cases hr : Rejectable info msgs d
  · obtain ⟨e, he⟩ := h.rejects hlast sha1 (sha1 info) hne hlen hr
    exact ⟨s, by rw [step, he]; rfl, h.rejected hlen hr⟩
  · have hg := hd.resolve_right hr
    have hfirst : ¬Arrived info msgs d.piece := fun harr => hr (Or.inr (Or.inr harr))
    refine ⟨s.stored d, ?_, h.stored hlen hg⟩
    rw [step, h.accepts hlast hlen rfl hg hfirst]
    rfl

theorem run_assembled (hlast : LastElementSize lastElementSize) (hne : info ≠ [])
    (hlen : info.length ≤ 32 * 1024 * 1024) {s₀ : HandlerLocked} (h₀ : Assembled info [] s₀)
    (hmsgs : Interleaving info msgs) :
    ∃ s, Run (step lastElementSize sha1 (sha1 info)) Any s₀ msgs s ∧ Assembled info msgs s := by
  induction msgs using List.reverseRecOn with
  | nil => exact ⟨s₀, Run.nil, h₀⟩
  | append_singleton msgs d ih =>
    obtain ⟨hmsgs, hd⟩ := interleaving_snoc.1 hmsgs
    obtain ⟨s, hr, hs⟩ := ih hmsgs
    obtain ⟨s', hstep, hs'⟩ := step_assembled sha1 hlast hne hlen hs hd
    exact ⟨s', hr.snoc trivial hstep, hs'⟩

end

theorem metadata_transferred {H : Type} [DecidableEq H] (lastElementSize : ℕ → ℕ → ℕ)
    (hlast : LastElementSize lastElementSize) (sha1 : List UInt8 → H) (info : List UInt8)
    (hne : 1 ≤ info.length) (hlen : info.length ≤ 32 * 1024 * 1024) :
    ∃ s₀, HandlerLocked.new info.length = .ok s₀ ∧
      ∀ msgs, Interleaving info msgs →
        ∃ s, Run (step lastElementSize sha1 (sha1 info)) Any s₀ msgs s ∧
          (∀ d, Genuine info d → ¬Arrived info msgs d.piece →
            ∃ s' b, s.recordPiece lastElementSize sha1 (sha1 info) d = some (s', .ok b) ∧
              (b = true ↔ ∀ i < blockCount chunkSize info.length, Arrived info (msgs ++ [d]) i) ∧
              (b = true → s'.buffer = info)) ∧
          ∀ d, Rejectable info msgs d →
            ∃ e, s.recordPiece lastElementSize sha1 (sha1 info) d = some (s, .error e) := by
  have hnil : info ≠ [] := List.ne_nil_of_length_pos hne
  obtain ⟨s₀, hnew, h₀⟩ := HandlerLocked.new_assembled hlen
  refine ⟨s₀, hnew, ?_⟩
  intro msgs hmsgs
  obtain ⟨s, hr, hs⟩ := run_assembled sha1 hlast hnil hlen h₀ hmsgs
  refine ⟨s, hr, ?_, fun d => hs.rejects hlast sha1 (sha1 info) hnil hlen⟩
  intro d hg hfirst
  have hstored := hs.stored hlen hg
  exact ⟨_, _, hs.accepts hlast hlen rfl hg hfirst, hstored.all_iff,
    fun hall => hstored.complete (hstored.all_iff.1 hall)⟩

/-! The second piece arrives first, and a message with a wrong index between the two. -/

def documentedSize (total chunk : ℕ) : ℕ := if total % chunk = 0 then chunk else total % chunk

def pieceOfTwo (i : ℕ) : UtMetadataData := ⟨i, twoPieces.length, block chunkSize twoPieces i⟩

def wrongIndex : UtMetadataData := ⟨7, 20000, []⟩

theorem pieceOfTwo_genuine (hi : i < 2) : Genuine twoPieces (pieceOfTwo i) := by
  have hcount : i < blockCount chunkSize twoPieces.length := by
    rw [length_twoPieces]
    exact hi
  have hlen : twoPieces.length ≤ 32 * 1024 * 1024 := by
    rw [length_twoPieces]
    decide
  exact ⟨hcount, served_of_lt (by omega) hcount (piece_end_lt hlen hcount)⟩

theorem two_transferred : ∃ s₀ s s', HandlerLocked.new twoPieces.length = .ok s₀ ∧
    Run (step documentedSize id twoPieces) Any s₀ [pieceOfTwo 1, wrongIndex] s ∧
    s.recordPiece documentedSize id twoPieces (pieceOfTwo 0) = some (s', .ok true) ∧
    s'.buffer = twoPieces := by
  obtain ⟨s₀, hnew, hall⟩ := metadata_transferred documentedSize (fun _ _ _ _ => rfl) id twoPieces
    (by rw [length_twoPieces]; decide) (by rw [length_twoPieces]; decide)
  have hfirst : Interleaving twoPieces ([] ++ [pieceOfTwo 1]) :=
    interleaving_snoc.2 ⟨interleaving_nil, Or.inl (pieceOfTwo_genuine (by decide))⟩
  have hwrong : Rejectable twoPieces [pieceOfTwo 1] wrongIndex := by
    refine Or.inl ?_
    rw [length_twoPieces]
    decide
  obtain ⟨s, hr, haccept, -⟩ := hall ([pieceOfTwo 1] ++ [wrongIndex])
    (interleaving_snoc.2 ⟨hfirst, Or.inr hwrong⟩)
  have hnew0 : ¬Arrived twoPieces ([pieceOfTwo 1] ++ [wrongIndex]) 0 := by
    rintro ⟨d, hd, -, h0⟩
    rcases List.mem_pair.1 hd with rfl | rfl
    · cases h0
    · cases h0
  obtain ⟨s', b, hrec, hb, hbuf⟩ := haccept (pieceOfTwo 0) (pieceOfTwo_genuine (by decide)) hnew0
  have hlast : b = true := by
    refine hb.2 ?_
    intro i hi
    rw [length_twoPieces] at hi
    have hi2 : i < 2 := hi
    interval_cases i
    · exact ⟨pieceOfTwo 0, by simp, pieceOfTwo_genuine (by decide), rfl⟩
    · exact ⟨pieceOfTwo 1, by simp, pieceOfTwo_genuine (by decide), rfl⟩
  subst hlast
  exact ⟨s₀, s, s', hnew, hr, hrec, hbuf rfl⟩

end Metadata

end Rtbit
