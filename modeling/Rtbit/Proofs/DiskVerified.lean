import Rtbit.Proofs.VerifiedData
import Rtbit.Sanity.DiskWrites

/-! The files of a torrent whose piece is have hold that piece, from the moment it is marked on:
the bytes of a piece at its hash check or have are not written to, so what `check_piece` has seen
is what a later reader, or a later start from a saved bitfield, finds. -/

namespace Rtbit

open Lib

namespace DiskWrites

variable {l : Lengths} {fs : List FileInfo} {B H : Type} [DecidableEq H] {ph : PieceHash H}
  {d : DoubleBufHelper B} {s s' : DiskWrites l} {content : List UInt8}

/-- The bytes of the piece in the files. -/
def pieceBytes (fs : List FileInfo) (st : Storage) (p : ValidPieceIndex l) : List UInt8 :=
  ChunkOps.slice fs st (p * l.defaultPieceLength) (l.pieceLength p)

/-- `check_piece` accepts the bytes of the torrent and no others. -/
theorem pieceBytes_of_check (hh : ph.HashesOf l content) {st : Storage} {p : ValidPieceIndex l}
    (h : FileOps.checkPiece l fs st ph p = .ok true) :
    pieceBytes fs st p = l.pieceOf content p := by
  have hcomp := (ChunkOps.checkPiece_hashes fs st ph p).1 true h
  rw [PieceHash.compareHash, hh.expected p p.isLt, Option.map_some, Option.some.injEq,
    decide_eq_true_eq] at hcomp
  exact hh.collisionFree p p.isLt _ hcomp.symm

theorem pieceBytes_eq_iff {st : Storage} {p : ValidPieceIndex l} :
    pieceBytes fs st p = l.pieceOf content p ↔ ∀ k, p * l.defaultPieceLength ≤ k →
      k < p * l.defaultPieceLength + l.pieceLength p → (flat fs st)[k]? = content[k]? :=
  ChunkOps.slice_eq_iff

/-- The files of a torrent all of whose pieces are right. -/
theorem flat_eq_content (hsum : (fs.map FileInfo.len).sum = l.totalLength)
    (hlen : content.length = l.totalLength) {st : Storage}
    (h : ∀ p : ValidPieceIndex l, pieceBytes fs st p = l.pieceOf content p) :
    flat fs st = content := by
  have hflat : (flat fs st).length = l.totalLength := by rw [flat, length_flatFrom, hsum]
  apply List.ext_getElem?
  intro k
  rcases Nat.lt_or_ge k l.totalLength with hk | hk
  · obtain ⟨p, h1, h2⟩ := l.exists_piece hk
    exact pieceBytes_eq_iff.1 (h p) k h1 h2
  · rw [List.getElem?_eq_none (by omega), List.getElem?_eq_none (by omega)]

/-- The step does not overlap another one (`Writes.NoOverlap`); those that go through the files
need nothing. -/
def NoOverlap (fs : List FileInfo) (s : DiskWrites l) : DiskOp l → Prop
  | .tracker op => Writes.NoOverlap fs s.writes op
  | _ => True

instance (s : DiskWrites l) : (op : DiskOp l) → Decidable (NoOverlap fs s op)
  | .tracker op => inferInstanceAs (Decidable (Writes.NoOverlap fs s.writes op))
  | .recv _ _ _ | .write _ _ | .hashed _ | .faults _ => isTrue trivial

theorem NoOverlap.writes {op : DiskOp l} {wop : WriteOp l} (h : NoOverlap fs s op)
    (has : As fs ph d s op wop) : Writes.NoOverlap fs s.writes wop := by
  cases has with
  | tracker _ => exact h
  | _ => trivial

structure Verified (fs : List FileInfo) (content : List UInt8) (s : DiskWrites l) : Prop where
  untouched : s.writes.Untouched
  lengths : s.Carries fun m x => (x.1 ++ x.2).length = m.len
  genuine : ∀ p, s.IsHave p → pieceBytes fs s.storage p = l.pieceOf content p

theorem checkPiece_of_ok {r : Except FileOps.CheckError Bool} (h : CheckResult.of r = .ok) :
    r = .ok true := by
  rcases r with e | (_ | _)
  · cases h
  · cases h
  · rfl

/-- A piece that is have was have, or has just passed its hash check. -/
theorem step_isHave {op : DiskOp l} (h : step fs ph d s op = some s') {p : ValidPieceIndex l}
    (hp : s'.IsHave p) : s.IsHave p ∨
      s'.storage = s.storage ∧ FileOps.checkPiece l fs s.storage ph p = .ok true := by
  rcases step_writes h with hw | ⟨wop, has, hw⟩
  · unfold IsHave at hp ⊢
    exact Or.inl (hw ▸ hp)
  · rcases Writes.step_have hw hp with hold | ⟨i, r, rfl, hr, rfl⟩
    · exact Or.inl hold
    · generalize hwop : WriteOp.run i (.hashed .ok) = wop at has
      cases has with
      | hashed hr' =>
        simp only [WriteOp.run.injEq, RunStep.hashed.injEq] at hwop
        obtain ⟨rfl, hres⟩ := hwop
        obtain rfl := Option.some.inj (hr.symm.trans hr')
        obtain ⟨_, w, -, -, rfl⟩ := hashed_step h
        exact Or.inr ⟨rfl, checkPiece_of_ok hres.symm⟩
      | tracker hop =>
        subst hwop
        cases hop
      | _ => cases hwop

/-- A piece stays have. -/
theorem IsHave.step {op : DiskOp l} {p : ValidPieceIndex l} (hp : s.IsHave p)
    (h : DiskWrites.step fs ph d s op = some s') : s'.IsHave p := by
  rcases step_writes h with hw | ⟨wop, -, hw⟩
  · unfold IsHave at hp ⊢
    exact hw ▸ hp
  · exact Writes.step_have_mono hw hp

theorem Verified.step (hl : l.Tiled) (hsum : (fs.map FileInfo.len).sum = l.totalLength)
    (hh : ph.HashesOf l content) {op : DiskOp l} (h : s.Verified fs content)
    (hok : NoOverlap fs s op) (hs : DiskWrites.step fs ph d s op = some s') :
    s'.Verified fs content := by
  refine ⟨?_, h.lengths.step hs fun _ _ _ _ hlen => hlen, ?_⟩
  · rcases step_writes hs with hw | ⟨wop, has, hw⟩
    · exact hw ▸ h.untouched
    · exact h.untouched.step (hok.writes has) hw
  · intro p hp
    rcases step_isHave hs hp with hold | ⟨hst, hcheck⟩
    · rw [pieceBytes_eq_iff]
      intro k h1 h2
      rcases step_flat hl hsum h.lengths hs k with hk | ⟨i, r, x, c, hr, hph, -, hc, ⟨h3, h4⟩, -⟩
      · rw [hk]
        exact pieceBytes_eq_iff.1 (h.genuine p hold) k h1 h2
      · -- the run that writes to the byte has a piece that is not have
        obtain ⟨hvalid, hpiece, -⟩ := chunk_of_run hl hc
        obtain ⟨h5, h6⟩ := l.chunk_in_piece hvalid h3 h4
        have heq : r.piece = p := by
          rw [← Fin.val_inj, ← hpiece, ← l.piece_of_byte hvalid.piece_lt h5 h6,
            l.piece_of_byte p.isLt h1 h2]
        have hfree := h.untouched.free i r hr (by simp [hph, Phase.inSection])
        have hnot : s.writes.pieces.chunks.havePieces.get r.piece = false := hfree.2
        rw [heq] at hnot
        exact absurd hold (by simp [IsHave, hnot])
    · rw [hst]
      exact pieceBytes_of_check hh hcheck

theorem start_verified {h sel : Bits} {c : ChunkTracker l} {st : Storage}
    (hh : ph.HashesOf l content) (hc : ChunkTracker.new h sel fs = .ok c)
    (h0 : ∀ p : ValidPieceIndex l, h.get p = true → FileOps.checkPiece l fs st ph p = .ok true) :
    (start c st).Verified fs content := by
  refine ⟨Writes.start_untouched hc, start_carries _ _ _, ?_⟩
  intro p hp
  obtain ⟨-, hhave, -⟩ := ChunkTracker.new_ok hc
  refine pieceBytes_of_check hh (h0 p ?_)
  rw [← hhave]
  exact hp

/-- The torrent of `tenBytes`; its fourth and fifth byte are padding. -/
def tenByteContent : List UInt8 := [1, 2, 3, 0, 0, 4, 5, 6, 7, 8]

theorem tenByteHashes_hashesOf : FileOps.tenByteHashes.HashesOf FileOps.tenBytes tenByteContent := by
  refine ⟨rfl, ?_, fun _ _ _ h => h⟩
  intro p hp
  have hp : p < 3 := hp
  interval_cases p <;> rfl

/-- Files that are still empty. -/
def emptyFiles : Storage where
  contents _ := []
  fails _ _ _ := false

def tenBytePiece : ValidPieceIndex FileOps.tenBytes := ⟨0, by decide⟩

/-- A peer sends the first piece, which passes its check. -/
def fetchFirst : List (DiskOp FileOps.tenBytes) :=
  [.tracker (.acquire (requestFor _ FileOps.tenByteFiles peerA)),
    .recv peerA ⟨0, 0, 4⟩ ([1], [2, 3, 0]), .tracker (.run 0 .check), .write 0 fun _ _ _ => false,
    .tracker (.run 0 (.mark 1)), .tracker (.run 0 .unlock), .hashed 0]

/-- Another one sends a second piece that is wrong. -/
def fetchWrong : List (DiskOp FileOps.tenBytes) :=
  [.tracker (.acquire (requestFor _ FileOps.tenByteFiles peerB)),
    .recv peerB ⟨1, 0, 4⟩ ([9], [9, 9, 9]), .tracker (.run 1 .check), .write 1 fun _ _ _ => false]

end DiskWrites

end Rtbit
