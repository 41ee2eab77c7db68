import Rtbit.Sanity.FileOps

/-! `initial_check` and `check_piece` agree on every layout of the files: what the first marks
as have the second accepts, and if every read succeeds the two accept the same pieces. A file
that `initial_check` has found broken is not read again, so the hash of a later piece misses
bytes; that it does not match is where the hash has to be free of collisions. -/

namespace Rtbit

open Lib

variable {H : Type} [DecidableEq H]

/-- The piece hash has no collisions, and the expected hash of every piece is that of a string
of the length of the piece. -/
structure PieceHash.CollisionFree (ph : PieceHash H) (l : Lengths) : Prop where
  injective : Function.Injective ph.hash
  expected : ∀ p < l.totalPieces, ∃ s, s.length = l.pieceLength p ∧ ph.expected p = some (ph.hash s)

namespace FileOps

variable {l : Lengths} {fs : List FileInfo} {st : Storage} {ph : PieceHash H}

/-- The stretches of piece `p`. -/
def pieceSegments (l : Lengths) (fs : List FileInfo) (p : ℕ) : List (Segment FileInfo) :=
  segments FileInfo.len 0 fs (p * l.defaultPieceLength) (l.pieceLength p)

/-- `check_piece` compares the hash of what it reads, if it can read it. -/
theorem checkPiece_eq (fs : List FileInfo) (st : Storage) (ph : PieceHash H) (p : ValidPieceIndex l) :
    (∃ e, readSegments st (pieceSegments l fs p) = none ∧ checkPiece l fs st ph p = .error e) ∨
    ∃ b, readSegments st (pieceSegments l fs p) = some b ∧
      checkPiece l fs st ph p = (ph.compareHash p b).elim (.error .noHash) .ok := by
  have hloop := @checkPieceLoop_eq st (l.pieceLength p) 0 fs (p * l.defaultPieceLength)
    (l.pieceLength p) [] le_rfl
  unfold checkPiece pieceSegments
  cases hc : checkPieceLoop st (min readBuffer (l.pieceLength p)) 0 fs (p * l.defaultPieceLength)
      (l.pieceLength p) [] with
  | error e =>
    rw [hc] at hloop
    exact Or.inl ⟨e, Option.map_eq_none_iff.1 hloop.symm, rfl⟩
  | ok h =>
    rw [hc] at hloop
    obtain ⟨b, hb, he⟩ := Option.map_eq_some_iff.1 hloop.symm
    obtain rfl : b = h := by simpa using he
    refine Or.inr ⟨b, hb, ?_⟩
    simp only
    cases ph.compareHash p b with
    | none => rfl
    | some r => rfl

theorem checkPiece_iff (p : ValidPieceIndex l) {r : Bool} :
    checkPiece l fs st ph p = .ok r ↔
      ∃ b, readSegments st (pieceSegments l fs p) = some b ∧ ph.compareHash p b = some r := by
  rcases checkPiece_eq fs st ph p with ⟨e, hr, he⟩ | ⟨b, hr, he⟩
  · simp [hr, he]
  · simp only [hr, he, Option.some.injEq, exists_eq_left']
    cases ph.compareHash p b with
    | none => simp
    | some r => simp

theorem compareHash_length {p : ℕ} (hcf : ph.CollisionFree l) (hp : p < l.totalPieces)
    {b : List UInt8} (h : ph.compareHash p b = some true) : b.length = l.pieceLength p := by
  obtain ⟨s, hs, he⟩ := hcf.expected p hp
  rw [PieceHash.compareHash, he, Option.map_some, Option.some.injEq, decide_eq_true_eq] at h
  rw [← hcf.injective h, hs]

/-- The end of the piece in the torrent. -/
theorem piece_end (l : Lengths) {p : ℕ} (hp : p < l.totalPieces) :
    min (p * l.defaultPieceLength) l.totalLength = p * l.defaultPieceLength ∧
      p * l.defaultPieceLength + l.pieceLength p =
        min ((p + 1) * l.defaultPieceLength) l.totalLength := by
  have h1 := l.start_lt p hp
  rw [l.pieceLength_eq p hp, Nat.add_mul, Nat.one_mul]
  omega

/-- What one round of `initial_check` does to the piece it is at. -/
structure Checked (l : Lengths) (fs : List FileInfo) (st : Storage) (ph : PieceHash H)
    (p : ValidPieceIndex l) (c c' : CheckState) : Prop where
  at_end : At fs (min ((p + 1 : ℕ) * l.defaultPieceLength) l.totalLength) c'.currentFile
    c'.fileIterator
  len : c'.havePieces.len = c.havePieces.len
  other : ∀ q, q ≠ p.val → c'.havePieces.get q = c.havePieces.get q
  mono : c.havePieces.get p = true → c'.havePieces.get p = true
  sound : c'.havePieces.get p = true →
    c.havePieces.get p = true ∨ checkPiece l fs st ph p = .ok true
  complete : NoReadFails fs st → c.currentFile.isBroken = false → p < c.havePieces.len →
    c'.currentFile.isBroken = false ∧
      (checkPiece l fs st ph p = .ok true → c'.havePieces.get p = true)

/-- The loop over a piece, from the end of the piece before. -/
theorem scanPiece (hsum : (fs.map FileInfo.len).sum = l.totalLength) (p : ValidPieceIndex l)
    {c : CheckState}
    (hat : At fs (min (p * l.defaultPieceLength) l.totalLength) c.currentFile c.fileIterator) :
    ∃ s, scanLoop st (l.pieceLength p) (l.pieceLength p)
        ⟨c.currentFile, c.fileIterator, [], false⟩ = .ok s ∧
      Scanned st fs (p * l.defaultPieceLength) (l.pieceLength p)
        ⟨c.currentFile, c.fileIterator, [], false⟩ s ∧
      At fs (min ((p + 1 : ℕ) * l.defaultPieceLength) l.totalLength) s.currentFile
        s.fileIterator := by
  obtain ⟨hstart, hend⟩ := piece_end l p.isLt
  rw [hstart] at hat
  obtain ⟨s, hs, hsc⟩ : ∃ s, scanLoop st (l.pieceLength p) (l.pieceLength p)
      ⟨c.currentFile, c.fileIterator, [], false⟩ = .ok s ∧ Scanned st fs _ _ _ s :=
    scanLoop_scanned _ _ _ _ le_rfl hat (by omega)
  have hat' := hsc.at_end
  rw [hend] at hat'
  exact ⟨s, hs, hsc, hat'⟩

theorem initialCheckPiece_checked {cancelled : ℕ → Bool} (hcf : ph.CollisionFree l)
    (hsum : (fs.map FileInfo.len).sum = l.totalLength) (p : ValidPieceIndex l) {c c' : CheckState}
    (hat : At fs (min (p * l.defaultPieceLength) l.totalLength) c.currentFile c.fileIterator)
    (h : initialCheckPiece st ph cancelled c ⟨p, l.pieceLength p⟩ = .ok c') :
    Checked l fs st ph p c c' := by
  obtain ⟨s, hs, hsc, hat'⟩ := scanPiece hsum p hat
  unfold initialCheckPiece at h
  split_ifs at h with hcan
  rw [hs] at h
  simp only at h
  have hcheck : checkPiece l fs st ph p = .ok true ↔ _ := checkPiece_iff p
  split_ifs at h with hbroken
  · -- a read of this piece has failed
    obtain rfl : _ = c' := Except.ok.inj h
    refine ⟨hat', rfl, fun _ _ => rfl, id, Or.inl, ?_⟩
    intro hno hb _
    obtain ⟨-, hnb, -⟩ := hsc.complete (fun seg hseg => hno.segment hseg) hb rfl
    rw [hbroken] at hnb
    cases hnb
  have hnb : s.someFilesBroken = false := by simpa using hbroken
  have hread (hno : NoReadFails fs st) (hb : c.currentFile.isBroken = false) :
      s.currentFile.isBroken = false ∧
        readSegments st (pieceSegments l fs p) = some s.computedHash := by
    obtain ⟨hb', -, b, hr, he⟩ := hsc.complete (fun seg hseg => hno.segment hseg) hb rfl
    exact ⟨hb', by rw [he]; exact hr⟩
  cases hcmp : ph.compareHash p s.computedHash with
  | none => simp [hcmp] at h
  | some r =>
    cases r with
    | false =>
      simp only [hcmp, Except.ok.injEq] at h
      subst h
      refine ⟨hat', rfl, fun _ _ => rfl, id, Or.inl, ?_⟩
      intro hno hb _
      refine ⟨(hread hno hb).1, ?_⟩
      intro hok
      obtain ⟨b, hb', hmatch⟩ := hcheck.1 hok
      rw [(hread hno hb).2, Option.some.injEq] at hb'
      subst hb'
      simp [hcmp] at hmatch
    | true =>
      simp only [hcmp, Except.ok.injEq] at h
      subst h
      refine ⟨hat', by simp, ?_, ?_, ?_, ?_⟩
      · intro q hq
        exact Bits.get_set_ne true (Ne.symm hq)
      · intro hget
        exact Bits.get_set_self true (Bits.lt_len_of_get hget)
      · intro _
        refine Or.inr (hcheck.2 ?_)
        rcases (hsc.sound hnb).2 with ⟨b, hr, he⟩ | hshort
        · obtain rfl : s.computedHash = b := by simpa using he
          exact ⟨_, hr, hcmp⟩
        · -- a hash that misses bytes does not match
          have hlen := compareHash_length hcf p.isLt hcmp
          simp only [List.length_nil] at hshort
          omega
      · intro hno hb hlt
        exact ⟨(hread hno hb).1, fun _ => Bits.get_set_self true hlt⟩

/-- What the rounds from piece `p₀` on do. -/
structure AllChecked (l : Lengths) (fs : List FileInfo) (st : Storage) (ph : PieceHash H) (p₀ : ℕ)
    (c c' : CheckState) : Prop where
  mono : ∀ p : ValidPieceIndex l, c.havePieces.get p = true → c'.havePieces.get p = true
  sound : ∀ p : ValidPieceIndex l, c'.havePieces.get p = true →
    c.havePieces.get p = true ∨ checkPiece l fs st ph p = .ok true
  complete : NoReadFails fs st → c.currentFile.isBroken = false →
    l.totalPieces ≤ c.havePieces.len → ∀ p : ValidPieceIndex l, p₀ ≤ p →
      checkPiece l fs st ph p = .ok true → c'.havePieces.get p = true

theorem Checked.cons {p : ValidPieceIndex l} {c c₁ c' : CheckState} (h : Checked l fs st ph p c c₁)
    (hs : AllChecked l fs st ph (p + 1) c₁ c') : AllChecked l fs st ph p c c' := by
  have hother (q : ValidPieceIndex l) (hq : q ≠ p) : c₁.havePieces.get q = c.havePieces.get q :=
    h.other q fun he => hq (Fin.ext he)
  refine ⟨?_, ?_, ?_⟩
  · intro q hq
    refine hs.mono q ?_
    by_cases hqp : q = p
    · subst hqp
      exact h.mono hq
    · rw [hother q hqp]
      exact hq
  · intro q hq
    rcases hs.sound q hq with hq₁ | hok
    · by_cases hqp : q = p
      · subst hqp
        exact h.sound hq₁
      · rw [hother q hqp] at hq₁
        exact Or.inl hq₁
    · exact Or.inr hok
  · intro hno hb hlen q hpq hok
    obtain ⟨hb₁, hp⟩ := h.complete hno hb (lt_of_lt_of_le p.isLt hlen)
    by_cases hqp : q = p
    · subst hqp
      exact hs.mono q (hp hok)
    · have hlt : (p : ℕ) + 1 ≤ q := by
        have hne : (q : ℕ) ≠ p := fun he => hqp (Fin.ext he)
        omega
      exact hs.complete hno hb₁ (h.len ▸ hlen) q hlt hok

theorem initialCheckLoop_checked {cancelled : ℕ → Bool} (hcf : ph.CollisionFree l)
    (hsum : (fs.map FileInfo.len).sum = l.totalLength) (m p₀ : ℕ) (hm : p₀ + m = l.totalPieces)
    {c c' : CheckState}
    (hat : At fs (min (p₀ * l.defaultPieceLength) l.totalLength) c.currentFile c.fileIterator)
    (h : initialCheckLoop st ph cancelled c
      ((List.range' p₀ m).map fun p => ⟨p, l.pieceLength p⟩) = .ok c') :
    AllChecked l fs st ph p₀ c c' := by
  induction m generalizing p₀ c with
  | zero =>
    obtain rfl : c = c' := Except.ok.inj h
    refine ⟨fun _ hp => hp, fun _ hp => Or.inl hp, ?_⟩
    intro _ _ _ p hp
    have hlt := p.isLt
    omega
  | succ m ih =>
    rw [List.range'_succ, List.map_cons, initialCheckLoop] at h
    cases hp : initialCheckPiece st ph cancelled c ⟨p₀, l.pieceLength p₀⟩ with
    | error e => simp [hp] at h
    | ok c₁ =>
      simp only [hp] at h
      have hck := initialCheckPiece_checked hcf hsum ⟨p₀, by omega⟩ hat hp
      exact hck.cons (ih (p₀ + 1) (by omega) hck.at_end h)

/-- What `initial_check` marks as have, `check_piece` accepts; if no read fails it accepts
nothing else. -/
theorem initialCheck_agrees_checkPiece (l : Lengths) (hl : l.InOrder) (fs : List FileInfo)
    (hsum : (fs.map FileInfo.len).sum = l.totalLength) (st : Storage) (ph : PieceHash H)
    (hcf : ph.CollisionFree l) (cancelled : ℕ → Bool) (havePieces : Bits)
    (hok : initialCheck l fs st ph cancelled = .ok havePieces) :
    (∀ p : ValidPieceIndex l, havePieces.get p = true → checkPiece l fs st ph p = .ok true) ∧
      (NoReadFails fs st → ∀ p : ValidPieceIndex l,
        havePieces.get p = true ↔ checkPiece l fs st ph p = .ok true) := by
  unfold initialCheck at hok
  cases hf : currentFiles fs with
  | nil => simp [hf] at hok
  | cons f files =>
    simp only [hf] at hok
    obtain ⟨hat, hb⟩ := At.start hf
    rw [hl, List.range_eq_range'] at hok
    cases hloop : initialCheckLoop st ph cancelled ⟨f, files, .zeros (l.pieceBitfieldBytes * 8)⟩
        ((List.range' 0 l.totalPieces).map fun p => ⟨p, l.pieceLength p⟩) with
    | error e =>
      rw [hloop] at hok
      cases hok
    | ok c =>
      rw [hloop] at hok
      obtain rfl : c.havePieces = havePieces := Except.ok.inj hok
      have hall := initialCheckLoop_checked hcf hsum _ 0 (Nat.zero_add _) (by simpa using hat) hloop
      have hsound (p : ValidPieceIndex l) (hp : c.havePieces.get p = true) :
          checkPiece l fs st ph p = .ok true := by
        rcases hall.sound p hp with hz | hok
        · simp at hz
        · exact hok
      refine ⟨hsound, ?_⟩
      intro hno p
      exact ⟨hsound p, hall.complete hno hb (by simpa using l.totalPieces_le) p (Nat.zero_le p)⟩

/-- Ten bytes in pieces of four. -/
def tenBytes : Lengths := Lengths.new 10 4 (by decide) (by decide) (by decide) (by decide)

/-- Files of three, no, two padding and five bytes. -/
def tenByteFiles : List FileInfo :=
  [⟨0, (0, 1), false, 3⟩, ⟨3, (0, 0), false, 0⟩, ⟨3, (0, 2), true, 2⟩, ⟨5, (1, 3), false, 5⟩]

/-- The byte string itself stands for its hash. -/
def tenByteHashes : PieceHash (List UInt8) where
  hash := id
  expected p := [[1, 2, 3, 0], [0, 4, 5, 6], [7, 8]][p]?

/-- The first byte of the last file cannot be read together with the two after it. -/
def tenByteStorage : Storage where
  contents i := if i = 0 then [1, 2, 3] else [4, 5, 6, 7, 8]
  fails i pos n := i == 3 && pos == 0 && n == 3

theorem tenByteHashes_collisionFree : tenByteHashes.CollisionFree tenBytes := by
  refine ⟨fun _ _ h => h, ?_⟩
  intro p hp
  have hp : p < 3 := hp
  interval_cases p
  · exact ⟨[1, 2, 3, 0], rfl, rfl⟩
  · exact ⟨[0, 4, 5, 6], rfl, rfl⟩
  · exact ⟨[7, 8], rfl, rfl⟩

/-- The read of piece 1 fails, so piece 2 is not marked either though it can be read. -/
theorem tenBytes_agree : ∃ b,
    initialCheck tenBytes tenByteFiles tenByteStorage tenByteHashes (fun _ => false) = .ok b ∧
      b.get 0 = true ∧ b.get 2 = false ∧
      checkPiece tenBytes tenByteFiles tenByteStorage tenByteHashes ⟨2, by decide⟩ = .ok true ∧
      checkPiece tenBytes tenByteFiles tenByteStorage tenByteHashes ⟨0, by decide⟩ = .ok true := by
  have hok : initialCheck tenBytes tenByteFiles tenByteStorage tenByteHashes (fun _ => false) =
      .ok ⟨[true, false, false, false, false, false, false, false]⟩ := by decide +kernel
  refine ⟨_, hok, rfl, rfl, by decide +kernel, ?_⟩
  exact (initialCheck_agrees_checkPiece tenBytes (Lengths.new_inOrder _ _ _ _ _ _) tenByteFiles rfl
    tenByteStorage tenByteHashes tenByteHashes_collisionFree _ _ hok).1 ⟨0, by decide⟩ rfl

end FileOps

end Rtbit
