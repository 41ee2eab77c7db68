import Mathlib.Data.List.GetD
import Rtbit.Sanity.FileOps
import Rtbit.Spec.Chunks

/-! The torrent as one string of bytes: the files one after the other, with zeros for padding
files. A read of the storage that succeeds returns a part of it, and so do the loops over the
files; a write changes the bytes of one file. -/

namespace Rtbit

open Lib

/-- The byte at `k` of a file. A file is grown with zeros, so what it does not have yet counts
as zero. -/
def Storage.byte (st : Storage) (fileId k : ℕ) : UInt8 := (st.contents fileId).getD k 0

def fileBytes (st : Storage) (fileId : ℕ) (fi : FileInfo) : List UInt8 :=
  if fi.padding then List.replicate fi.len 0 else (List.range fi.len).map (st.byte fileId)

/-- The bytes of the files, which are numbered from `i`. -/
def flatFrom (st : Storage) : ℕ → List FileInfo → List UInt8
  | _, [] => []
  | i, fi :: fs => fileBytes st i fi ++ flatFrom st (i + 1) fs

/-- The concatenation of the bytes of all files. -/
def flat (fs : List FileInfo) (st : Storage) : List UInt8 := flatFrom st 0 fs

/-- The byte at `k` of the torrent is in a padding file. -/
def paddingAt : List FileInfo → ℕ → Bool
  | [], _ => false
  | fi :: fs, k => if k < fi.len then fi.padding else paddingAt fs (k - fi.len)

section Flat

variable {st st' : Storage}

@[simp] theorem length_fileBytes (st : Storage) (i : ℕ) (fi : FileInfo) :
    (fileBytes st i fi).length = fi.len := by
  unfold fileBytes
  split_ifs <;> simp

theorem fileBytes_get {i : ℕ} {fi : FileInfo} (hp : fi.padding = false) {k : ℕ} (hk : k < fi.len) :
    (fileBytes st i fi)[k]? = some (st.byte i k) := by
  simp [fileBytes, hp, hk]

theorem fileBytes_congr {i : ℕ} {fi : FileInfo} (h : ∀ k, st'.byte i k = st.byte i k) :
    fileBytes st' i fi = fileBytes st i fi := by
  simp only [fileBytes, funext h]

@[simp] theorem length_flatFrom (st : Storage) (i : ℕ) (fs : List FileInfo) :
    (flatFrom st i fs).length = (fs.map FileInfo.len).sum := by
  induction fs generalizing i with
  | nil => rfl
  | cons fi fs ih => simp [flatFrom, ih]

theorem flatFrom_congr {i : ℕ} {fs : List FileInfo} (h : ∀ j k, i ≤ j → st'.byte j k = st.byte j k) :
    flatFrom st' i fs = flatFrom st i fs := by
  induction fs generalizing i with
  | nil => rfl
  | cons fi fs ih =>
    rw [flatFrom, flatFrom, fileBytes_congr fun k => h i k le_rfl,
      ih fun j k hj => h j k (Nat.le_of_succ_le hj)]

/-! Ranges of the torrent, by the file they start in. -/

theorem slice_skip {i : ℕ} {fi : FileInfo} (fs : List FileInfo) {pos : ℕ} (n : ℕ)
    (h : fi.len ≤ pos) :
    ((flatFrom st i (fi :: fs)).drop pos).take n =
      ((flatFrom st (i + 1) fs).drop (pos - fi.len)).take n := by
  rw [flatFrom, take_drop_append_right n (by simpa using h), length_fileBytes]

theorem slice_cons {i : ℕ} {fi : FileInfo} (fs : List FileInfo) {pos : ℕ} (n : ℕ)
    (h : pos ≤ fi.len) :
    ((flatFrom st i (fi :: fs)).drop pos).take n =
      ((fileBytes st i fi).drop pos).take (min (fi.len - pos) n) ++
        (flatFrom st (i + 1) fs).take (n - (fi.len - pos)) := by
  rw [flatFrom, take_drop_append_left n (by simpa using h), length_fileBytes]

end Flat

/-! What a read of one file returns. -/

namespace FileOps

variable {st : Storage} {i : ℕ} {fi : FileInfo}

theorem preadExact_eq {pos n : ℕ} {b : List UInt8} (hp : fi.padding = false)
    (hle : pos + n ≤ fi.len) (h : st.preadExact i pos n = some b) :
    b = ((fileBytes st i fi).drop pos).take n := by
  unfold Storage.preadExact at h
  split_ifs at h with hr
  obtain rfl := Option.some.inj h
  obtain ⟨-, hlen⟩ := hr
  refine List.ext_getElem? ?_
  intro k
  rcases Nat.lt_or_ge k n with hk | hk
  · rw [List.getElem?_take_of_lt hk, List.getElem?_take_of_lt hk, List.getElem?_drop,
      List.getElem?_drop, fileBytes_get hp (by omega), Storage.byte,
      List.getD_eq_getElem?_getD, List.getElem?_eq_getElem (by omega), Option.getD_some]
  · rw [List.getElem?_take_eq_none hk, List.getElem?_take_eq_none hk]

theorem padding_slice {pos n : ℕ} (hp : fi.padding = true) (hle : pos + n ≤ fi.len) :
    List.replicate n 0 = ((fileBytes st i fi).drop pos).take n := by
  rw [fileBytes, if_pos hp, List.drop_replicate, List.take_replicate]
  congr 1
  omega

theorem readChunk_slice {pos n : ℕ} {b : List UInt8} (hle : pos + n ≤ fi.len)
    (h : readChunk st i fi pos n = some b) : b = ((fileBytes st i fi).drop pos).take n := by
  unfold readChunk at h
  split_ifs at h with hp
  · obtain rfl := Option.some.inj h
    exact padding_slice hp hle
  · exact preadExact_eq (by simpa using hp) hle h

theorem updateHashLoop_slice {bufLen rounds pos n : ℕ} {hash r : List UInt8}
    (hle : pos + n ≤ fi.len) (h : updateHashLoop st i fi bufLen rounds pos n hash = some r) :
    r = hash ++ ((fileBytes st i fi).drop pos).take n := by
  induction rounds generalizing pos n hash with
  | zero =>
    simp only [updateHashLoop] at h
    split_ifs at h with hn
    obtain rfl := Option.some.inj h
    simp [hn]
  | succ rounds ih =>
    simp only [updateHashLoop] at h
    split_ifs at h with hn
    · obtain rfl := Option.some.inj h
      simp [hn]
    · obtain ⟨b, hb, hr⟩ := Option.bind_eq_some_iff.1 h
      have hsplit : min bufLen n + (n - min bufLen n) = n := by omega
      rw [ih (by omega) hr, readChunk_slice (by omega) hb, List.append_assoc, ← List.drop_drop,
        ← List.take_add, hsplit]

/-- `check_piece` reads the bytes of the torrent from the offset on. -/
theorem readSegments_slice {fs : List FileInfo} {i pos n : ℕ} {b : List UInt8}
    (h : readSegments st (segments FileInfo.len i fs pos n) = some b) :
    b = ((flatFrom st i fs).drop pos).take n := by
  induction fs generalizing i pos n b with
  | nil =>
    obtain rfl := Option.some.inj h
    simp [flatFrom]
  | cons fi fs ih =>
    by_cases hn : n = 0
    · rw [hn, segments_zero] at h
      obtain rfl := Option.some.inj h
      simp [hn]
    · rcases Nat.lt_or_ge pos fi.len with hlt | hge
      · rw [segments_cons _ _ _ _ _ hn hlt] at h
        obtain ⟨x, hx, hb⟩ := Option.bind_eq_some_iff.1 h
        obtain ⟨y, hy, rfl⟩ := Option.map_eq_some_iff.1 hb
        have hread : x = [] ++ ((fileBytes st i fi).drop pos).take (min (fi.len - pos) n) :=
          updateHashLoop_slice (by omega) hx
        rw [slice_cons fs n hlt.le, hread, ih hy, List.nil_append, List.drop_zero]
      · rw [segments_skip _ _ _ _ _ hge] at h
        rw [ih h, slice_skip fs n hge]

end FileOps

namespace ChunkOps

variable {st : Storage}

theorem readFile_slice {i : ℕ} {fi : FileInfo} {pos n : ℕ} {b : List UInt8}
    (hle : pos + n ≤ fi.len) (h : readFile st i fi pos n = some b) :
    b = ((fileBytes st i fi).drop pos).take n := by
  unfold readFile Storage.readAt at h
  split_ifs at h with hp h0
  · obtain rfl := Option.some.inj h
    exact FileOps.padding_slice hp hle
  · obtain rfl := Option.some.inj h
    simp [h0]
  · exact FileOps.preadExact_eq (by simpa using hp) hle h

/-- `read_chunk` fills the buffer from the offset on, as far as there are files. -/
theorem readChunkLoop_slice {fs : List FileInfo} {i off : ℕ} {buf b : List UInt8}
    (h : (readChunkLoop st i fs off buf).2 = .ok b) :
    b = ((flatFrom st i fs).drop off).take buf.length ++
      buf.drop ((fs.map FileInfo.len).sum - off) := by
  induction fs generalizing i off buf b with
  | nil =>
    obtain rfl := Except.ok.inj h
    simp [flatFrom]
  | cons fi fs ih =>
    rw [List.map_cons, List.sum_cons]
    rw [readChunkLoop] at h
    by_cases hoff : off > fi.len
    · rw [if_pos hoff] at h
      rw [ih h, slice_skip fs _ hoff.le]
      congr 2
      omega
    · rw [if_neg hoff] at h
      simp only at h
      rw [slice_cons fs _ (by omega : off ≤ fi.len)]
      set m := min (fi.len - off) buf.length with hm
      cases hx : readFile st i fi off m with
      | none => simp [hx] at h
      | some x =>
        rw [← readFile_slice (by omega) hx]
        simp only [hx] at h
        by_cases hfull : buf.length ≤ m
        · -- the buffer is full
          rw [if_pos (by simpa using hfull)] at h
          obtain rfl := Except.ok.inj h
          rw [Nat.sub_eq_zero_of_le (by omega), List.take_zero,
            List.drop_eq_nil_of_le (by omega), List.append_nil, List.append_nil]
        · have hmeq : m = fi.len - off := by omega
          rw [if_neg (by simpa using hfull)] at h
          cases hr : (readChunkLoop st (i + 1) fs 0 (buf.drop m)).2 with
          | error e => simp [hr, Except.map] at h
          | ok y =>
            simp only [hr, Except.map, Except.ok.injEq] at h
            rw [← h, ih hr, List.length_drop, List.drop_zero, List.drop_drop, List.append_assoc, hmeq]
            congr 3
            omega

/-! What a write of one file changes. -/

theorem overwrite_getD (bytes : List UInt8) (off : ℕ) (buf : List UInt8) (k : ℕ) :
    (Storage.overwrite bytes off buf).getD k 0 =
      if off ≤ k ∧ k < off + buf.length then buf.getD (k - off) 0 else bytes.getD k 0 := by
  have hbefore : (bytes.take off ++ List.replicate (off - bytes.length) 0).length = off := by
    simp only [List.length_append, List.length_take, List.length_replicate]
    omega
  simp only [Storage.overwrite, List.getD_eq_getElem?_getD]
  rcases Nat.lt_or_ge k off with hk | hk
  · -- before the write: the file itself, or the zeros it grows by
    rw [if_neg (by omega), List.append_assoc, List.getElem?_append_left (by omega)]
    rcases Nat.lt_or_ge k bytes.length with hb | hb
    · rw [List.getElem?_append_left (by rw [List.length_take]; omega), List.getElem?_take_of_lt hk]
    · rw [List.getElem?_append_right (by rw [List.length_take]; omega),
        List.getElem?_eq_none hb, List.getElem?_replicate]
      split_ifs <;> rfl
  · rw [List.append_assoc, List.getElem?_append_right (by omega), hbefore]
    rcases Nat.lt_or_ge (k - off) buf.length with hb | hb
    · rw [if_pos (by omega), List.getElem?_append_left hb]
    · rw [if_neg (by omega), List.getElem?_append_right hb, List.getElem?_drop]
      congr 2
      omega

theorem length_overwrite {bytes buf : List UInt8} {off : ℕ} (h : off + buf.length ≤ bytes.length) :
    (Storage.overwrite bytes off buf).length = bytes.length := by
  simp only [Storage.overwrite, List.length_append, List.length_take, List.length_replicate,
    List.length_drop]
  omega

theorem length_overwrite_front (bytes : List UInt8) (off : ℕ) :
    (bytes.take off ++ List.replicate (off - bytes.length) 0).length = off := by
  simp only [List.length_append, List.length_take, List.length_replicate]
  omega

theorem overwrite_get {bytes buf : List UInt8} {off k : ℕ} (hk : k < buf.length) :
    (Storage.overwrite bytes off buf)[off + k]? = buf[k]? := by
  have hfront := length_overwrite_front bytes off
  rw [Storage.overwrite, List.append_assoc, List.getElem?_append_right (by omega), hfront,
    Nat.add_sub_cancel_left, List.getElem?_append_left hk]

theorem overwrite_get_outside {bytes buf : List UInt8} {off k : ℕ} {b : UInt8}
    (hb : bytes[k]? = some b) (hout : k < off ∨ off + buf.length ≤ k) :
    (Storage.overwrite bytes off buf)[k]? = some b := by
  have hfront := length_overwrite_front bytes off
  have hlt := (List.getElem?_eq_some_iff.1 hb).1
  rw [Storage.overwrite]
  rcases hout with hk | hk
  · rw [List.append_assoc, List.getElem?_append_left (by omega),
      List.getElem?_append_left (by rw [List.length_take]; omega), List.getElem?_take_of_lt hk, hb]
  · rw [List.getElem?_append_right (by rw [List.length_append]; omega), List.length_append, hfront,
      List.getElem?_drop, Nat.add_sub_cancel' hk, hb]

/-- `buf` is written at `off` of the file `i`. -/
structure Stored (st st' : Storage) (i off : ℕ) (buf : List UInt8) : Prop where
  fails : st'.fails = st.fails
  byte : ∀ j k, st'.byte j k =
    if j = i ∧ off ≤ k ∧ k < off + buf.length then buf.getD (k - off) 0 else st.byte j k
  grows : ∀ j, (st.contents j).length ≤ (st'.contents j).length
  covers : buf ≠ [] → off + buf.length ≤ (st'.contents i).length

theorem pwriteAll_stored {rejects : ℕ → ℕ → ℕ → Bool} {st' : Storage} {i off : ℕ}
    {buf : List UInt8} (h : st.pwriteAll rejects i off buf = some st') :
    Stored st st' i off buf := by
  unfold Storage.pwriteAll at h
  split_ifs at h with hb hr
  · obtain rfl := Option.some.inj h
    refine ⟨rfl, ?_, fun _ => le_rfl, fun hne => absurd hb hne⟩
    intro j k
    rw [if_neg]
    simp only [hb, List.length_nil]
    omega
  · obtain rfl := Option.some.inj h
    refine ⟨rfl, ?_, ?_, ?_⟩
    · intro j k
      simp only [Storage.byte]
      by_cases hj : j = i
      · subst hj
        simp only [Function.update_self, overwrite_getD, true_and]
      · rw [Function.update_of_ne hj, if_neg (by tauto)]
    · intro j
      by_cases hj : j = i
      · subst hj
        simp only [Function.update_self, Storage.overwrite, List.length_append, List.length_take,
          List.length_replicate, List.length_drop]
        omega
      · simp only [Function.update_of_ne hj, le_refl]
    · intro _
      simp only [Function.update_self, Storage.overwrite, List.length_append, List.length_take,
        List.length_replicate, List.length_drop]
      omega

theorem Stored.append {st₁ st₂ : Storage} {i off : ℕ} {first second : List UInt8}
    (h1 : Stored st st₁ i off first) (h2 : Stored st₁ st₂ i (off + first.length) second) :
    Stored st st₂ i off (first ++ second) := by
  refine ⟨h2.fails.trans h1.fails, ?_, fun j => (h1.grows j).trans (h2.grows j), ?_⟩
  · intro j k
    rw [h2.byte, h1.byte, List.length_append]
    by_cases hj : j = i
    · rcases Nat.lt_or_ge k (off + first.length) with hk | hk
      · rw [if_neg (by omega)]
        by_cases ho : off ≤ k
        · rw [if_pos ⟨hj, ho, hk⟩, if_pos ⟨hj, ho, by omega⟩, List.getD_append _ _ _ _ (by omega)]
        · rw [if_neg (by omega), if_neg (by omega)]
      · rw [if_neg (by omega : ¬(j = i ∧ off ≤ k ∧ k < off + first.length))]
        by_cases he : k < off + first.length + second.length
        · rw [if_pos ⟨hj, hk, he⟩, if_pos ⟨hj, by omega, by omega⟩,
            List.getD_append_right _ _ _ _ (by omega), Nat.sub_sub]
        · rw [if_neg (by omega), if_neg (by omega)]
    · rw [if_neg (by tauto), if_neg (by tauto), if_neg (by tauto)]
  · intro hne
    rw [List.length_append]
    by_cases hs : second = []
    · subst hs
      have hf : first ≠ [] := by simpa using hne
      have hc := h1.covers hf
      have hg := h2.grows i
      simp only [List.length_nil]
      omega
    · have hc := h2.covers hs
      omega

theorem pwriteAllVectored_stored {rejects : ℕ → ℕ → ℕ → Bool} {st' : Storage} {i off : ℕ}
    {bufs : List UInt8 × List UInt8} (h : st.pwriteAllVectored rejects i off bufs = .ok st') :
    Stored st st' i off (bufs.1 ++ bufs.2) := by
  unfold Storage.pwriteAllVectored at h
  cases h1 : st.pwriteAll rejects i off bufs.1 with
  | none => simp [h1] at h
  | some st₁ =>
    simp only [h1] at h
    cases h2 : st₁.pwriteAll rejects i (off + bufs.1.length) bufs.2 with
    | none => simp [h2] at h
    | some st₂ =>
      simp only [h2, Except.ok.injEq] at h
      subst h
      exact (pwriteAll_stored h1).append (pwriteAll_stored h2)

theorem pwriteAllVectored_ok {rejects : ℕ → ℕ → ℕ → Bool} (hr : ∀ i off n, rejects i off n = false)
    (st : Storage) (i off : ℕ) (bufs : List UInt8 × List UInt8) :
    ∃ st', st.pwriteAllVectored rejects i off bufs = .ok st' := by
  have hone (st : Storage) (off : ℕ) (buf : List UInt8) :
      ∃ st', st.pwriteAll rejects i off buf = some st' := by
    unfold Storage.pwriteAll
    split_ifs with hb h
    · exact ⟨st, rfl⟩
    · simp [hr] at h
    · exact ⟨_, rfl⟩
  obtain ⟨st₁, h1⟩ := hone st off bufs.1
  obtain ⟨st₂, h2⟩ := hone st₁ (off + bufs.1.length) bufs.2
  refine ⟨st₂, ?_⟩
  simp only [Storage.pwriteAllVectored, h1, h2]

end ChunkOps

end Rtbit
