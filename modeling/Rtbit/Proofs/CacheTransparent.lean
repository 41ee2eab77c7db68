import Rtbit.Lib.Runs
import Rtbit.Sanity.Chunks
import Rtbit.Sanity.FileLayout
import Rtbit.Spec.WriteThroughCache

/-! The write-through cache against its underlying storage. A write puts the whole piece into the
cache, with zeros for what is not written, and does so before the underlying storage has answered.
So a byte of the cache is that of the storage if it has been written since its piece was put there,
and the last write of it has succeeded. -/

namespace Rtbit

open Lib

variable {l : Lengths} {σ E : Type}

/-- What is assumed of `compute_current_piece`: it finds the positions inside the torrent. -/
def Locates (l : Lengths) (computeCurrentPiece : ℕ → ℕ → Option (CurrentPosition l)) : Prop :=
  ∀ offset start,
    (start + offset < l.totalLength → ∃ current, computeCurrentPiece offset start = some current ∧
      current.id * l.defaultPieceLength + current.pieceOffset = start + offset ∧
      current.pieceOffset < l.pieceLength current.id) ∧
    (l.totalLength ≤ start + offset → computeCurrentPiece offset start = none)

/-- What is assumed of the underlying storage, of which `content` has the bytes that can be read:
bytes that are there are read; a write that succeeds puts its bytes there; a write that fails may
leave anything in its range; and `pwrite_all_vectored` ends as the default of the trait does. -/
structure TorrentStorage.Lawful (u : TorrentStorage σ E) (content : σ → ℕ → ℕ → Option UInt8) :
    Prop where
  read : ∀ st fileId offset (bytes : List UInt8),
    (∀ k b, bytes[k]? = some b → content st fileId (offset + k) = some b) →
      u.preadExact st fileId offset bytes.length = .ok bytes
  write : ∀ st fileId offset (buf : List UInt8), (u.pwriteAll st fileId offset buf).2 = .ok () →
    ∀ k b, buf[k]? = some b →
      content (u.pwriteAll st fileId offset buf).1 fileId (offset + k) = some b
  frame : ∀ st fileId offset (buf : List UInt8) i k b, content st i k = some b →
    (i = fileId → k < offset ∨ offset + buf.length ≤ k) →
      content (u.pwriteAll st fileId offset buf).1 i k = some b
  vectored : ∀ st fileId offset bufs,
    StorageReply.of .written (u.pwriteAllVectored st fileId offset bufs).2 =
      StorageReply.of .written (pwriteAllVectoredDefault u.pwriteAll st fileId offset bufs).2

/-- The position `k` of the torrent is in the piece. -/
def InPiece (l : Lengths) (p : ValidPieceIndex l) (k : ℕ) : Prop :=
  p * l.defaultPieceLength ≤ k ∧ k < p * l.defaultPieceLength + l.pieceLength p

instance (p : ValidPieceIndex l) (k : ℕ) : Decidable (InPiece l p k) :=
  inferInstanceAs (Decidable (_ ∧ _))

theorem InPiece.unique {p q : ValidPieceIndex l} {k : ℕ} (hp : InPiece l p k) (hq : InPiece l q k) :
    p = q := by
  have hdiv {r : ValidPieceIndex l} (h : InPiece l r k) : k / l.defaultPieceLength = r := by
    have hle := l.pieceLength_eq r r.isLt
    refine Nat.div_eq_of_lt_le h.1 (lt_of_lt_of_le h.2 ?_)
    rw [Nat.add_mul, Nat.one_mul]
    omega
  exact Fin.ext ((hdiv hp).symm.trans (hdiv hq))

/-- A position is in one file. -/
theorem LooseLayout.position_unique {fs : List FileInfo} (h : LooseLayout l fs) {i j o k : ℕ}
    {fi fj : FileInfo} (hi : fs[i]? = some fi) (hj : fs[j]? = some fj) (ho : o < fi.len) (hk : k < fj.len)
    (heq : fi.offsetInTorrent + o = fj.offsetInTorrent + k) : i = j := by
  have hbefore {i j : ℕ} {fi fj : FileInfo} (hi : fs[i]? = some fi) (hj : fs[j]? = some fj)
      (hij : i < j) : fi.offsetInTorrent + fi.len ≤ fj.offsetInTorrent := by
    have hget : (fs.take j)[i]? = some fi := by
      rw [List.getElem?_take_of_lt hij]
      exact hi
    have hsum : (((fs.take j).take i).map FileInfo.len).sum + fi.len ≤
        ((fs.take j).map FileInfo.len).sum := take_sum_add_le hget
    rw [List.take_take, Nat.min_eq_left hij.le, ← h.offset_eq i fi hi, ← h.offset_eq j fj hj] at hsum
    exact hsum
  rcases Nat.lt_trichotomy i j with hlt | rfl | hgt
  · have hle := hbefore hi hj hlt
    omega
  · rfl
  · have hle := hbefore hj hi hgt
    omega

/-- The call stays in one file and in one piece. -/
def StaysInside (l : Lengths) (fs : List FileInfo) (fileId offset len : ℕ) : Prop :=
  ∃ fi, fs[fileId]? = some fi ∧ offset + len ≤ fi.len ∧ ∃ p : ValidPieceIndex l,
    p * l.defaultPieceLength ≤ fi.offsetInTorrent + offset ∧
      fi.offsetInTorrent + offset + len ≤ p * l.defaultPieceLength + l.pieceLength p

def StorageCall.Inside (l : Lengths) (fs : List FileInfo) : StorageCall → Prop
  | .preadExact fileId offset len => StaysInside l fs fileId offset len
  | .pwriteAll fileId offset buf => StaysInside l fs fileId offset buf.length
  | .pwriteAllVectored fileId offset bufs =>
    StaysInside l fs fileId offset (bufs.1 ++ bufs.2).length

/-- The cache, and the positions of the torrent that have been written since their piece was put
there, the last time with success. -/
structure Traced (l : Lengths) (σ : Type) where
  cache : WriteThroughCacheStorage l σ
  fresh : ℕ → Bool

section

variable (computeCurrentPiece : ℕ → ℕ → Option (CurrentPosition l)) (fs : List FileInfo)
  (u : TorrentStorage σ E)

/-- `fresh` behind a write to the cache. -/
def Traced.freshBehind (t : Traced l σ) (fileId offset : ℕ) (buf : List UInt8) : ℕ → Bool :=
  match WriteThroughCacheStorage.locate (E := E) computeCurrentPiece fs fileId offset with
  | .error _ => t.fresh
  | .ok current => fun k =>
    let start := current.id * l.defaultPieceLength + current.pieceOffset
    if start ≤ k ∧ k < start + buf.length then
      (t.cache.pwriteAll computeCurrentPiece fs u fileId offset buf).2.isOk
    else if (t.cache.lru.find current.id).isNone ∧ InPiece l current.id k then false
    else t.fresh k

def Traced.pwriteAll (t : Traced l σ) (fileId offset : ℕ) (buf : List UInt8) :
    Traced l σ × Except (CacheError E) Unit :=
  let (cache, r) := t.cache.pwriteAll computeCurrentPiece fs u fileId offset buf
  (⟨cache, t.freshBehind computeCurrentPiece fs u fileId offset buf⟩, r)

def Traced.step (t : Traced l σ) : StorageCall → Option (Traced l σ)
  | .preadExact fileId offset len =>
    some ⟨(t.cache.preadExact computeCurrentPiece fs u fileId offset len).1, t.fresh⟩
  | .pwriteAll fileId offset buf =>
    some (t.pwriteAll computeCurrentPiece fs u fileId offset buf).1
  | .pwriteAllVectored fileId offset bufs =>
    some (pwriteAllVectoredDefault (Traced.pwriteAll computeCurrentPiece fs u) t fileId offset
      bufs).1

end

section

variable {computeCurrentPiece : ℕ → ℕ → Option (CurrentPosition l)} {fs : List FileInfo}
  {u : TorrentStorage σ E} {content : σ → ℕ → ℕ → Option UInt8}

/-- The start of the range is in the torrent. -/
def Starts (l : Lengths) (fs : List FileInfo) (fileId offset : ℕ) : Prop :=
  ∀ fi, fs[fileId]? = some fi → fi.offsetInTorrent + offset < l.totalLength

/-- The bytes at `len` positions of a cached piece have been written since it was cached. -/
def Traced.Fresh (computeCurrentPiece : ℕ → ℕ → Option (CurrentPosition l)) (fs : List FileInfo)
    (t : Traced l σ) (fileId offset len : ℕ) : Prop :=
  ∀ fi current, fs[fileId]? = some fi →
    computeCurrentPiece offset fi.offsetInTorrent = some current →
      (t.cache.lru.find current.id).isSome →
        ∀ k < len, t.fresh (fi.offsetInTorrent + offset + k) = true

/-- No range starts behind the torrent, and of a cached piece only what has been written is read. -/
def Traced.Safe (computeCurrentPiece : ℕ → ℕ → Option (CurrentPosition l)) (fs : List FileInfo)
    (u : TorrentStorage σ E) (t : Traced l σ) : StorageCall → Prop
  | .preadExact fileId offset len =>
    Starts l fs fileId offset ∧ t.Fresh computeCurrentPiece fs fileId offset len
  | .pwriteAll fileId offset _ => Starts l fs fileId offset
  | .pwriteAllVectored fileId offset bufs =>
    Starts l fs fileId offset ∧
      ((u.pwriteAll t.cache.underlying fileId offset bufs.1).2.isOk = true →
        Starts l fs fileId (offset + bufs.1.length))

/-- The bytes that are fresh are those of the underlying storage. -/
structure Traced.Coherent (content : σ → ℕ → ℕ → Option UInt8) (fs : List FileInfo)
    (t : Traced l σ) : Prop where
  length : ∀ p b, t.cache.lru.find p = some b → b.length = l.pieceLength p
  fresh : ∀ p b, t.cache.lru.find p = some b → ∀ k, InPiece l p k → t.fresh k = true →
    ∃ i fi o, fs[i]? = some fi ∧ o < fi.len ∧ fi.offsetInTorrent + o = k ∧
      content t.cache.underlying i o = some (b.getD (k - p * l.defaultPieceLength) 0)

/-- Where a call is in its piece. -/
theorem StaysInside.locate (hloc : Locates l computeCurrentPiece) {fileId offset len : ℕ}
    (h : StaysInside l fs fileId offset len) (hstart : Starts l fs fileId offset) :
    ∃ fi current, fs[fileId]? = some fi ∧ offset + len ≤ fi.len ∧
      computeCurrentPiece offset fi.offsetInTorrent = some current ∧
      WriteThroughCacheStorage.locate (E := E) computeCurrentPiece fs fileId offset = .ok current ∧
      current.id * l.defaultPieceLength + current.pieceOffset = fi.offsetInTorrent + offset ∧
      current.pieceOffset + len ≤ l.pieceLength current.id := by
  obtain ⟨fi, hfi, hle, p, hp, hend⟩ := h
  obtain ⟨current, hcur, hpos, hlt⟩ := (hloc offset fi.offsetInTorrent).1 (hstart fi hfi)
  refine ⟨fi, current, hfi, hle, hcur, ?_, hpos, ?_⟩
  · rw [WriteThroughCacheStorage.locate, hfi]
    dsimp only
    rw [hcur]
  · rcases Nat.eq_zero_or_pos len with rfl | hlen
    · omega
    · have hin : InPiece l current.id (fi.offsetInTorrent + offset) := ⟨by omega, by omega⟩
      obtain rfl := hin.unique ⟨hp, by omega⟩
      omega

/-! One write. -/

theorem Traced.Coherent.length_getD {t : Traced l σ} (h : t.Coherent content fs)
    (p : ValidPieceIndex l) :
    ((t.cache.lru.find p).getD (List.replicate (l.pieceLength p) 0)).length = l.pieceLength p := by
  cases hf : t.cache.lru.find p with
  | none => exact List.length_replicate
  | some b => exact h.length p b hf

/-- A write that has its place in the piece is passed on. -/
theorem Traced.Coherent.pwriteAll_eq {t : Traced l σ} (h : t.Coherent content fs)
    {fileId offset : ℕ} {buf : List UInt8} {current : CurrentPosition l}
    (hcur : WriteThroughCacheStorage.locate (E := E) computeCurrentPiece fs fileId offset =
      .ok current)
    (hend : current.pieceOffset + buf.length ≤ l.pieceLength current.id) :
    t.cache.pwriteAll computeCurrentPiece fs u fileId offset buf =
      (⟨t.cache.lru.put current.id (Storage.overwrite
          ((t.cache.lru.find current.id).getD (List.replicate (l.pieceLength current.id) 0))
          current.pieceOffset buf),
        (u.pwriteAll t.cache.underlying fileId offset buf).1⟩,
        (u.pwriteAll t.cache.underlying fileId offset buf).2.mapError .underlying) := by
  rw [WriteThroughCacheStorage.pwriteAll, hcur]
  dsimp only
  rw [if_pos (by rw [h.length_getD]; exact hend)]
  rfl

theorem isOk_mapError {α F : Type} {r : Except E α} (f : E → F) : (r.mapError f).isOk = r.isOk := by
  cases r <;> rfl

/-- The bytes that are not in the range of a write stay. -/
theorem TorrentStorage.Lawful.keeps (hlaw : u.Lawful content) {st : σ} {fileId offset i o : ℕ}
    {buf : List UInt8} {fi fj : FileInfo} {b : UInt8} (hfi : fs[fileId]? = some fi)
    (hj : fs[i]? = some fj)
    (hout : ¬(fi.offsetInTorrent + offset ≤ fj.offsetInTorrent + o ∧
      fj.offsetInTorrent + o < fi.offsetInTorrent + offset + buf.length))
    (hb : content st i o = some b) :
    content (u.pwriteAll st fileId offset buf).1 i o = some b := by
  refine hlaw.frame _ _ _ _ _ _ _ hb ?_
  rintro rfl
  obtain rfl := Option.some.inj (hfi.symm.trans hj)
  omega

/-- A write decides for its range; of a piece that it puts into the cache, the rest is zeros. -/
theorem Traced.Coherent.fresh_pwriteAll {t : Traced l σ} (h : t.Coherent content fs)
    {fileId offset : ℕ} {buf : List UInt8} {fi : FileInfo} {current : CurrentPosition l}
    (hcur : WriteThroughCacheStorage.locate (E := E) computeCurrentPiece fs fileId offset =
      .ok current)
    (hpos : current.id * l.defaultPieceLength + current.pieceOffset = fi.offsetInTorrent + offset)
    (hend : current.pieceOffset + buf.length ≤ l.pieceLength current.id) (k : ℕ) :
    (t.pwriteAll computeCurrentPiece fs u fileId offset buf).1.fresh k =
      if fi.offsetInTorrent + offset ≤ k ∧ k < fi.offsetInTorrent + offset + buf.length then
        (u.pwriteAll t.cache.underlying fileId offset buf).2.isOk
      else if (t.cache.lru.find current.id).isNone ∧ InPiece l current.id k then false
      else t.fresh k := by
  change t.freshBehind computeCurrentPiece fs u fileId offset buf k = _
  rw [Traced.freshBehind, hcur]
  dsimp only
  rw [hpos, h.pwriteAll_eq (u := u) hcur hend, isOk_mapError]

theorem Traced.Coherent.pwriteAll {t : Traced l σ} (hlaw : u.Lawful content)
    (hloc : Locates l computeCurrentPiece) (h : t.Coherent content fs) {fileId offset : ℕ}
    {buf : List UInt8} (hin : StaysInside l fs fileId offset buf.length)
    (hstart : Starts l fs fileId offset) :
    (t.pwriteAll computeCurrentPiece fs u fileId offset buf).1.Coherent content fs := by
  obtain ⟨fi, current, hfi, hle, hcomp, hcur, hpos, hend⟩ := hin.locate (E := E) hloc hstart
  have heq := h.pwriteAll_eq (u := u) hcur hend
  have hlen := h.length_getD current.id
  have hcache : (t.pwriteAll computeCurrentPiece fs u fileId offset buf).1.cache =
      (t.cache.pwriteAll computeCurrentPiece fs u fileId offset buf).1 := rfl
  refine ⟨?_, ?_⟩
  · intro p b hb
    rw [hcache, heq] at hb
    by_cases hp : p = current.id
    · subst hp
      rw [Lru.find_put] at hb
      obtain rfl := Option.some.inj hb
      rw [ChunkOps.length_overwrite (by rw [hlen]; exact hend), hlen]
    · exact h.length p b (Lru.find_of_put_ne hp hb)
  · intro p b hb k hk hf
    rw [h.fresh_pwriteAll hcur hpos hend] at hf
    rw [hcache, heq] at hb ⊢
    dsimp only at hb ⊢
    have hkle := hk.1
    by_cases hp : p = current.id
    · subst hp
      rw [Lru.find_put] at hb
      obtain rfl := Option.some.inj hb
      rw [ChunkOps.overwrite_getD]
      by_cases hrange : fi.offsetInTorrent + offset ≤ k ∧
          k < fi.offsetInTorrent + offset + buf.length
      · -- a byte of the write
        rw [if_pos hrange] at hf
        have hok : (u.pwriteAll t.cache.underlying fileId offset buf).2 = .ok () := by
          cases hr : (u.pwriteAll t.cache.underlying fileId offset buf).2 with
          | error e =>
            rw [hr] at hf
            cases hf
          | ok _ => rfl
        refine ⟨fileId, fi, offset + (k - (fi.offsetInTorrent + offset)), hfi, by omega, by omega, ?_⟩
        rw [if_pos ⟨by omega, by omega⟩]
        refine hlaw.write _ _ _ _ hok _ _ ?_
        have hidx : k - current.id * l.defaultPieceLength - current.pieceOffset =
            k - (fi.offsetInTorrent + offset) := by omega
        rw [hidx, List.getD_eq_getElem _ _ (by omega), List.getElem?_eq_getElem]
      · rw [if_neg hrange] at hf
        cases hold : t.cache.lru.find current.id with
        | none =>
          rw [hold, if_pos ⟨rfl, hk⟩] at hf
          cases hf
        | some old =>
          rw [hold, if_neg (by simp)] at hf
          obtain ⟨i, fj, o, hj, ho, hjk, hcont⟩ := h.fresh _ old hold k hk hf
          refine ⟨i, fj, o, hj, ho, hjk, ?_⟩
          rw [if_neg (by omega), Option.getD_some]
          exact hlaw.keeps hfi hj (by rw [hjk]; exact hrange) hcont
    · have hold := Lru.find_of_put_ne hp hb
      have hother : ¬InPiece l current.id k := fun hin => hp (hk.unique hin)
      have hrange : ¬(fi.offsetInTorrent + offset ≤ k ∧
          k < fi.offsetInTorrent + offset + buf.length) := by
        rintro ⟨h1, h2⟩
        exact hother ⟨by omega, by omega⟩
      rw [if_neg hrange, if_neg (fun hn => hother hn.2)] at hf
      obtain ⟨i, fj, o, hj, ho, hjk, hcont⟩ := h.fresh p b hold k hk hf
      exact ⟨i, fj, o, hj, ho, hjk, hlaw.keeps hfi hj (by rw [hjk]; exact hrange) hcont⟩

/-- The write ends as that to the underlying storage does, which it leaves in the same state. -/
theorem Traced.Coherent.pwriteAll_result {t : Traced l σ} (hloc : Locates l computeCurrentPiece)
    (h : t.Coherent content fs) {fileId offset : ℕ} {buf : List UInt8}
    (hin : StaysInside l fs fileId offset buf.length) (hstart : Starts l fs fileId offset) :
    (t.cache.pwriteAll computeCurrentPiece fs u fileId offset buf).1.underlying =
      (u.pwriteAll t.cache.underlying fileId offset buf).1 ∧
    (t.cache.pwriteAll computeCurrentPiece fs u fileId offset buf).2 =
      (u.pwriteAll t.cache.underlying fileId offset buf).2.mapError .underlying := by
  obtain ⟨fi, current, -, -, -, hcur, -, hend⟩ := hin.locate (E := E) hloc hstart
  rw [h.pwriteAll_eq (u := u) hcur hend]
  exact ⟨rfl, rfl⟩

/-! The two slices of a vectored write. -/

theorem StaysInside.first {fileId offset : ℕ} {bufs : List UInt8 × List UInt8}
    (h : StaysInside l fs fileId offset (bufs.1 ++ bufs.2).length) :
    StaysInside l fs fileId offset bufs.1.length := by
  obtain ⟨fi, hfi, hle, p, hp, hend⟩ := h
  rw [List.length_append] at hle hend
  exact ⟨fi, hfi, by omega, p, hp, by omega⟩

theorem StaysInside.second {fileId offset : ℕ} {bufs : List UInt8 × List UInt8}
    (h : StaysInside l fs fileId offset (bufs.1 ++ bufs.2).length) :
    StaysInside l fs fileId (offset + bufs.1.length) bufs.2.length := by
  obtain ⟨fi, hfi, hle, p, hp, hend⟩ := h
  rw [List.length_append] at hle hend
  exact ⟨fi, hfi, by omega, p, by omega, by omega⟩

/-- The second slice is written when the first has been. -/
theorem vectoredDefault_eq {τ F : Type} (w : τ → (fileId offset : ℕ) → List UInt8 → τ × Except F Unit)
    (st : τ) (fileId offset : ℕ) (bufs : List UInt8 × List UInt8) :
    pwriteAllVectoredDefault w st fileId offset bufs =
      match (w st fileId offset bufs.1).2 with
      | .error e => ((w st fileId offset bufs.1).1, .error e)
      | .ok () =>
        ((w (w st fileId offset bufs.1).1 fileId (offset + bufs.1.length) bufs.2).1,
          (w (w st fileId offset bufs.1).1 fileId (offset + bufs.1.length) bufs.2).2.map
            fun _ => bufs.1.length + bufs.2.length) := by
  unfold pwriteAllVectoredDefault
  rcases w st fileId offset bufs.1 with ⟨st₁, e | u⟩
  · rfl
  · dsimp only
    rcases w st₁ fileId (offset + bufs.1.length) bufs.2 with ⟨st₂, e | u⟩
    · rfl
    · rfl

theorem of_mapError {α F : Type} (ok : α → StorageReply) (f : E → F) (r : Except E α) :
    StorageReply.of ok (r.mapError f) = StorageReply.of ok r := by
  cases r <;> rfl

theorem of_map {α β : Type} (ok : β → StorageReply) (f : α → β) (r : Except E α) :
    StorageReply.of ok (r.map f) = StorageReply.of (fun a => ok (f a)) r := by
  cases r <;> rfl

theorem Traced.Coherent.vectored {t : Traced l σ} (hlaw : u.Lawful content)
    (hloc : Locates l computeCurrentPiece) (h : t.Coherent content fs) {fileId offset : ℕ}
    {bufs : List UInt8 × List UInt8}
    (hin : StaysInside l fs fileId offset (bufs.1 ++ bufs.2).length)
    (hstart : Starts l fs fileId offset)
    (hsecond : (u.pwriteAll t.cache.underlying fileId offset bufs.1).2.isOk = true →
      Starts l fs fileId (offset + bufs.1.length)) :
    (pwriteAllVectoredDefault (Traced.pwriteAll computeCurrentPiece fs u) t fileId offset
        bufs).1.Coherent content fs ∧
      StorageReply.of .written
          (t.cache.pwriteAllVectored computeCurrentPiece fs u fileId offset bufs).2 =
        StorageReply.of .written
          (pwriteAllVectoredDefault u.pwriteAll t.cache.underlying fileId offset bufs).2 := by
  obtain ⟨hst₁, hr₁⟩ := h.pwriteAll_result (u := u) hloc hin.first hstart
  have h₁ := h.pwriteAll hlaw hloc hin.first hstart
  have htraced : (t.pwriteAll computeCurrentPiece fs u fileId offset bufs.1).2 =
      (t.cache.pwriteAll computeCurrentPiece fs u fileId offset bufs.1).2 := rfl
  rw [WriteThroughCacheStorage.pwriteAllVectored, vectoredDefault_eq, vectoredDefault_eq,
    vectoredDefault_eq, htraced, hr₁]
  cases hu : (u.pwriteAll t.cache.underlying fileId offset bufs.1).2 with
  | error e => exact ⟨h₁, rfl⟩
  | ok x =>
    have hnext := hsecond (by rw [hu]; rfl)
    refine ⟨h₁.pwriteAll hlaw hloc hin.second hnext, ?_⟩
    have hr₂ := (h₁.pwriteAll_result (u := u) hloc hin.second hnext).2
    have hcache : (t.pwriteAll computeCurrentPiece fs u fileId offset bufs.1).1.cache =
        (t.cache.pwriteAll computeCurrentPiece fs u fileId offset bufs.1).1 := rfl
    rw [hcache, hst₁] at hr₂
    change StorageReply.of .written (Except.map _ _) = StorageReply.of .written (Except.map _ _)
    rw [hr₂, of_map, of_mapError, of_map]

/-! A read. -/

theorem Traced.Coherent.read {t : Traced l σ} (hlayout : LooseLayout l fs) (hlaw : u.Lawful content)
    (hloc : Locates l computeCurrentPiece) (h : t.Coherent content fs) {fileId offset len : ℕ}
    (hin : StaysInside l fs fileId offset len) (hstart : Starts l fs fileId offset)
    (hfresh : t.Fresh computeCurrentPiece fs fileId offset len) :
    StorageReply.of .bytes (t.cache.preadExact computeCurrentPiece fs u fileId offset len).2 =
      StorageReply.of .bytes (u.preadExact t.cache.underlying fileId offset len) := by
  obtain ⟨fi, current, hfi, hle, hcomp, hcur, hpos, hend⟩ := hin.locate (E := E) hloc hstart
  rw [WriteThroughCacheStorage.preadExact, hcur]
  dsimp only
  unfold Lru.get
  cases hf : t.cache.lru.find current.id with
  | none => exact of_mapError _ _ _
  | some p =>
    have hlen := h.length _ p hf
    dsimp only
    rw [if_pos (by omega)]
    have hblen : ((p.drop current.pieceOffset).take len).length = len := by
      rw [List.length_take, List.length_drop]
      omega
    -- the bytes of the cache are those of the storage
    have hread := hlaw.read t.cache.underlying fileId offset
      ((p.drop current.pieceOffset).take len) (by
        intro k b hb
        have hk : k < len := by
          rw [← hblen]
          exact (List.getElem?_eq_some_iff.1 hb).1
        have hkp : InPiece l current.id (fi.offsetInTorrent + offset + k) := ⟨by omega, by omega⟩
        obtain ⟨i, fj, o, hj, ho, hjk, hcont⟩ := h.fresh _ p hf _ hkp
          (hfresh fi current hfi hcomp (by rw [hf]; rfl) k hk)
        obtain rfl := hlayout.position_unique hj hfi ho (k := offset + k) (by omega) (by omega)
        obtain rfl := Option.some.inj (hfi.symm.trans hj)
        have hok : o = offset + k := by omega
        subst hok
        rw [hcont, List.getD_eq_getElem?_getD]
        rw [List.getElem?_take_of_lt hk, List.getElem?_drop] at hb
        have hidx : fi.offsetInTorrent + offset + k - current.id * l.defaultPieceLength =
            current.pieceOffset + k := by omega
        rw [hidx, hb, Option.getD_some])
    rw [hblen] at hread
    rw [hread]
    rfl

theorem Traced.Coherent.afterRead {t : Traced l σ} (h : t.Coherent content fs)
    (fileId offset len : ℕ) :
    Traced.Coherent content fs
      ⟨(t.cache.preadExact computeCurrentPiece fs u fileId offset len).1, t.fresh⟩ := by
  have hafter : (t.cache.preadExact computeCurrentPiece fs u fileId offset len).1.underlying =
      t.cache.underlying ∧ ∀ p b,
      (t.cache.preadExact computeCurrentPiece fs u fileId offset len).1.lru.find p = some b →
        t.cache.lru.find p = some b := by
    unfold WriteThroughCacheStorage.preadExact
    cases WriteThroughCacheStorage.locate (E := E) computeCurrentPiece fs fileId offset with
    | error e => exact ⟨rfl, fun _ _ hf => hf⟩
    | ok current =>
      dsimp only
      have hget (p : ValidPieceIndex l) (b : List UInt8)
          (hf : (t.cache.lru.get current.id).2.find p = some b) : t.cache.lru.find p = some b :=
        Lru.find_of_get hf
      generalize t.cache.lru.get current.id = r at hget ⊢
      obtain ⟨_ | p, lru⟩ := r
      · exact ⟨rfl, hget⟩
      · dsimp only
        split_ifs
        · exact ⟨rfl, hget⟩
        · exact ⟨rfl, hget⟩
  obtain ⟨hu, hfind⟩ := hafter
  refine ⟨fun p b hb => h.length p b (hfind p b hb), ?_⟩
  intro p b hb k hk hf
  rw [hu]
  exact h.fresh p b (hfind p b hb) k hk hf

/-- Every call of a coherent cache keeps it so, and replies as the underlying storage would. -/
theorem Traced.Coherent.step {t t' : Traced l σ} (hlayout : LooseLayout l fs)
    (hlaw : u.Lawful content) (hloc : Locates l computeCurrentPiece) (h : t.Coherent content fs)
    {c : StorageCall} (hin : c.Inside l fs) (hsafe : t.Safe computeCurrentPiece fs u c)
    (hs : t.step computeCurrentPiece fs u c = some t') :
    t'.Coherent content fs ∧
      (t.cache.call computeCurrentPiece fs u c).2 = (u.call t.cache.underlying c).2 := by
  cases c with
  | preadExact fileId offset len =>
    cases hs
    exact ⟨h.afterRead fileId offset len, h.read hlayout hlaw hloc hin hsafe.1 hsafe.2⟩
  | pwriteAll fileId offset buf =>
    cases hs
    refine ⟨h.pwriteAll hlaw hloc hin hsafe, ?_⟩
    obtain ⟨-, hr⟩ := h.pwriteAll_result (u := u) hloc hin hsafe
    change StorageReply.of _ (t.cache.pwriteAll computeCurrentPiece fs u fileId offset buf).2 = _
    rw [hr, of_mapError]
    rfl
  | pwriteAllVectored fileId offset bufs =>
    cases hs
    obtain ⟨hcoh, hr⟩ := h.vectored hlaw hloc hin hsafe.1 hsafe.2
    refine ⟨hcoh, ?_⟩
    change StorageReply.of _
      (t.cache.pwriteAllVectored computeCurrentPiece fs u fileId offset bufs).2 = _
    rw [hr, ← hlaw.vectored]
    rfl

/-- The cache of a traced step is that of the call. -/
theorem Traced.step_cache {t t' : Traced l σ} {c : StorageCall}
    (hs : t.step computeCurrentPiece fs u c = some t') :
    t'.cache = (t.cache.call computeCurrentPiece fs u c).1 := by
  cases c with
  | preadExact fileId offset len =>
    cases hs
    rfl
  | pwriteAll fileId offset buf =>
    cases hs
    rfl
  | pwriteAllVectored fileId offset bufs =>
    cases hs
    change _ = (t.cache.pwriteAllVectored computeCurrentPiece fs u fileId offset bufs).1
    rw [WriteThroughCacheStorage.pwriteAllVectored, vectoredDefault_eq, vectoredDefault_eq]
    have htraced : (t.pwriteAll computeCurrentPiece fs u fileId offset bufs.1).2 =
        (t.cache.pwriteAll computeCurrentPiece fs u fileId offset bufs.1).2 := rfl
    rw [htraced]
    cases (t.cache.pwriteAll computeCurrentPiece fs u fileId offset bufs.1).2 with
    | error e => rfl
    | ok x => rfl

end

/-- The cache after the calls. -/
def callsThrough {l : Lengths} {σ E : Type}
    (computeCurrentPiece : ℕ → ℕ → Option (CurrentPosition l)) (fs : List FileInfo)
    (u : TorrentStorage σ E) (s : WriteThroughCacheStorage l σ) (calls : List StorageCall) :
    WriteThroughCacheStorage l σ :=
  calls.foldl (fun s c => (s.call computeCurrentPiece fs u c).1) s

def positionIn (l : Lengths) (offset start : ℕ) : Option (CurrentPosition l) :=
  if start + offset < l.totalLength then
    (l.validatePieceIndex ((start + offset) / l.defaultPieceLength)).map fun p =>
      ⟨p, start + offset - p * l.defaultPieceLength⟩
  else none

theorem positionIn_locates (l : Lengths) : Locates l (positionIn l) := by
  intro offset start
  refine ⟨?_, fun h => if_neg (not_lt.2 h)⟩
  intro hlt
  have hle := l.totalLength_le
  have hdiv : (start + offset) / l.defaultPieceLength < l.totalPieces :=
    Nat.div_lt_of_lt_mul (by rw [Nat.mul_comm]; omega)
  have hpos := l.defaultPieceLength_pos ⟨_, hdiv⟩
  have hstart := Nat.div_mul_le_self (start + offset) l.defaultPieceLength
  have hend := Nat.lt_div_mul_add (a := start + offset) hpos
  refine ⟨⟨⟨_, hdiv⟩, start + offset - (start + offset) / l.defaultPieceLength *
    l.defaultPieceLength⟩, ?_, ?_, ?_⟩
  · rw [positionIn, if_pos hlt, Lengths.validatePieceIndex, dif_pos hdiv]
    rfl
  · simp only
    omega
  · rw [l.pieceLength_eq _ hdiv]
    simp only
    omega

/-- The storage of `Spec/Chunks` with the writes that it rejects. -/
def storageWith (rejects : ℕ → ℕ → ℕ → Bool) : TorrentStorage (ℕ → List UInt8) Unit where
  preadExact st fileId offset len :=
    match Storage.readAt ⟨st, fun _ _ _ => false⟩ fileId offset len with
    | none => .error ()
    | some b => .ok b
  pwriteAll st fileId offset buf :=
    match Storage.pwriteAll rejects ⟨st, fun _ _ _ => false⟩ fileId offset buf with
    | none => (st, .error ())
    | some st => (st.contents, .ok ())
  pwriteAllVectored st fileId offset bufs :=
    match Storage.pwriteAllVectored rejects ⟨st, fun _ _ _ => false⟩ fileId offset bufs with
    | .error st => (st.contents, .error ())
    | .ok st => (st.contents, .ok (bufs.1.length + bufs.2.length))

theorem storageWith_lawful (rejects : ℕ → ℕ → ℕ → Bool) :
    (storageWith rejects).Lawful fun st i k => (st i)[k]? := by
  refine ⟨?_, ?_, ?_, ?_⟩
  · intro st fileId offset bytes h
    by_cases hne : bytes = []
    · subst hne
      rfl
    have hpos : bytes.length ≠ 0 := mt List.length_eq_zero_iff.1 hne
    have hlast := h (bytes.length - 1) _ (List.getElem?_eq_getElem (by omega))
    have hend : offset + bytes.length ≤ (st fileId).length := by
      have hlt := (List.getElem?_eq_some_iff.1 hlast).1
      omega
    have hbytes : ((st fileId).drop offset).take bytes.length = bytes := by
      refine List.ext_getElem? ?_
      intro k
      rcases Nat.lt_or_ge k bytes.length with hk | hk
      · rw [List.getElem?_take_of_lt hk, List.getElem?_drop, h k _ (List.getElem?_eq_getElem hk),
          List.getElem?_eq_getElem hk]
      · rw [List.getElem?_take_eq_none hk, List.getElem?_eq_none hk]
    have hread : Storage.readAt ⟨st, fun _ _ _ => false⟩ fileId offset bytes.length = some bytes := by
      rw [Storage.readAt, if_neg hpos, Storage.preadExact, if_pos ⟨rfl, hend⟩, hbytes]
    simp only [storageWith, hread]
  · intro st fileId offset buf hok k b hb
    have hk := (List.getElem?_eq_some_iff.1 hb).1
    have hne : buf ≠ [] := List.ne_nil_of_length_pos (Nat.zero_lt_of_lt hk)
    simp only [storageWith, Storage.pwriteAll, if_neg hne] at hok ⊢
    by_cases hr : rejects fileId offset buf.length = true
    · rw [if_pos hr] at hok
      cases hok
    · rw [if_neg hr]
      simp only [Function.update_self]
      rw [ChunkOps.overwrite_get hk, hb]
  · intro st fileId offset buf i k b hb hout
    simp only [storageWith, Storage.pwriteAll]
    split_ifs
    · exact hb
    · exact hb
    · simp only
      by_cases hi : i = fileId
      · subst hi
        rw [Function.update_self]
        exact ChunkOps.overwrite_get_outside hb (hout rfl)
      · rw [Function.update_of_ne hi]
        exact hb
  · intro st fileId offset bufs
    rw [vectoredDefault_eq]
    simp only [storageWith, Storage.pwriteAllVectored]
    cases h1 : Storage.pwriteAll rejects ⟨st, fun _ _ _ => false⟩ fileId offset bufs.1 with
    | none => rfl
    | some st₁ =>
      have hst : (⟨st₁.contents, fun _ _ _ => false⟩ : Storage) = st₁ := by
        unfold Storage.pwriteAll at h1
        split_ifs at h1
        · obtain rfl := Option.some.inj h1
          rfl
        · obtain rfl := Option.some.inj h1
          rfl
      simp only [hst]
      cases Storage.pwriteAll rejects st₁ fileId (offset + bufs.1.length) bufs.2 with
      | none => rfl
      | some st₂ => rfl

def twentyBytes : Lengths := Lengths.new 20 (2 ^ 4) (by decide) (by decide) (by decide) (by decide)

def twentyFile : FileInfo := ⟨0, (0, 2), false, 20⟩

/-- The file is there, from an earlier run. -/
def nines : ℕ → List UInt8 := fun _ => List.replicate 20 9

/-- A cache for one piece. -/
def oneCached : WriteThroughCacheStorage twentyBytes (ℕ → List UInt8) :=
  ⟨Lru.new 1 Nat.one_pos, nines⟩

theorem twenty_inside {offset len : ℕ} (p : ValidPieceIndex twentyBytes) (hle : offset + len ≤ 20)
    (hstart : p * 16 ≤ offset) (hend : offset + len ≤ p * 16 + twentyBytes.pieceLength p) :
    StaysInside twentyBytes [twentyFile] 0 offset len := by
  have hzero : twentyFile.offsetInTorrent + offset = offset := Nat.zero_add offset
  refine ⟨twentyFile, rfl, hle, p, ?_, ?_⟩
  · rw [hzero]
    exact hstart
  · rw [hzero]
    exact hend

theorem twenty_starts {offset : ℕ} (h : offset < 20) : Starts twentyBytes [twentyFile] 0 offset := by
  rintro fi ⟨⟩
  rw [twentyFile, Nat.zero_add]
  exact h

/-- The last piece is written in two slices. -/
def lastPiece : StorageCall := .pwriteAllVectored 0 16 ([1, 2], [3, 4])

def lastWritten : Traced twentyBytes (ℕ → List UInt8) :=
  (pwriteAllVectoredDefault
    (Traced.pwriteAll (positionIn twentyBytes) [twentyFile] (storageWith fun _ _ _ => false))
    ⟨oneCached, fun _ => false⟩ 0 16 ([1, 2], [3, 4])).1

/-- What the caller of `c` sees behind `calls` is not what the underlying storage would show. -/
def Differs (rejects : ℕ → ℕ → ℕ → Bool) (calls : List StorageCall) (c : StorageCall) : Prop :=
  let u := storageWith rejects
  let s := callsThrough (positionIn twentyBytes) [twentyFile] u oneCached calls
  WriteThroughCacheStorage.create twentyBytes 16 nines = some oneCached ∧
    (∀ c' ∈ calls, c'.Inside twentyBytes [twentyFile]) ∧ c.Inside twentyBytes [twentyFile] ∧
      (s.call (positionIn twentyBytes) [twentyFile] u c).2 ≠ (u.call s.underlying c).2

end Rtbit
