import Rtbit.Lib.Runs
import Rtbit.Spec.SessionOps

/-! Adds and deletes whose flush fails. The map of the store is changed before the flush and is not
changed back, so that the next flush that succeeds writes what the failed call has left. -/

namespace Rtbit

open Lib

namespace SessionPersistence

variable {H : Type}

/-- What a call does to the map of the store and to that of the session at an id under which it
does not store anything, and what it writes. -/
structure Session.Leaves (s : Session H) (o : Outcome H) (id : ℕ) : Prop where
  lookup : s.store.dbContent.lookup id = none → o.session.store.dbContent.lookup id = none
  torrents : s.torrents id = none → o.session.torrents id = none
  written : ∀ file, o.written = some file → file = o.session.store.dbContent

theorem Session.Leaves.refl (s : Session H) (r : OpResult) (id : ℕ) : Leaves s ⟨r, none, s⟩ id :=
  ⟨fun h => h, fun h => h, nofun⟩

theorem Session.pauseRemoved_store (s : Session H) (j : ℕ) (ok : Bool) :
    (s.pauseRemoved j ok).store = s.store ∧ (s.pauseRemoved j ok).torrents = s.torrents := by
  unfold pauseRemoved
  split <;> exact ⟨rfl, rfl⟩

variable [DecidableEq H]

namespace JsonStore

variable {db : JsonStore H} {id : ℕ} {t : ManagedTorrent H} {w fails : Bool}

theorem writeTorrentFile_dbContent : (db.writeTorrentFile t).dbContent = db.dbContent := by
  unfold writeTorrentFile
  split_ifs <;> rfl

theorem updateDb_dbContent : (db.updateDb id t w fails).2.dbContent =
    if t.filesystem then db.dbContent.insert id (snapshot t) else db.dbContent := by
  cases hf : t.filesystem <;> cases fails <;> cases w <;>
    simp [updateDb, flush, insert, hf, writeTorrentFile_dbContent]

theorem updateDb_ok (h : (db.updateDb id t w fails).1 = .ok ()) :
    (db.updateDb id t w fails).2.file = (db.updateDb id t w fails).2.dbContent := by
  cases hf : t.filesystem <;> cases fails <;> simp [updateDb, flush, hf] at h ⊢

theorem updateDb_eq_ok : (db.updateDb id t w fails).1 = .ok () ↔
    t.filesystem = true ∧ fails = false := by
  cases hf : t.filesystem <;> cases fails <;> simp [updateDb, flush, hf]

theorem delete_lookup (i : ℕ) : (db.delete id fails).2.dbContent.lookup i =
    if i = id then none else db.dbContent.lookup i := by
  unfold delete
  cases hl : db.dbContent.lookup id with
  | none =>
    split_ifs with hi
    · rw [hi]
      exact hl
    · rfl
  | some st =>
    cases fails <;>
    · simp only [flush, Bool.false_eq_true, if_false, if_true]
      split_ifs with hi
      · rw [hi, Finmap.lookup_erase]
      · rw [Finmap.lookup_erase_ne hi]

theorem delete_ok (h : (db.delete id fails).1 = .ok ()) :
    (db.delete id fails).2.file = (db.delete id fails).2.dbContent := by
  unfold delete at h ⊢
  cases hl : db.dbContent.lookup id with
  | none => simp [hl] at h
  | some st => cases fails <;> simp [hl, flush] at h ⊢

end JsonStore

namespace Session

variable {s s' : Session H} {op : Op H} {fails : Bool} {id : ℕ}

/-- The lookups of an id after another one was stored. -/
theorem lookup_updateDb {db : JsonStore H} {t : ManagedTorrent H} (hid : t.id ≠ id)
    (hn : db.dbContent.lookup id = none) (w fails : Bool) :
    (db.updateDb t.id t w fails).2.dbContent.lookup id = none := by
  rw [JsonStore.updateDb_dbContent]
  split_ifs
  · rwa [Finmap.lookup_insert_of_ne _ (Ne.symm hid)]
  · exact hn

theorem updateMetadata_leaves {j : ℕ} {t : ManagedTorrent H} (hid : t.id ≠ id) :
    Leaves s (s.updateMetadata j t fails) id := by
  unfold Session.updateMetadata
  dsimp only
  split
  · rename_i store hs
    have hs : s.store.updateDb t.id t false fails = (.ok (), store) := hs
    have hfile := @JsonStore.updateDb_ok H _ s.store t.id t false fails
    refine ⟨fun hn => ?_, fun h => h, ?_⟩
    · have hl := lookup_updateDb hid hn false fails
      rwa [hs] at hl
    · rintro file ⟨⟩
      rw [hs] at hfile
      exact hfile rfl
  · rename_i e store hs
    have hs : s.store.updateDb t.id t false fails = (.error e, store) := hs
    refine ⟨fun hn => ?_, fun h => h, nofun⟩
    have hl := lookup_updateDb hid hn false fails
    rwa [hs] at hl

theorem addNew_leaves {t : ManagedTorrent H} {startOk : Bool} (hid : t.id ≠ id) :
    Leaves s (s.addNew t startOk fails) id := by
  have htor : s.torrents id = none → (s.addTorrent t).torrents id = none :=
    fun hn => (Function.update_of_ne (Ne.symm hid) _ _).trans hn
  unfold addNew
  dsimp only
  split
  · rename_i store hs
    have hs : s.store.updateDb t.id t true fails = (.ok (), store) := hs
    have hfile := @JsonStore.updateDb_ok H _ s.store t.id t true fails
    refine ⟨fun hn => ?_, htor, ?_⟩
    · have hl := lookup_updateDb hid hn true fails
      rwa [hs] at hl
    · rintro file ⟨⟩
      rw [hs] at hfile
      exact hfile rfl
  · rename_i e store hs
    have hs : s.store.updateDb t.id t true fails = (.error e, store) := hs
    refine ⟨fun hn => ?_, fun hn => ?_, nofun⟩
    · have hl := lookup_updateDb hid hn true fails
      rwa [hs] at hl
    · exact (Function.update_of_ne (Ne.symm hid) _ _).trans (htor hn)

theorem deleteOp_leaves (i : TorrentIdOrHash H) (pauseOk : Bool) :
    Leaves s (s.deleteOp i pauseOk fails) id := by
  unfold deleteOp
  split
  · exact Leaves.refl s _ id
  · rename_i id' j hj
    obtain ⟨hstore, htor⟩ := pauseRemoved_store (s.removeTorrent id') j pauseOk
    have hn : s.torrents id = none → (s.removeTorrent id').torrents id = none := by
      intro hn
      simp only [removeTorrent, Function.update_apply, hn, ite_self]
    have hlook : s.store.dbContent.lookup id = none →
        (s.store.delete id' fails).2.dbContent.lookup id = none := by
      intro hn
      rw [JsonStore.delete_lookup, hn, ite_self]
    have hfile := @JsonStore.delete_ok H _ s.store id' fails
    dsimp only
    rw [hstore]
    split
    · rename_i store hs
      have hs : s.store.delete id' fails = (.ok (), store) := hs
      rw [hs] at hlook hfile
      refine ⟨hlook, fun h => ?_, ?_⟩
      · exact (congrFun htor id).trans (hn h)
      · rintro file ⟨⟩
        exact hfile rfl
    · rename_i e store hs
      have hs : s.store.delete id' fails = (.error e, store) := hs
      rw [hs] at hlook
      exact ⟨hlook, fun h => (congrFun htor id).trans (hn h), nofun⟩

theorem perform_leaves (h : s.storedId op ≠ some id) (fails : Bool) :
    Leaves s (s.perform op fails) id := by
  have hobj : ∀ {j : ℕ} {t : ManagedTorrent H}, s.objects[j]? = some t →
      (s.objects[j]?).map (·.id) ≠ some id → t.id ≠ id := by
    intro j t ht hne heq
    rw [ht, Option.map_some, heq] at hne
    exact hne rfl
  cases op with
  | add t preferredId storageFails startOk =>
    have hid : s.addId preferredId ≠ id := fun he => h (congrArg some he)
    simp only [perform, addOp]
    split_ifs
    · exact Leaves.refl s _ id
    · exact Leaves.refl s _ id
    · exact addNew_leaves hid
  | pause j ok | updateOnlyFiles j onlyFiles ok =>
    simp only [perform]
    split
    · rename_i t ht
      have hid : t.id ≠ id := hobj ht h
      split_ifs
      · exact updateMetadata_leaves hid
      · exact Leaves.refl s _ id
    · exact Leaves.refl s _ id
  | unpause j ok =>
    simp only [perform]
    split
    · rename_i t ht
      have hid : t.id ≠ id := hobj ht h
      split_ifs
      · exact updateMetadata_leaves hid
      · exact ⟨fun h => h, fun h => h, nofun⟩
    · exact Leaves.refl s _ id
  | delete i pauseOk => exact deleteOp_leaves i pauseOk

/-- As long as nothing is stored under the id, it is not managed and no `session.json` has it. -/
def NoTrace (s : Session H) (id : ℕ) : Prop :=
  ∀ ops t, Run stepOp (fun s e => s.storedId e.1 ≠ some id) s ops t → t.torrents id = none ∧
    ∀ op fails file, t.storedId op ≠ some id → (t.perform op fails).written = some file → id ∉ file

theorem noTrace_of_lookup (ht : s.torrents id = none) (hl : s.store.dbContent.lookup id = none) :
    s.NoTrace id := by
  intro ops t hr
  have hinv : t.torrents id = none ∧ t.store.dbContent.lookup id = none := by
    refine hr.inv (fun s => s.torrents id = none ∧ s.store.dbContent.lookup id = none) ⟨ht, hl⟩ ?_
    rintro s₁ ⟨op, fails⟩ s₂ ⟨ht, hl⟩ hok hs
    obtain rfl := Option.some.inj hs
    have hleaves := perform_leaves hok fails
    exact ⟨hleaves.torrents ht, hleaves.lookup hl⟩
  refine ⟨hinv.1, ?_⟩
  intro op fails file hop hw
  have hleaves := perform_leaves hop fails
  rw [hleaves.written file hw, ← Finmap.lookup_eq_none]
  exact hleaves.lookup hinv.2

/-- Only finitely many ids are managed. -/
def Bounded (s : Session H) : Prop := ∃ n, ∀ id, n ≤ id → s.torrents id = none

theorem Bounded.perform (h : s.Bounded) (op : Op H) (fails : Bool) :
    (s.perform op fails).session.Bounded := by
  obtain ⟨n, hn⟩ := h
  refine ⟨max n ((s.storedId op).getD 0 + 1), fun id hid => ?_⟩
  rw [max_le_iff] at hid
  refine (perform_leaves ?_ fails).torrents (hn id hid.1)
  intro he
  rw [he, Option.getD_some] at hid
  omega

theorem bounded_of_run {ops : List (Op H × Bool)} (hr : Run stepOp Any new ops s) : s.Bounded := by
  refine hr.inv Bounded ⟨0, fun _ _ => rfl⟩ ?_
  rintro s₁ ⟨op, fails⟩ s₂ hb - hs
  obtain rfl := Option.some.inj hs
  exact hb.perform op fails

/-- What is left in the map is written by the add of another torrent. -/
theorem lookup_of_noTrace (hb : s.Bounded) {t : ManagedTorrent H}
    (hh : s.infoHashToId t.infoHash = none) (h : s.NoTrace id) :
    s.store.dbContent.lookup id = none := by
  obtain ⟨n, hn⟩ := hb
  by_contra hl
  -- a free id
  set id' := max n (id + 1) with hid'
  have hne : id' ≠ id := by omega
  have hfree : s.torrents id' = none := hn id' (le_max_left _ _)
  have hdup : s.duplicate id' t.infoHash = false := by
    simp [duplicate, hfree, getByInfoHash, hh]
  have hw := (h [] s Run.nil).2 (.add { t with filesystem := true } (some id') false true) false
    (s.store.dbContent.insert id' (snapshot { t with filesystem := true }))
    (fun he => hne (Option.some.inj he)) (by
      simp [perform, addOp, addId, hdup, addNew, JsonStore.store, JsonStore.updateDb,
        JsonStore.flush, JsonStore.insert, JsonStore.writeTorrentFile_dbContent, addTorrent,
        snapshot])
  rw [Finmap.mem_insert] at hw
  exact hw (Or.inr (not_not.1 fun hmem => hl (Finmap.lookup_eq_none.2 hmem)))

/-- The torrent of an add that could not be stored is taken back from both maps of the session,
but not from the map of the store. -/
theorem addNew_failed {t : ManagedTorrent H} {startOk : Bool}
    (h : ¬(t.filesystem = true ∧ fails = false)) :
    (∃ e, (s.addNew t startOk fails).result = .notStored t.id e) ∧
      (s.addNew t startOk fails).session.torrents t.id = none ∧
      (s.addNew t startOk fails).session.infoHashToId t.infoHash = none ∧
      (s.addNew t startOk fails).session.store.dbContent =
        if t.filesystem then s.store.dbContent.insert t.id (snapshot t) else s.store.dbContent := by
  have hdb := @JsonStore.updateDb_dbContent H _ s.store t.id t true fails
  rw [← @JsonStore.updateDb_eq_ok H _ s.store t.id t true fails] at h
  have hobj : (s.objects ++ [t])[s.objects.length]? = some t := List.getElem?_concat_length
  unfold addNew
  dsimp only
  split
  · rename_i store hs
    have hs : s.store.updateDb t.id t true fails = (.ok (), store) := hs
    exact absurd (congrArg Prod.fst hs) h
  · rename_i e store hs
    have hs : s.store.updateDb t.id t true fails = (.error e, store) := hs
    rw [hs] at hdb
    refine ⟨⟨e, rfl⟩, Function.update_self .., ?_, hdb⟩
    simp only [removeTorrent, addTorrent, Function.update_self, Option.bind_some, hobj]

theorem addNew_stored {t : ManagedTorrent H} {startOk : Bool} {e : StoreError} {i : ℕ}
    (h : t.filesystem = true ∧ fails = false) :
    (s.addNew t startOk fails).result ≠ .notStored i e := by
  rw [← @JsonStore.updateDb_eq_ok H _ s.store t.id t true fails] at h
  unfold addNew
  dsimp only
  split
  · cases startOk <;> nofun
  · rename_i e' store hs
    have hs : s.store.updateDb t.id t true fails = (.error e', store) := hs
    rw [hs] at h
    cases h

/-- An add that comes to its store does not fail there in the flush; and if it is refused for its
storage, the map has no entry with its id. -/
def AddOk (s : Session H) (t : ManagedTorrent H) (preferredId : Option ℕ)
    (storageFails fails : Bool) : Prop :=
  s.duplicate (s.addId preferredId) t.infoHash = false → storageFails = false →
    if t.filesystem then fails = false else s.addId preferredId ∉ s.store.dbContent

theorem add_iff (hb : s.Bounded) (t : ManagedTorrent H) (preferredId : Option ℕ)
    (storageFails startOk fails : Bool) :
    (∀ i e, (s.perform (.add t preferredId storageFails startOk) fails).result = .notStored i e →
      NoTrace (s.perform (.add t preferredId storageFails startOk) fails).session i) ↔
    s.AddOk t preferredId storageFails fails := by
  have hbound := hb.perform (.add t preferredId storageFails startOk) fails
  simp only [perform, addOp] at hbound ⊢
  split_ifs at hbound ⊢ with hdup hsf
  · simp [AddOk, hdup]
  · simp [AddOk, hsf]
  · set t' : ManagedTorrent H := { t with id := s.addId preferredId }
    simp only [Bool.not_eq_true] at hdup hsf
    simp only [AddOk, hdup, hsf, forall_const]
    by_cases hok : t.filesystem = true ∧ fails = false
    · rw [if_pos hok.1]
      exact ⟨fun _ => hok.2, fun _ i e he => absurd he (addNew_stored hok)⟩
    · obtain ⟨⟨e, hres⟩, htor, hhash, hdb⟩ := @addNew_failed H _ s fails t' startOk hok
      have hiff : NoTrace (s.addNew t' startOk fails).session t'.id ↔
          (s.addNew t' startOk fails).session.store.dbContent.lookup t'.id = none :=
        ⟨lookup_of_noTrace hbound hhash, noTrace_of_lookup htor⟩
      have hall : (∀ i e, (s.addNew t' startOk fails).result = .notStored i e →
          NoTrace (s.addNew t' startOk fails).session i) ↔
          NoTrace (s.addNew t' startOk fails).session t'.id := by
        rw [hres]
        constructor
        · intro h
          exact h _ _ rfl
        · rintro h i e' he
          cases he
          exact h
      rw [hall, hiff, hdb]
      cases hfs : t.filesystem with
      | true =>
        have hf : fails = true := by
          cases fails with
          | true => rfl
          | false => exact absurd ⟨hfs, rfl⟩ hok
        simp [t', hf]
      | false => simp [t', Finmap.lookup_eq_none]

/-- The flush of a delete does not fail, unless the map has no entry of the torrent. -/
def DeleteOk (s : Session H) (i : TorrentIdOrHash H) (fails : Bool) : Prop :=
  fails = true → ∀ id j, s.deleteId i = some (id, j) → id ∉ s.store.dbContent

theorem delete_iff (hm : s.store.file = s.store.dbContent) (i : TorrentIdOrHash H)
    (pauseOk fails : Bool) :
    (∀ e, (s.perform (.delete i pauseOk) fails).result = .notForgotten e →
      (s.perform (.delete i pauseOk) fails).session.store.file =
        (s.perform (.delete i pauseOk) fails).session.store.dbContent) ↔ s.DeleteOk i fails := by
  simp only [perform, deleteOp, DeleteOk]
  cases hd : s.deleteId i with
  | none => simp
  | some x =>
    obtain ⟨id, j⟩ := x
    obtain ⟨hstore, -⟩ := pauseRemoved_store (s.removeTorrent id) j pauseOk
    have hstore : ((s.removeTorrent id).pauseRemoved j pauseOk).store = s.store := hstore
    simp only [hstore, JsonStore.delete]
    cases hl : s.store.dbContent.lookup id with
    | none => simp [hm, ← Finmap.lookup_eq_none, hl]
    | some st =>
      have hmem : id ∈ s.store.dbContent := Finmap.mem_of_lookup_eq_some hl
      cases fails with
      | false => simp [JsonStore.flush]
      | true =>
        have hne : s.store.dbContent ≠ s.store.dbContent.erase id := by
          intro he
          rw [he, Finmap.lookup_erase] at hl
          cases hl
        simp [JsonStore.flush, hmem, hm, hne]

/-- After any calls with any flushes failing: an add that could not be stored leaves no trace if
and only if it did not fail in the flush and the map had no entry with its id; and where the map is
as `session.json`, it still is after a `delete` of the store that fails if and only if that did not
fail in the flush. -/
theorem failed_ops_iff {H : Type} [DecidableEq H] (ops : List (Op H × Bool)) (s : Session H)
    (hr : Run stepOp Any new ops s) :
    (∀ (t : ManagedTorrent H) (preferredId : Option ℕ) (storageFails startOk fails : Bool),
      (∀ i e, (s.perform (.add t preferredId storageFails startOk) fails).result = .notStored i e →
        NoTrace (s.perform (.add t preferredId storageFails startOk) fails).session i) ↔
      s.AddOk t preferredId storageFails fails) ∧
    (s.store.file = s.store.dbContent → ∀ (i : TorrentIdOrHash H) (pauseOk fails : Bool),
      (∀ e, (s.perform (.delete i pauseOk) fails).result = .notForgotten e →
        (s.perform (.delete i pauseOk) fails).session.store.file =
          (s.perform (.delete i pauseOk) fails).session.store.dbContent) ↔
      s.DeleteOk i fails) := by
  refine ⟨?_, ?_⟩
  · exact add_iff (bounded_of_run hr)
  · exact delete_iff

def seqTorrent (infoHash : ℕ) (filesystem : Bool) : ManagedTorrent ℕ where
  id := 0
  infoHash := infoHash
  trackers := ∅
  outputFolder := "out"
  category := none
  filesystem := filesystem
  metadata := ⟨⟨[], [none]⟩, []⟩
  paused := false
  onlyFiles := none

def addSeq (infoHash : ℕ) (filesystem : Bool) : Op ℕ :=
  .add (seqTorrent infoHash filesystem) none false true

/-- A session with one torrent. -/
def oneAdded : Session ℕ := (new.perform (addSeq 7 true) false).session

theorem oneAdded_run : Run stepOp Any new [(addSeq 7 true, false)] oneAdded :=
  Run.single trivial rfl

/-- A torrent with another storage is refused; a delete whose flush succeeds. -/
theorem refused_add_no_trace :
    (oneAdded.perform (addSeq 8 false) false).result = .notStored 1 .storage ∧
    NoTrace (oneAdded.perform (addSeq 8 false) false).session 1 ∧
    (∀ e, (oneAdded.perform (.delete (.id 0) true) false).result = .notForgotten e →
      (oneAdded.perform (.delete (.id 0) true) false).session.store.file =
        (oneAdded.perform (.delete (.id 0) true) false).session.store.dbContent) := by
  have hres : (oneAdded.perform (addSeq 8 false) false).result = .notStored 1 .storage := by
    decide +kernel
  have hfile : oneAdded.store.file = oneAdded.store.dbContent := by
    decide +kernel
  have hiff := failed_ops_iff _ _ oneAdded_run
  refine ⟨hres, (hiff.1 _ _ _ _ _).2 ?_ 1 .storage hres, (hiff.2 hfile _ _ _).2 nofun⟩
  intro _ _
  change 1 ∉ oneAdded.store.dbContent
  rw [← Finmap.lookup_eq_none]
  decide +kernel

/-- The add of a torrent fails in the flush, and the next add writes its entry; a delete fails in
the flush, and the map is no longer as `session.json`. -/
theorem failed_flush_leaves_trace :
    ((new.perform (addSeq 7 true) true).result = .notStored 0 .flush ∧
      ¬NoTrace (new.perform (addSeq 7 true) true).session 0) ∧
    (oneAdded.perform (.delete (.id 0) true) true).result = .notForgotten .flush ∧
      oneAdded.store.file = oneAdded.store.dbContent ∧
      (oneAdded.perform (.delete (.id 0) true) true).session.store.file ≠
        (oneAdded.perform (.delete (.id 0) true) true).session.store.dbContent := by
  refine ⟨⟨by decide +kernel, ?_⟩, by decide +kernel, by decide +kernel, by decide +kernel⟩
  intro h
  have hwritten :
      (((new.perform (addSeq 7 true) true).session.perform (addSeq 8 true) false).written.any
        fun file => (file.lookup 0).isSome) = true := by
    decide +kernel
  obtain ⟨file, hw, hmem⟩ := (Option.any_eq_true _ _).1 hwritten
  have hother : (new.perform (addSeq 7 true) true).session.storedId (addSeq 8 true) ≠ some 0 := by
    decide +kernel
  exact (h [] _ Run.nil).2 _ _ file hother hw (Finmap.lookup_isSome.1 hmem)

end Session

end SessionPersistence

end Rtbit
