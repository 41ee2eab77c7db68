import Rtbit.Sanity.AddTorrent
import Rtbit.Spec.SessionIndex

/-! The two maps of the session database under every interleaving of adds and deletes. -/

namespace Rtbit

open Lib

namespace IndexSession

variable {H : Type}

theorem start_consistent : (start : IndexSession H).db.Consistent where
  id_eq id handle h := by cases h
  index h id := by simp [start]

variable [DecidableEq H] {s s' : IndexSession H} {e : IndexEvent H}

/-- The database changes by the add of a torrent that is no duplicate, or by a removal. -/
theorem step_db (h : s.step e = some s') :
    s'.db = s.db ∨
      (∃ infoHash id, s.db.existing id infoHash = none ∧
        s'.db = s.db.addTorrent ⟨id, infoHash⟩ id) ∨
      ∃ id, s'.db = s.db.removeTorrent id := by
  cases e with
  | add infoHash id | delete id =>
    cases h
    exact Or.inl rfl
  | check k storageFails =>
    simp only [step] at h
    split at h
    · rename_i infoHash id hk
      cases h
      unfold check
      cases he : s.db.existing id infoHash with
      | some x => exact Or.inl rfl
      | none =>
        cases storageFails with
        | true => exact Or.inl rfl
        | false => exact Or.inr (Or.inl ⟨infoHash, id, he, rfl⟩)
    · cases h
  | store k fails startFails =>
    simp only [step] at h
    split at h
    · rename_i infoHash id hk
      cases h
      unfold store
      split_ifs
      · exact Or.inr (Or.inr ⟨id, rfl⟩)
      · exact Or.inl rfl
      · exact Or.inl rfl
    · cases h
  | lookup k =>
    simp only [step] at h
    split at h
    · rename_i id hk
      cases h
      left
      cases id with
      | id id => rfl
      | hash infoHash =>
        simp only [lookup]
        split <;> rfl
    · cases h
  | remove k =>
    simp only [step] at h
    split at h
    · rename_i id hk
      cases h
      unfold remove
      cases s.db.torrents id with
      | some handle => exact Or.inr (Or.inr ⟨id, rfl⟩)
      | none => exact Or.inl rfl
    · cases h

theorem step_consistent (hc : s.db.Consistent) (h : s.step e = some s') : s'.db.Consistent := by
  rcases step_db h with hdb | ⟨infoHash, id, hnone, hdb⟩ | ⟨id, hdb⟩
  · rw [hdb]
    exact hc
  · obtain ⟨hid, hhash⟩ := SessionDatabase.existing_none hc hnone
    rw [hdb]
    exact hc.addTorrent hid hhash
  · rw [hdb]
    exact hc.removeTorrent id

/-- In every reachable state the two maps are inverse to each other, no two managed torrents have
one info hash, and `get_by_info_hash` finds every managed torrent. -/
theorem session_index_coherent {H : Type} [DecidableEq H] (evs : List (IndexEvent H))
    (t : IndexSession H) (hr : Run step Any start evs t) :
    (∀ h id, t.db.infoHashToId h = some id ↔
      ∃ handle, t.db.torrents id = some handle ∧ handle.infoHash = h) ∧
    (∀ id id' handle handle', t.db.torrents id = some handle → t.db.torrents id' = some handle' →
      handle.infoHash = handle'.infoHash → id = id') ∧
    ∀ h id handle, t.db.getByInfoHash h = some (id, handle) ↔
      t.db.torrents id = some handle ∧ handle.infoHash = h := by
  have hc : t.db.Consistent :=
    hr.inv (fun s => s.db.Consistent) start_consistent fun _ _ _ hs _ hstep =>
      step_consistent hs hstep
  refine ⟨hc.index, ?_, ?_⟩
  · intro id id' handle handle' h1 h2 he
    exact hc.unique h1 h2 he
  · intro h id handle
    exact SessionDatabase.getByInfoHash_eq_some hc

/-- Two adds with one preferred id, the store of the first fails; a delete by hash in between has
read the id and removes the torrent of the second add. -/
def reusedId : List (IndexEvent ℕ) :=
  [.add 7 0, .check 0 false, .delete (.hash 7), .lookup 1, .store 0 true false, .add 8 0,
    .check 2 false, .remove 1, .add 8 3, .check 3 false, .store 2 true false]

theorem reusedId_coherent : ∃ t, Run step Any start reusedId t ∧
    t.db.torrents 3 = some ⟨3, 8⟩ ∧ t.db.getByInfoHash 8 = some (3, ⟨3, 8⟩) := by
  have hrun : ∃ t, Run step Any (start : IndexSession ℕ) reusedId t ∧
      decide (t.db.torrents 3 = some ⟨3, 8⟩) = true := Run.exists_of_exec (by decide +kernel)
  obtain ⟨t, hr, hq⟩ := hrun
  have ht := of_decide_eq_true hq
  exact ⟨t, hr, ht, ((session_index_coherent reusedId t hr).2.2 8 3 ⟨3, 8⟩).2 ⟨ht, rfl⟩⟩

end IndexSession

end Rtbit
