import Rtbit.Lib.Runs
import Rtbit.Spec.AddTorrent

/-! What each event of `add_torrent` does, and the two maps of the session database. -/

namespace Rtbit

open Lib

variable {H : Type}

theorem lt_jsonNextId {torrents : List (ℕ × H)} {id : ℕ} (h : id ∈ torrents.map Prod.fst) :
    id < jsonNextId torrents := by
  unfold jsonNextId
  cases hm : (torrents.map Prod.fst).max? with
  | none =>
    rw [List.max?_eq_none_iff] at hm
    rw [hm] at h
    cases h
  | some m =>
    have hle := (List.max?_eq_some_iff.1 hm).2 id h
    exact Nat.lt_succ_of_le hle

namespace AddPhase

/-- The id of a call that has not come to the check yet. -/
def claimed : AddPhase H → Option ℕ
  | .numbered id => some id
  | .permitted id => some id
  | _ => none

/-- The id of the torrent that the call has added. -/
def held : AddPhase H → Option ℕ
  | .inserted id => some id
  | .stored id => some id
  | .returned (.ok (.added id _)) => some id
  | _ => none

/-- The torrent of the call was in the database, if only for a time. -/
def wasManaged : AddPhase H → Bool
  | .inserted _ => true
  | .stored _ => true
  | .returned (.ok (.added _ _)) => true
  | .returned (.error .store) => true
  | .returned (.error .start) => true
  | _ => false

/-- The call has read an id, and the store does not hold it yet. -/
def unstored : AddPhase H → Bool
  | .numbered _ => true
  | .permitted _ => true
  | .inserted _ => true
  | _ => false

def hasPermit : AddPhase H → Bool
  | .permitted _ => true
  | .inserted _ => true
  | .stored _ => true
  | _ => false

/-- The steps a call still takes. -/
def rest : AddPhase H → ℕ
  | .called => 5
  | .numbered _ => 4
  | .permitted _ => 3
  | .inserted _ => 2
  | .stored _ => 1
  | .returned _ => 0

theorem unstored_of_claimed {phase : AddPhase H} {id : ℕ} (hc : phase.claimed = some id) :
    phase.unstored = true := by
  cases phase <;> first | rfl | cases hc

end AddPhase

namespace SessionDatabase

/-- The index is the inverse of the map of the torrents, and no two of them have one info hash. -/
structure Consistent (db : SessionDatabase H) : Prop where
  id_eq : ∀ id handle, db.torrents id = some handle → handle.id = id
  index : ∀ h id, db.infoHashToId h = some id ↔
    ∃ handle, db.torrents id = some handle ∧ handle.infoHash = h

variable {db : SessionDatabase H} {id id' : ℕ} {h : H} {handle : TorrentHandle H}

theorem Consistent.unique (hc : db.Consistent) {handle' : TorrentHandle H}
    (h1 : db.torrents id = some handle) (h2 : db.torrents id' = some handle')
    (he : handle.infoHash = handle'.infoHash) : id = id' := by
  have hi := (hc.index handle.infoHash id).2 ⟨handle, h1, rfl⟩
  have hi' := (hc.index handle.infoHash id').2 ⟨handle', h2, he.symm⟩
  rw [hi] at hi'
  exact Option.some.inj hi'

theorem getByInfoHash_eq_some (hc : db.Consistent) :
    db.getByInfoHash h = some (id, handle) ↔
      db.torrents id = some handle ∧ handle.infoHash = h := by
  simp only [getByInfoHash, Option.bind_eq_some_iff, Option.map_eq_some_iff, Prod.mk.injEq]
  constructor
  · rintro ⟨i, hi, handle', ht, rfl, rfl⟩
    obtain ⟨handle'', ht', he⟩ := (hc.index h i).1 hi
    rw [ht] at ht'
    obtain rfl := Option.some.inj ht'
    exact ⟨ht, he⟩
  · rintro ⟨ht, he⟩
    exact ⟨id, (hc.index h id).2 ⟨handle, ht, he⟩, handle, ht, rfl, rfl⟩

/-- The duplicate is the torrent with the id of the call, or one with its info hash. -/
theorem existing_some (hc : db.Consistent) (he : db.existing id h = some (id', handle)) :
    db.torrents id' = some handle ∧ (id' = id ∨ handle.infoHash = h) := by
  unfold existing at he
  cases ht : db.torrents id with
  | some handle' =>
    rw [ht] at he
    simp only [Option.map_some, Option.some_or, Option.some.injEq, Prod.mk.injEq] at he
    obtain ⟨rfl, rfl⟩ := he
    exact ⟨ht, Or.inl rfl⟩
  | none =>
    rw [ht] at he
    simp only [Option.map_none, Option.none_or] at he
    obtain ⟨ht', heq⟩ := (getByInfoHash_eq_some hc).1 he
    exact ⟨ht', Or.inr heq⟩

theorem existing_none (hc : db.Consistent) (he : db.existing id h = none) :
    db.torrents id = none ∧ ∀ id' handle, db.torrents id' = some handle → handle.infoHash ≠ h := by
  unfold existing at he
  rw [Option.or_eq_none_iff, Option.map_eq_none_iff] at he
  refine ⟨he.1, fun id' handle ht heq => ?_⟩
  rw [(getByInfoHash_eq_some hc).2 ⟨ht, heq⟩] at he
  cases he.2

variable [DecidableEq H]

theorem addTorrent_torrents (i : ℕ) : (db.addTorrent handle id).torrents i =
    if i = id then some handle else db.torrents i := by
  simp only [addTorrent, Function.update_apply]

theorem removeTorrent_torrents (i : ℕ) :
    (db.removeTorrent id).torrents i = if i = id then none else db.torrents i := by
  simp only [removeTorrent, Function.update_apply]

theorem Consistent.addTorrent (hc : db.Consistent) (hn : db.torrents id = none)
    (hh : ∀ id' handle, db.torrents id' = some handle → handle.infoHash ≠ h) :
    (db.addTorrent ⟨id, h⟩ id).Consistent where
  id_eq i handle ht := by
    rw [addTorrent_torrents] at ht
    split_ifs at ht with hi
    · rw [← Option.some.inj ht, hi]
    · exact hc.id_eq i handle ht
  index h' i := by
    simp only [SessionDatabase.addTorrent, Function.update_apply]
    by_cases hi : i = id <;> by_cases hh' : h' = h <;> simp only [hi, hh', if_true, if_false]
    · simp
    · rw [hc.index]
      simp [hn, Ne.symm hh']
    · refine ⟨fun h => absurd (Option.some.inj h).symm hi, ?_⟩
      rintro ⟨handle, ht, he⟩
      exact absurd he (hh i handle ht)
    · rw [hc.index]

theorem Consistent.removeTorrent (hc : db.Consistent) (id : ℕ) :
    (db.removeTorrent id).Consistent := by
  refine ⟨fun i handle ht => ?_, fun h i => ?_⟩
  · rw [removeTorrent_torrents] at ht
    split_ifs at ht
    exact hc.id_eq i handle ht
  · rw [removeTorrent_torrents]
    cases ht : db.torrents id with
    | none =>
      simp only [SessionDatabase.removeTorrent, ht, hc.index]
      split_ifs with hi
      · simp [hi, ht]
      · rfl
    | some handle =>
      simp only [SessionDatabase.removeTorrent, ht, Function.update_apply]
      split_ifs with hh hi
      · simp
      · -- another torrent has not the info hash of the one removed
        simp only [false_iff, not_exists, not_and]
        rintro handle' ht' rfl
        exact hi (hc.unique ht' ht hh)
      · rename_i hi
        rw [hc.index]
        subst hi
        simp [ht, Ne.symm hh]
      · rw [hc.index]

end SessionDatabase

namespace AddSession

variable [DecidableEq H] {nextval : ℕ → Option ℕ} {s s' : AddSession H} {e : AddEvent H}

/-- The steps, with the phase that each needs. -/
inductive AddStep (nextval : ℕ → Option ℕ) (s : AddSession H) :
    AddEvent H → AddSession H → Prop
  | call {h} : AddStep nextval s (.call h) { s with calls := s.calls ++ [⟨h, .called⟩] }
  | nextId {k h id s₁} : s.calls[k]? = some ⟨h, .called⟩ → s.readId nextval = (some id, s₁) →
      AddStep nextval s (.nextId k) (s₁.setPhase k h (.numbered id))
  | nextIdFails {k h s₁} : s.calls[k]? = some ⟨h, .called⟩ → s.readId nextval = (none, s₁) →
      AddStep nextval s (.nextId k) (s₁.setPhase k h (.returned (.error .nextId)))
  | acquire {k h id} : s.calls[k]? = some ⟨h, .numbered id⟩ → 0 < s.permits →
      AddStep nextval s (.acquire k)
        { s.setPhase k h (.permitted id) with permits := s.permits - 1 }
  | managed {k h id storageFails id' handle} : s.calls[k]? = some ⟨h, .permitted id⟩ →
      s.db.existing id h = some (id', handle) →
      AddStep nextval s (.check k storageFails) (s.endCall k h (.ok (.alreadyManaged id' handle)))
  | storageFails {k h id} : s.calls[k]? = some ⟨h, .permitted id⟩ → s.db.existing id h = none →
      AddStep nextval s (.check k true) (s.endCall k h (.error .storage))
  | insert {k h id} : s.calls[k]? = some ⟨h, .permitted id⟩ → s.db.existing id h = none →
      AddStep nextval s (.check k false)
        { s.setPhase k h (.inserted id) with db := s.db.addTorrent ⟨id, h⟩ id }
  | noStore {k h id fails} : s.calls[k]? = some ⟨h, .inserted id⟩ → s.persistence = none →
      AddStep nextval s (.store k fails) (s.setPhase k h (.stored id))
  | store {k h id p} : s.calls[k]? = some ⟨h, .inserted id⟩ → s.persistence = some p →
      AddStep nextval s (.store k false)
        { s.setPhase k h (.stored id) with persistence := some (p.store id h) }
  | storeFails {k h id p} : s.calls[k]? = some ⟨h, .inserted id⟩ → s.persistence = some p →
      AddStep nextval s (.store k true) (s.storeFailed k h id)
  | flushFails {k h id ts} : s.calls[k]? = some ⟨h, .stored id⟩ →
      s.persistence = some (.json ts) → AddStep nextval s (.flushFails k) (s.storeFailed k h id)
  | finish {k h id} : s.calls[k]? = some ⟨h, .stored id⟩ →
      AddStep nextval s (.finish k false) (s.endCall k h (.ok (.added id ⟨id, h⟩)))
  | startFails {k h id} : s.calls[k]? = some ⟨h, .stored id⟩ →
      AddStep nextval s (.finish k true) (s.endCall k h (.error .start))

theorem addStep_of_step (h : s.step nextval e = some s') : AddStep nextval s e s' := by
  cases e with
  | call h' =>
    cases h
    exact .call
  | nextId k =>
    simp only [step] at h
    split at h
    · rename_i h' hk
      split at h
      · rename_i id s₁ hr
        cases h
        exact .nextId hk hr
      · rename_i s₁ hr
        cases h
        exact .nextIdFails hk hr
    · cases h
  | acquire k =>
    simp only [step] at h
    split at h
    · rename_i h' id hk
      split_ifs at h with hp
      cases h
      exact .acquire hk hp
    · cases h
  | check k storageFails =>
    simp only [step] at h
    split at h
    · rename_i h' id hk
      cases h
      unfold check
      cases he : s.db.existing id h' with
      | some x => exact .managed hk he
      | none =>
        cases storageFails with
        | true => exact .storageFails hk he
        | false => exact .insert hk he
    · cases h
  | store k fails =>
    simp only [step] at h
    split at h
    · rename_i h' id hk
      cases h
      unfold store
      cases hp : s.persistence with
      | none => exact .noStore hk hp
      | some p =>
        cases fails with
        | true => exact .storeFails hk hp
        | false => exact .store hk hp
    · cases h
  | flushFails k =>
    simp only [step] at h
    split at h
    · rename_i h' id ts hk hp
      cases h
      exact .flushFails hk hp
    · cases h
  | finish k startFails =>
    simp only [step] at h
    split at h
    · rename_i h' id hk
      cases h
      cases startFails with
      | true => exact .startFails hk
      | false => exact .finish hk
    · cases h

end AddSession

end Rtbit
