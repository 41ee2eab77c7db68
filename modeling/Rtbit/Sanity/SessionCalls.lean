import Rtbit.Lib.Runs
import Rtbit.Spec.SessionCalls

/-! Which calls of a session a step touches. -/

namespace Rtbit

open Lib

namespace SessionPersistence

namespace Session

variable {H : Type} [DecidableEq H] {s s' : Session H}

/-- A step begins a call or carries one on that has not returned. -/
theorem step_calls {e : Event H} (hs : s.step e = some s') :
    (∃ c, s'.calls = s.calls ++ [c]) ∨
      ∃ k c c', s.calls[k]? = some c ∧ (∀ ok, c ≠ .returned ok) ∧ s'.calls = s.calls.set k c' := by
  cases e with
  | call c =>
    simp only [Session.step] at hs
    split_ifs at hs
    obtain rfl := Option.some.inj hs
    exact Or.inl ⟨c, rfl⟩
  | nextId k =>
    simp only [Session.step] at hs
    split at hs
    · rename_i hk
      obtain rfl := Option.some.inj hs
      exact Or.inr ⟨k, _, _, hk, nofun, rfl⟩
    · cases hs
  | check k storageFails =>
    simp only [Session.step] at hs
    split at hs
    · rename_i hk
      obtain rfl := Option.some.inj hs
      unfold Session.check
      split_ifs <;> exact Or.inr ⟨k, _, _, hk, nofun, rfl⟩
    · cases hs
  | apply k ok =>
    simp only [Session.step, Session.apply] at hs
    split at hs
    · rename_i hk
      obtain ⟨t, -, rfl⟩ := Option.map_eq_some_iff.1 hs
      split_ifs <;> exact Or.inr ⟨k, _, _, hk, nofun, rfl⟩
    · rename_i hk
      obtain ⟨t, -, rfl⟩ := Option.map_eq_some_iff.1 hs
      split_ifs <;> exact Or.inr ⟨k, _, _, hk, nofun, rfl⟩
    · rename_i hk
      obtain ⟨t, -, rfl⟩ := Option.map_eq_some_iff.1 hs
      split_ifs <;> exact Or.inr ⟨k, _, _, hk, nofun, rfl⟩
    · cases hs
  | readOnlyFiles k =>
    simp only [Session.step] at hs
    split at hs
    · rename_i j who hk
      obtain ⟨t, -, rfl⟩ := Option.map_eq_some_iff.1 hs
      unfold Session.readOnlyFiles
      split_ifs
      · exact Or.inr ⟨k, _, _, hk, nofun, rfl⟩
      · cases who <;> exact Or.inr ⟨k, _, _, hk, nofun, rfl⟩
    · cases hs
  | readIsPaused k | insert k | start k ok | pauseRemoved k ok =>
    simp only [Session.step] at hs
    split at hs
    · rename_i hk
      obtain ⟨t, -, rfl⟩ := Option.map_eq_some_iff.1 hs
      exact Or.inr ⟨k, _, _, hk, nofun, rfl⟩
    · cases hs
  | flush k fails =>
    simp only [Session.step, Session.flush] at hs
    split at hs
    · rename_i j who hk
      obtain ⟨t, -, rfl⟩ := Option.map_eq_some_iff.1 hs
      split <;> cases who <;> exact Or.inr ⟨k, _, _, hk, nofun, rfl⟩
    · rename_i hk
      split at hs <;>
      · obtain rfl := Option.some.inj hs
        exact Or.inr ⟨k, _, _, hk, nofun, rfl⟩
    · cases hs
  | lookup k =>
    simp only [Session.step] at hs
    split at hs
    · rename_i id hk
      obtain rfl := Option.some.inj hs
      cases id with
      | id id => exact Or.inr ⟨k, _, _, hk, nofun, rfl⟩
      | hash infoHash =>
        simp only [Session.lookup]
        split <;> exact Or.inr ⟨k, _, _, hk, nofun, rfl⟩
    · cases hs
  | remove k =>
    simp only [Session.step] at hs
    split at hs
    · rename_i hk
      obtain rfl := Option.some.inj hs
      unfold Session.remove
      split <;> exact Or.inr ⟨k, _, _, hk, nofun, rfl⟩
    · cases hs
  | forget k =>
    simp only [Session.step] at hs
    split at hs
    · rename_i hk
      obtain rfl := Option.some.inj hs
      unfold Session.forget
      split <;> exact Or.inr ⟨k, _, _, hk, nofun, rfl⟩
    · cases hs

def Failed (s : Session H) : Prop := Call.returned false ∈ s.calls

theorem Failed.step {e : Event H} (h : s.Failed) (hs : s.step e = some s') : s'.Failed := by
  unfold Failed at h ⊢
  rcases step_calls hs with ⟨c, hc⟩ | ⟨k, c, c', hk, hne, hc⟩
  · rw [hc]
    exact List.mem_append_left _ h
  · rw [hc]
    obtain ⟨x, hx, he⟩ := exists_mem_set (P := (· = Call.returned false)) (b := c') hk
      (fun he => absurd he (hne false)) ⟨_, h, rfl⟩
    exact he ▸ hx

end Session

end SessionPersistence

end Rtbit
