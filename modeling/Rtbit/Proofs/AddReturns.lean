import Rtbit.Sanity.AddTorrent

/-! Every call of `add_torrent` returns: a call that holds a permit can go on, a free permit is
taken by a call that waits for it, and when there is no such call the next one can read its id. -/

namespace Rtbit

open Lib

namespace AddSession

variable {H : Type} {s s' : AddSession H} {k : ℕ} {h : H} {p p' : AddPhase H}

/-- While a call reads its id from the JSON store, every call that has read one and has not stored
its torrent adds the same info hash. -/
def Serial (s : AddSession H) : AddEvent H → Prop
  | .nextId k =>
    match s.persistence, s.calls[k]? with
    | some (.json _), some c => ∀ d ∈ s.calls, d.phase.unstored = true → d.infoHash = c.infoHash
    | _, _ => True
  | _ => True

theorem Serial.json {ts : List (ℕ × H)} {c : AddCall H} (hs : Serial s (.nextId k))
    (hp : s.persistence = some (.json ts)) (hk : s.calls[k]? = some c) {j : ℕ} {d : AddCall H}
    (hd : s.calls[j]? = some d) (hu : d.phase.unstored = true) : d.infoHash = c.infoHash := by
  simp only [Serial, hp, hk] at hs
  exact hs d (List.mem_of_getElem? hd) hu

/-- No new call, and nothing fails. -/
def Clean : AddEvent H → Prop
  | .call _ => False
  | .nextId _ => True
  | .acquire _ => True
  | .check _ storageFails => storageFails = false
  | .store _ fails => fails = false
  | .flushFails _ => False
  | .finish _ startFails => startFails = false

def remaining (s : AddSession H) : ℕ := (s.calls.map fun c => c.phase.rest).sum

theorem remaining_lt (hk : s.calls[k]? = some ⟨h, p⟩) (hcalls : s'.calls = s.calls.set k ⟨h, p'⟩)
    (hlt : p'.rest < p.rest) : s'.remaining < s.remaining := by
  unfold remaining
  rw [hcalls]
  exact sum_map_set_lt hk hlt

def PermitInv (s : AddSession H) : Prop :=
  0 < s.permits ∨ ∃ (i : ℕ) (c : AddCall H), s.calls[i]? = some c ∧ c.phase.hasPermit = true

theorem PermitInv.set (hs : PermitInv s) (hk : s.calls[k]? = some ⟨h, p⟩)
    (hcalls : s'.calls = s.calls.set k ⟨h, p'⟩) (hpermits : s.permits ≤ s'.permits)
    (hp : p.hasPermit = true → p'.hasPermit = true) : PermitInv s' := by
  obtain hpos | ⟨i, c, hc, hcp⟩ := hs
  · exact Or.inl (hpos.trans_le hpermits)
  · right
    by_cases hik : i = k
    · subst hik
      obtain rfl := Option.some.inj (hk.symm.trans hc)
      refine ⟨i, ⟨h, p'⟩, ?_, hp hcp⟩
      rw [hcalls, List.getElem?_set_self (List.getElem?_eq_some_iff.1 hk).1]
    · refine ⟨i, c, ?_, hcp⟩
      rw [hcalls, List.getElem?_set_ne (Ne.symm hik)]
      exact hc

variable [DecidableEq H] {nextval : ℕ → Option ℕ}

theorem step_permitInv {e : AddEvent H} (hs : PermitInv s) (hstep : AddStep nextval s e s') :
    PermitInv s' := by
  have hread {o : Option ℕ} {s₁ : AddSession H} (hr : s.readId nextval = (o, s₁)) :
      s₁.calls = s.calls ∧ s₁.permits = s.permits := by
    unfold readId at hr
    split at hr <;> (cases hr; exact ⟨rfl, rfl⟩)
  cases hstep with
  | call =>
    refine hs.imp_right fun ⟨i, c, hc, hcp⟩ => ⟨i, c, ?_, hcp⟩
    rw [List.getElem?_append_left (List.getElem?_eq_some_iff.1 hc).1]
    exact hc
  | nextId hk hr =>
    obtain ⟨hc, hp⟩ := hread hr
    exact hs.set hk (by rw [← hc]; rfl) hp.ge nofun
  | nextIdFails hk hr =>
    obtain ⟨hc, hp⟩ := hread hr
    exact hs.set hk (by rw [← hc]; rfl) hp.ge nofun
  | acquire hk hpos =>
    exact Or.inr ⟨_, _, List.getElem?_set_self (List.getElem?_eq_some_iff.1 hk).1, rfl⟩
  | insert hk he => exact hs.set hk rfl le_rfl fun _ => rfl
  | noStore hk hp => exact hs.set hk rfl le_rfl fun _ => rfl
  | store hk hp => exact hs.set hk rfl le_rfl fun _ => rfl
  -- a call that returns gives its permit back
  | managed | storageFails | storeFails | flushFails | finish | startFails =>
    exact Or.inl (Nat.succ_pos _)

/-- A call with a permit does not wait for another. -/
theorem exists_step_of_permit (nextval : ℕ → Option ℕ) (hk : s.calls[k]? = some ⟨h, p⟩)
    (hp : p.hasPermit = true) :
    ∃ e s', Serial s e ∧ Clean e ∧ s.step nextval e = some s' ∧ s'.remaining < s.remaining := by
  cases p with
  | permitted id =>
    refine ⟨.check k false, s.check k h id false, trivial, rfl, by simp only [step, hk], ?_⟩
    unfold check
    split
    · exact remaining_lt hk rfl (by simp [AddPhase.rest])
    · exact remaining_lt hk rfl (by simp [AddPhase.rest])
  | inserted id =>
    refine ⟨.store k false, s.store k h id false, trivial, rfl, by simp only [step, hk], ?_⟩
    unfold store
    split
    · exact remaining_lt hk rfl (by simp [AddPhase.rest])
    · exact remaining_lt hk rfl (by simp [AddPhase.rest])
  | stored id =>
    exact ⟨.finish k false, _, trivial, rfl, by simp only [step, hk]; rfl,
      remaining_lt hk rfl (by simp [AddPhase.rest])⟩
  | called => cases hp
  | numbered id => cases hp
  | returned r => cases hp

theorem exists_step_of_called (nextval : ℕ → Option ℕ) (hk : s.calls[k]? = some ⟨h, .called⟩)
    (hnone : ∀ d ∈ s.calls, d.phase.unstored = false) :
    ∃ e s', Serial s e ∧ Clean e ∧ s.step nextval e = some s' ∧ s'.remaining < s.remaining := by
  have hserial : Serial s (.nextId k) := by
    simp only [Serial]
    split
    · intro d hd hu
      rw [hnone d hd] at hu
      cases hu
    · trivial
  have hcalls : (s.readId nextval).2.calls = s.calls := by
    unfold readId
    split <;> rfl
  cases hr : s.readId nextval with
  | mk o s₁ =>
    rw [hr] at hcalls
    cases o with
    | some id =>
      refine ⟨.nextId k, s₁.setPhase k h (.numbered id), hserial, trivial, ?_, ?_⟩
      · simp only [step, hk, hr]
      · exact remaining_lt hk (by rw [← hcalls]; rfl) (by simp [AddPhase.rest])
    | none =>
      refine ⟨.nextId k, s₁.setPhase k h (.returned (.error .nextId)), hserial, trivial, ?_, ?_⟩
      · simp only [step, hk, hr]
      · exact remaining_lt hk (by rw [← hcalls]; rfl) (by simp [AddPhase.rest])

theorem exists_step (nextval : ℕ → Option ℕ) (hs : PermitInv s)
    (hrest : ∃ c ∈ s.calls, 0 < c.phase.rest) :
    ∃ e s', Serial s e ∧ Clean e ∧ s.step nextval e = some s' ∧ s'.remaining < s.remaining := by
  by_cases hp : ∃ (i : ℕ) (c : AddCall H), s.calls[i]? = some c ∧ c.phase.hasPermit = true
  · obtain ⟨i, c, hc, hcp⟩ := hp
    exact exists_step_of_permit nextval hc hcp
  · have hpos : 0 < s.permits := hs.resolve_right hp
    by_cases hn : ∃ (i : ℕ) (h : H) (id : ℕ), s.calls[i]? = some ⟨h, .numbered id⟩
    · obtain ⟨i, h, id, hk⟩ := hn
      exact ⟨.acquire i, _, trivial, trivial, by simp only [step, hk, if_pos hpos]; rfl,
        remaining_lt hk rfl (by simp [AddPhase.rest])⟩
    · -- the calls that have not returned are at their start
      have hphase (i : ℕ) (c : AddCall H) (hc : s.calls[i]? = some c) :
          c.phase = .called ∨ ∃ r, c.phase = .returned r := by
        obtain ⟨h, phase⟩ := c
        cases phase with
        | called => exact Or.inl rfl
        | numbered id => exact absurd ⟨i, h, id, hc⟩ hn
        | returned r => exact Or.inr ⟨r, rfl⟩
        | permitted | inserted | stored => exact absurd ⟨i, _, hc, rfl⟩ hp
      obtain ⟨c, hmem, hlt⟩ := hrest
      obtain ⟨k, hk⟩ := List.mem_iff_getElem?.1 hmem
      have hcalled : c.phase = .called := by
        obtain hcp | ⟨r, hcp⟩ := hphase k c hk
        · exact hcp
        · rw [hcp] at hlt
          cases hlt
      refine exists_step_of_called nextval (h := c.infoHash) (by rw [hk, ← hcalled]) ?_
      intro d hd
      obtain ⟨j, hj⟩ := List.mem_iff_getElem?.1 hd
      obtain hdp | ⟨r, hdp⟩ := hphase j d hj <;> rw [hdp] <;> rfl

/-- Without failures and further calls all calls return. -/
theorem exists_finish (nextval : ℕ → Option ℕ) (hs : PermitInv s) : ∃ evs t,
    Run (step nextval) (fun s e => Serial s e ∧ Clean e) s evs t ∧
      ∀ c ∈ t.calls, ∃ r, c.phase = .returned r := by
  -- every step takes from what remains
  induction hn : s.remaining using Nat.strong_induction_on generalizing s with
  | _ n ih =>
    by_cases hrest : ∃ c ∈ s.calls, 0 < c.phase.rest
    · obtain ⟨e, s₁, hok, hclean, hstep, hlt⟩ := exists_step nextval hs hrest
      obtain ⟨evs, t, hr, ht⟩ :=
        ih s₁.remaining (hn ▸ hlt) (step_permitInv hs (addStep_of_step hstep)) rfl
      exact ⟨e :: evs, t, Run.cons ⟨hok, hclean⟩ hstep hr, ht⟩
    · refine ⟨[], s, Run.nil, fun c hc => ?_⟩
      have hzero : ¬ 0 < c.phase.rest := fun hpos => hrest ⟨c, hc, hpos⟩
      cases hp : c.phase with
      | returned r => exact ⟨r, rfl⟩
      | called | numbered | permitted | inserted | stored =>
        rw [hp] at hzero
        exact absurd (by simp [AddPhase.rest]) hzero

end AddSession

end Rtbit
