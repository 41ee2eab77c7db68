import Rtbit.Proofs.AddReturns

/-! Concurrent `add_torrent` calls. The counter and the sequence give every call an id of its own;
the JSON store gives the same id to every call that asks before the torrent of another is stored. -/

namespace Rtbit

open Lib

variable {H : Type}

namespace AddSession

variable {s₀ s s' : AddSession H} {nextval : ℕ → Option ℕ} {k : ℕ} {h : H} {p p' : AddPhase H}

/-- A torrent with the info hash was managed at the start, or has been added by a call. -/
def Known (s₀ s : AddSession H) (h : H) : Prop :=
  (∃ id handle, s₀.db.torrents id = some handle ∧ handle.infoHash = h) ∨
    ∃ (i : ℕ) (c : AddCall H), s.calls[i]? = some c ∧ c.phase.wasManaged = true ∧ c.infoHash = h

/-- What a call has is in the database, and its answer is about its info hash. -/
structure CallOk (s₀ s : AddSession H) (c : AddCall H) : Prop where
  held : ∀ id, c.phase.held = some id → s.db.torrents id = some ⟨id, c.infoHash⟩
  /-- An id that the call has read is free, or taken by a torrent with its info hash. -/
  claimed : ∀ id handle, c.phase.claimed = some id → s.db.torrents id = some handle →
    handle.infoHash = c.infoHash
  added : ∀ id handle, c.phase = .returned (.ok (.added id handle)) → handle = ⟨id, c.infoHash⟩
  answered : ∀ id handle, c.phase = .returned (.ok (.alreadyManaged id handle)) →
    handle.infoHash = c.infoHash ∧ Known s₀ s c.infoHash

structure AddInv (s₀ s : AddSession H) : Prop where
  consistent : s.db.Consistent
  known : ∀ id handle, s.db.torrents id = some handle → Known s₀ s handle.infoHash
  calls : ∀ (i : ℕ) (c : AddCall H), s.calls[i]? = some c → CallOk s₀ s c
  held_inj : ∀ (i j : ℕ) (c d : AddCall H) (id : ℕ), s.calls[i]? = some c →
    s.calls[j]? = some d → c.phase.held = some id → d.phase.held = some id → i = j

theorem Known.append {x : H} (hx : Known s₀ s x) (c : AddCall H) :
    Known s₀ { s with calls := s.calls ++ [c] } x := by
  refine hx.imp_right fun ⟨i, d, hi, hd⟩ => ⟨i, d, ?_, hd⟩
  rw [List.getElem?_append_left (List.getElem?_eq_some_iff.1 hi).1]
  exact hi

theorem Known.set {x : H} (hx : Known s₀ s x) (hk : s.calls[k]? = some ⟨h, p⟩)
    (hcalls : s'.calls = s.calls.set k ⟨h, p'⟩)
    (hm : p.wasManaged = true → p'.wasManaged = true) : Known s₀ s' x := by
  refine hx.imp_right ?_
  rintro ⟨i, d, hi, hd, hx⟩
  by_cases hik : i = k
  · subst hik
    obtain rfl := Option.some.inj (hk.symm.trans hi)
    exact ⟨i, ⟨h, p'⟩, by rw [hcalls, List.getElem?_set_self (List.getElem?_eq_some_iff.1 hi).1],
      hm hd, hx⟩
  · exact ⟨i, d, by rw [hcalls, List.getElem?_set_ne (Ne.symm hik)]; exact hi, hd, hx⟩

theorem AddInv.append (hi : AddInv s₀ s) (h : H) :
    AddInv s₀ { s with calls := s.calls ++ [⟨h, .called⟩] } where
  consistent := hi.consistent
  known id handle ht := (hi.known id handle ht).append _
  calls i c hc := by
    obtain hc | ⟨-, rfl⟩ := get_append hc
    · have hok := hi.calls i c hc
      exact ⟨hok.held, hok.claimed, hok.added,
        fun id handle hp => (hok.answered id handle hp).imp_right (·.append _)⟩
    · exact ⟨nofun, nofun, nofun, nofun⟩
  held_inj i j c d id :=
    AtMostOne.append (p := fun c => c.phase.held = some id)
      (fun i j c d => hi.held_inj i j c d id) (fun he => by cases he) i j c d

/-- A call goes on: what it needs of the database afterwards, and what it leaves to the others. -/
theorem AddInv.set (hi : AddInv s₀ s) (hk : s.calls[k]? = some ⟨h, p⟩)
    (hcalls : s'.calls = s.calls.set k ⟨h, p'⟩)
    (hm : p.wasManaged = true → p'.wasManaged = true) (hdb : s'.db.Consistent)
    (hknown : ∀ id handle, s'.db.torrents id = some handle →
      s.db.torrents id = some handle ∨ handle.infoHash = h ∧ p'.wasManaged = true)
    (hheld : ∀ (j : ℕ) (d : AddCall H) (id : ℕ), j ≠ k → s.calls[j]? = some d →
      d.phase.held = some id → s'.db.torrents id = s.db.torrents id ∧ p'.held ≠ some id)
    (hclaimed : ∀ (j : ℕ) (d : AddCall H) (id : ℕ) (handle : TorrentHandle H), j ≠ k →
      s.calls[j]? = some d → d.phase.claimed = some id → s'.db.torrents id = some handle →
      handle.infoHash = d.infoHash)
    (hnew : CallOk s₀ s' ⟨h, p'⟩) : AddInv s₀ s' where
  consistent := hdb
  known id handle ht := by
    obtain ht | ⟨rfl, hp⟩ := hknown id handle ht
    · exact (hi.known id handle ht).set hk hcalls hm
    · refine Or.inr ⟨k, ⟨handle.infoHash, p'⟩, ?_, hp, rfl⟩
      rw [hcalls, List.getElem?_set_self (List.getElem?_eq_some_iff.1 hk).1]
  calls i c hc := by
    rw [hcalls] at hc
    obtain ⟨-, rfl⟩ | ⟨hik, hc⟩ := get_set hc
    · exact hnew
    · have hok := hi.calls i c hc
      refine ⟨fun id hid => ?_, fun id handle => hclaimed i c id handle hik hc, hok.added, ?_⟩
      · rw [(hheld i c id hik hc hid).1]
        exact hok.held id hid
      · exact fun id handle hp => (hok.answered id handle hp).imp_right (·.set hk hcalls hm)
  held_inj i j c d id := by
    rw [hcalls]
    refine AtMostOne.set (p := fun c => c.phase.held = some id)
      (fun i j c d => hi.held_inj i j c d id) ?_ i j c d
    exact fun hp j d hjk hd hdid => (hheld j d id hjk hd hdid).2 hp

/-- A call goes on and the database stays. -/
theorem AddInv.move (hi : AddInv s₀ s) (hk : s.calls[k]? = some ⟨h, p⟩) (hdb : s'.db = s.db)
    (hcalls : s'.calls = s.calls.set k ⟨h, p'⟩)
    (hm : p.wasManaged = true → p'.wasManaged = true)
    (hheld : ∀ id, p'.held = some id → p.held = some id)
    (hclaimed : ∀ id handle, p'.claimed = some id → s.db.torrents id = some handle →
      handle.infoHash = h)
    (hadded : ∀ id handle, p' = .returned (.ok (.added id handle)) → handle = ⟨id, h⟩)
    (hanswered : ∀ id handle, p' = .returned (.ok (.alreadyManaged id handle)) →
      handle.infoHash = h ∧ Known s₀ s h) : AddInv s₀ s' := by
  refine hi.set hk hcalls hm (hdb ▸ hi.consistent) ?_ ?_ ?_ ⟨?_, ?_, hadded, ?_⟩
  · rw [hdb]
    exact fun id handle ht => Or.inl ht
  · refine fun j d id hjk hd hid => ⟨by rw [hdb], fun hp => hjk ?_⟩
    exact hi.held_inj j k d ⟨h, p⟩ id hd hk hid (hheld id hp)
  · rw [hdb]
    exact fun j d id handle _ hd hid ht => (hi.calls j d hd).claimed id handle hid ht
  · rw [hdb]
    exact fun id hid => (hi.calls k ⟨h, p⟩ hk).held id (hheld id hid)
  · rw [hdb]
    exact hclaimed
  · exact fun id handle hp => (hanswered id handle hp).imp_right (·.set hk hcalls hm)

/-- Every id in use was issued, and to one call. -/
structure Counted (Issued : ℕ → Prop) (s : AddSession H) : Prop where
  managed : ∀ id handle, s.db.torrents id = some handle → Issued id
  claimed : ∀ (i : ℕ) (c : AddCall H) (id : ℕ), s.calls[i]? = some c →
    c.phase.claimed = some id → Issued id ∧ s.db.torrents id = none
  claimed_inj : ∀ (i j : ℕ) (c d : AddCall H) (id : ℕ), s.calls[i]? = some c →
    s.calls[j]? = some d → c.phase.claimed = some id → d.phase.claimed = some id → i = j

/-- The JSON store holds every managed torrent that is not being stored; the calls that have read
an id and have not stored it add one info hash. -/
structure JsonInv (ts : List (ℕ × H)) (s : AddSession H) : Prop where
  managed : ∀ id handle, s.db.torrents id = some handle → id ∈ ts.map Prod.fst ∨
    ∃ (i : ℕ) (c : AddCall H), s.calls[i]? = some c ∧ c.phase = .inserted id
  same : ∀ (i j : ℕ) (c d : AddCall H), s.calls[i]? = some c → s.calls[j]? = some d →
    c.phase.unstored = true → d.phase.unstored = true → c.infoHash = d.infoHash

def IdsInv (nextval : ℕ → Option ℕ) (s : AddSession H) : Prop :=
  match s.persistence with
  | none => Counted (· < s.nextId) s
  | some (.json ts) => JsonInv ts s
  | some (.postgres queries _) => Counted (fun id => ∃ n < queries, nextval n = some id) s

/-- A call goes on. It keeps its id or gets one that was not issued before, and a torrent
that is new in the database has the id that the call had claimed. -/
theorem Counted.set {Issued Issued' : ℕ → Prop} (hs : Counted Issued s)
    (hk : s.calls[k]? = some ⟨h, p⟩) (hcalls : s'.calls = s.calls.set k ⟨h, p'⟩)
    (hmono : ∀ id, Issued id → Issued' id)
    (hclaim : ∀ id, p'.claimed = some id → p.claimed = some id ∨ Issued' id ∧ ¬ Issued id)
    (hdb : ∀ id handle, s'.db.torrents id = some handle → s.db.torrents id = some handle ∨
      p.claimed = some id ∧ p'.claimed = none) : Counted Issued' s' where
  managed id handle ht := by
    obtain ht | ⟨hid, -⟩ := hdb id handle ht
    · exact hmono id (hs.managed id handle ht)
    · exact hmono id (hs.claimed k ⟨h, p⟩ id hk hid).1
  claimed i c id hc hid := by
    rw [hcalls] at hc
    obtain ⟨rfl, rfl⟩ | ⟨hik, hc⟩ := get_set hc
    · have hold : Issued' id ∧ s.db.torrents id = none := by
        obtain hid | ⟨hnew, hnot⟩ := hclaim id hid
        · exact (hs.claimed i ⟨h, p⟩ id hk hid).imp_left (hmono id)
        · exact ⟨hnew, Option.eq_none_iff_forall_ne_some.2
            fun handle ht => hnot (hs.managed id handle ht)⟩
      refine ⟨hold.1, Option.eq_none_iff_forall_ne_some.2 fun handle ht => ?_⟩
      obtain ht | ⟨-, hnone⟩ := hdb id handle ht
      · rw [hold.2] at ht
        cases ht
      · rw [hnone] at hid
        cases hid
    · obtain ⟨hiss, hnone⟩ := hs.claimed i c id hc hid
      refine ⟨hmono id hiss, Option.eq_none_iff_forall_ne_some.2 fun handle ht => ?_⟩
      obtain ht | ⟨hpid, -⟩ := hdb id handle ht
      · rw [hnone] at ht
        cases ht
      · exact hik (hs.claimed_inj i k c ⟨h, p⟩ id hc hk hid hpid)
  claimed_inj i j c d id := by
    rw [hcalls]
    refine AtMostOne.set (p := fun c => c.phase.claimed = some id)
      (fun i j c d => hs.claimed_inj i j c d id) ?_ i j c d
    -- no other call has the id that the call has claimed now
    intro hp j d hjk hd hdid
    obtain hp | ⟨-, hnot⟩ := hclaim id hp
    · exact hjk (hs.claimed_inj j k d ⟨h, p⟩ id hd hk hdid hp)
    · exact hnot (hs.claimed j d id hd hdid).1

/-- A call goes on. A torrent that it had inserted is stored or removed. -/
theorem JsonInv.set {ts ts' : List (ℕ × H)} (hs : JsonInv ts s)
    (hk : s.calls[k]? = some ⟨h, p⟩) (hcalls : s'.calls = s.calls.set k ⟨h, p'⟩)
    (hmono : ∀ id ∈ ts.map Prod.fst, id ∈ ts'.map Prod.fst)
    (hsame : p'.unstored = true → ∀ (j : ℕ) (d : AddCall H), s.calls[j]? = some d →
      d.phase.unstored = true → d.infoHash = h)
    (hdb : ∀ id handle, s'.db.torrents id = some handle →
      s.db.torrents id = some handle ∧ p ≠ .inserted id ∨ id ∈ ts'.map Prod.fst ∨
        p' = .inserted id) : JsonInv ts' s' where
  managed id handle ht := by
    obtain ⟨ht, hp⟩ | hid | rfl := hdb id handle ht
    · obtain hid | ⟨i, c, hc, hcp⟩ := hs.managed id handle ht
      · exact Or.inl (hmono id hid)
      · have hik : i ≠ k := by
          rintro rfl
          obtain rfl := Option.some.inj (hk.symm.trans hc)
          exact hp hcp
        refine Or.inr ⟨i, c, ?_, hcp⟩
        rw [hcalls, List.getElem?_set_ne (Ne.symm hik)]
        exact hc
    · exact Or.inl hid
    · refine Or.inr ⟨k, ⟨h, .inserted id⟩, ?_, rfl⟩
      rw [hcalls, List.getElem?_set_self (List.getElem?_eq_some_iff.1 hk).1]
  same i j c d hc hd hcu hdu := by
    rw [hcalls] at hc hd
    obtain ⟨-, rfl⟩ | ⟨-, hc'⟩ := get_set hc
    · obtain ⟨-, rfl⟩ | ⟨-, hd'⟩ := get_set hd
      · rfl
      · exact (hsame hcu j d hd' hdu).symm
    · obtain ⟨-, rfl⟩ | ⟨-, hd'⟩ := get_set hd
      · exact hsame hdu i c hc' hcu
      · exact hs.same i j c d hc' hd' hcu hdu

theorem Counted.append {Issued : ℕ → Prop} (hs : Counted Issued s) (h : H) :
    Counted Issued { s with calls := s.calls ++ [⟨h, .called⟩] } where
  managed := hs.managed
  claimed i c id hc hid := by
    obtain hc | ⟨-, rfl⟩ := get_append hc
    · exact hs.claimed i c id hc hid
    · cases hid
  claimed_inj i j c d id :=
    AtMostOne.append (p := fun c => c.phase.claimed = some id)
      (fun i j c d => hs.claimed_inj i j c d id) (fun he => by cases he) i j c d

theorem JsonInv.append {ts : List (ℕ × H)} (hs : JsonInv ts s) (h : H) :
    JsonInv ts { s with calls := s.calls ++ [⟨h, .called⟩] } where
  managed id handle ht := by
    refine (hs.managed id handle ht).imp_right fun ⟨i, c, hc, hp⟩ => ⟨i, c, ?_, hp⟩
    rw [List.getElem?_append_left (List.getElem?_eq_some_iff.1 hc).1]
    exact hc
  same i j c d hc hd hcu hdu := by
    obtain hc' | ⟨-, rfl⟩ := get_append hc
    · obtain hd' | ⟨-, rfl⟩ := get_append hd
      · exact hs.same i j c d hc' hd' hcu hdu
      · cases hdu
    · cases hcu

theorem idsInv_none (hp : s.persistence = none) :
    IdsInv nextval s ↔ Counted (· < s.nextId) s := by
  unfold IdsInv
  rw [hp]

theorem idsInv_json {ts : List (ℕ × H)} (hp : s.persistence = some (.json ts)) :
    IdsInv nextval s ↔ JsonInv ts s := by
  unfold IdsInv
  rw [hp]

theorem idsInv_postgres {q : ℕ} {ts : List (ℕ × H)} (hp : s.persistence = some (.postgres q ts)) :
    IdsInv nextval s ↔ Counted (fun id => ∃ n < q, nextval n = some id) s := by
  unfold IdsInv
  rw [hp]

theorem persistence_cases (s : AddSession H) : s.persistence = none ∨
    (∃ ts, s.persistence = some (.json ts)) ∨ ∃ q ts, s.persistence = some (.postgres q ts) := by
  cases s.persistence with
  | none => exact Or.inl rfl
  | some store =>
    cases store with
    | json ts => exact Or.inr (Or.inl ⟨ts, rfl⟩)
    | postgres q ts => exact Or.inr (Or.inr ⟨q, ts, rfl⟩)

theorem IdsInv.append (hs : IdsInv nextval s) (h : H) :
    IdsInv nextval { s with calls := s.calls ++ [⟨h, .called⟩] } := by
  obtain hp | ⟨ts, hp⟩ | ⟨q, ts, hp⟩ := s.persistence_cases
  · rw [idsInv_none hp] at hs
    exact (idsInv_none (by exact hp)).2 (hs.append h)
  · rw [idsInv_json hp] at hs
    exact (idsInv_json (by exact hp)).2 (hs.append h)
  · rw [idsInv_postgres hp] at hs
    exact (idsInv_postgres (by exact hp)).2 (hs.append h)

/-- A call goes on without the store. -/
theorem IdsInv.set (hs : IdsInv nextval s) (hk : s.calls[k]? = some ⟨h, p⟩)
    (hcalls : s'.calls = s.calls.set k ⟨h, p'⟩) (hp : s'.persistence = s.persistence)
    (hn : s'.nextId = s.nextId) (hclaim : ∀ id, p'.claimed = some id → p.claimed = some id)
    (hunstored : p'.unstored = true → p.unstored = true)
    (hdb : ∀ id handle, s'.db.torrents id = some handle →
      s.db.torrents id = some handle ∧ p ≠ .inserted id ∨
        p.claimed = some id ∧ p' = .inserted id) : IdsInv nextval s' := by
  have hdb' (id : ℕ) (handle : TorrentHandle H) (ht : s'.db.torrents id = some handle) :
      s.db.torrents id = some handle ∨ p.claimed = some id ∧ p'.claimed = none := by
    obtain ⟨ht, -⟩ | ⟨hc, rfl⟩ := hdb id handle ht
    · exact Or.inl ht
    · exact Or.inr ⟨hc, rfl⟩
  obtain hs' | ⟨ts, hs'⟩ | ⟨q, ts, hs'⟩ := s.persistence_cases
  · rw [idsInv_none hs'] at hs
    rw [idsInv_none (hp.trans hs'), hn]
    exact hs.set hk hcalls (fun _ => id) (fun id hid => Or.inl (hclaim id hid)) hdb'
  · rw [idsInv_json hs'] at hs
    rw [idsInv_json (hp.trans hs')]
    refine hs.set hk hcalls (fun _ => id) (fun hu j d hd hdu => ?_) fun id handle ht => ?_
    · exact hs.same j k d ⟨h, p⟩ hd hk hdu (hunstored hu)
    · exact (hdb id handle ht).imp_right fun hid => Or.inr hid.2
  · rw [idsInv_postgres hs'] at hs
    rw [idsInv_postgres (hp.trans hs')]
    exact hs.set hk hcalls (fun _ => id) (fun id hid => Or.inl (hclaim id hid)) hdb'

/-- The id that a call reads is not in use, or by a torrent with the same info hash. -/
theorem nextId_inv (hseq : ∀ m n i, nextval m = some i → nextval n = some i → m = n)
    (hi : AddInv s₀ s) (hs : IdsInv nextval s) (hok : Serial s (.nextId k))
    (hk : s.calls[k]? = some ⟨h, .called⟩) {id : ℕ} {s₁ : AddSession H}
    (hr : s.readId nextval = (some id, s₁)) :
    AddInv s₀ (s₁.setPhase k h (.numbered id)) ∧
      IdsInv nextval (s₁.setPhase k h (.numbered id)) := by
  obtain hp | ⟨ts, hp⟩ | ⟨q, ts, hp⟩ := s.persistence_cases
  · simp only [readId, hp, Prod.mk.injEq, Option.some.injEq] at hr
    obtain ⟨rfl, rfl⟩ := hr
    rw [idsInv_none hp] at hs
    refine ⟨hi.move hk rfl rfl nofun nofun ?_ nofun nofun, ?_⟩
    · intro i handle hc ht
      obtain rfl := Option.some.inj hc
      exact absurd (hs.managed _ handle ht) (lt_irrefl _)
    · refine (idsInv_none (by exact rfl)).2 (hs.set hk rfl ?_ ?_ fun _ _ => Or.inl)
      · exact fun i hlt => Nat.lt_succ_of_lt hlt
      · intro i hc
        obtain rfl := Option.some.inj hc
        exact Or.inr ⟨Nat.lt_succ_self _, lt_irrefl _⟩
  · simp only [readId, hp, Prod.mk.injEq, Option.some.injEq] at hr
    obtain ⟨rfl, rfl⟩ := hr
    rw [idsInv_json hp] at hs
    refine ⟨hi.move hk rfl rfl nofun nofun ?_ nofun nofun, ?_⟩
    · intro i handle hc ht
      obtain rfl := Option.some.inj hc
      -- the id is not in the store, so the torrent is just being stored
      obtain hmem | ⟨j, d, hd, hdp⟩ := hs.managed _ handle ht
      · exact absurd (lt_jsonNextId hmem) (lt_irrefl _)
      · rw [(hi.calls j d hd).held _ (by rw [hdp]; rfl)] at ht
        rw [← Option.some.inj ht]
        exact hok.json hp hk hd (by rw [hdp]; rfl)
    · refine (idsInv_json (by exact hp)).2 (hs.set hk rfl (fun _ hm => hm) ?_ ?_)
      · exact fun _ j d hd hu => hok.json hp hk hd hu
      · exact fun i handle ht => Or.inl ⟨ht, nofun⟩
  · simp only [readId, hp, Prod.mk.injEq] at hr
    obtain ⟨hq, rfl⟩ := hr
    rw [idsInv_postgres hp] at hs
    -- `nextval` has not answered so before
    have hnew : ¬ ∃ n < q, nextval n = some id := by
      rintro ⟨n, hn, hid⟩
      exact absurd (hseq n q id hid hq) hn.ne
    refine ⟨hi.move hk rfl rfl nofun nofun ?_ nofun nofun, ?_⟩
    · intro i handle hc ht
      obtain rfl := Option.some.inj hc
      exact absurd (hs.managed _ handle ht) hnew
    · refine (idsInv_postgres (by exact rfl)).2 (hs.set hk rfl ?_ ?_ fun _ _ => Or.inl)
      · exact fun i ⟨n, hn, hid⟩ => ⟨n, Nat.lt_succ_of_lt hn, hid⟩
      · intro i hc
        obtain rfl := Option.some.inj hc
        exact Or.inr ⟨⟨q, Nat.lt_succ_self q, hq⟩, hnew⟩

theorem nextIdFails_inv (hi : AddInv s₀ s) (hs : IdsInv nextval s)
    (hk : s.calls[k]? = some ⟨h, .called⟩) {s₁ : AddSession H}
    (hr : s.readId nextval = (none, s₁)) :
    AddInv s₀ (s₁.setPhase k h (.returned (.error .nextId))) ∧
      IdsInv nextval (s₁.setPhase k h (.returned (.error .nextId))) := by
  obtain hp | ⟨ts, hp⟩ | ⟨q, ts, hp⟩ := s.persistence_cases
  · simp [readId, hp] at hr
  · simp [readId, hp] at hr
  · simp only [readId, hp, Prod.mk.injEq] at hr
    obtain ⟨-, rfl⟩ := hr
    rw [idsInv_postgres hp] at hs
    refine ⟨hi.move hk rfl rfl nofun nofun nofun nofun nofun, ?_⟩
    refine (idsInv_postgres (by exact rfl)).2 (hs.set hk rfl ?_ nofun fun _ _ => Or.inl)
    exact fun i ⟨n, hn, hid⟩ => ⟨n, Nat.lt_succ_of_lt hn, hid⟩

theorem store_idsInv {store : PersistenceStore H} {id : ℕ} (hs : IdsInv nextval s)
    (hk : s.calls[k]? = some ⟨h, .inserted id⟩) (hp : s.persistence = some store) :
    IdsInv nextval
      { s.setPhase k h (.stored id) with persistence := some (store.store id h) } := by
  cases store with
  | json ts =>
    rw [idsInv_json hp] at hs
    refine (idsInv_json (by exact rfl)).2 (hs.set hk rfl ?_ nofun ?_)
    · intro i hmem
      by_cases hid : i = id
      · simp [hid]
      · simpa [hid] using hmem
    · intro i handle ht
      by_cases hid : i = id
      · exact Or.inr (Or.inl (by simp [hid]))
      · exact Or.inl ⟨ht, fun hins => hid (by injection hins with hins; exact hins.symm)⟩
  | postgres q ts =>
    rw [idsInv_postgres hp] at hs
    refine (idsInv_postgres (by exact rfl)).2 ?_
    exact hs.set hk rfl (fun _ hi => hi) nofun fun _ _ => Or.inl

/-- The ids that the source has given out. -/
def Issued (nextval : ℕ → Option ℕ) (s : AddSession H) (id : ℕ) : Prop :=
  match s.persistence with
  | none => id < s.nextId
  | some (.json ts) => id ∈ ts.map Prod.fst
  | some (.postgres queries _) => ∃ n < queries, nextval n = some id

/-- A session in which no call runs: the ids of its torrents were given out by the source, and the
semaphore has at least one permit. -/
structure Resting (nextval : ℕ → Option ℕ) (s : AddSession H) : Prop where
  calls : s.calls = []
  permits : 0 < s.permits
  consistent : s.db.Consistent
  issued : ∀ id handle, s.db.torrents id = some handle → Issued nextval s id

/-- No torrent that was managed at the start or was added by another call has the info hash. -/
def Unmanaged (s₀ s : AddSession H) (i : ℕ) (h : H) : Prop :=
  (∀ id handle, s₀.db.torrents id = some handle → handle.infoHash ≠ h) ∧
    ∀ (j : ℕ) (d : AddCall H), j ≠ i → s.calls[j]? = some d → d.phase.wasManaged = true →
      d.infoHash ≠ h

structure AddsCorrect (s₀ s : AddSession H) : Prop where
  /-- Two calls with new and different info hashes, unless they fail, have added their torrents
  under different ids. -/
  added : ∀ (i j : ℕ) (c d : AddCall H) (r r' : AddTorrentResponse H), s.calls[i]? = some c →
    s.calls[j]? = some d → c.infoHash ≠ d.infoHash → Unmanaged s₀ s i c.infoHash →
    Unmanaged s₀ s j d.infoHash → c.phase = .returned (.ok r) → d.phase = .returned (.ok r') →
    ∃ id id', r = .added id ⟨id, c.infoHash⟩ ∧ r' = .added id' ⟨id', d.infoHash⟩ ∧ id ≠ id'
  /-- The torrent that is already managed has the info hash of the call. -/
  alreadyManaged : ∀ (i : ℕ) (c : AddCall H) (id : ℕ) (handle : TorrentHandle H),
    s.calls[i]? = some c → c.phase = .returned (.ok (.alreadyManaged id handle)) →
    handle.infoHash = c.infoHash

theorem Resting.inv (hs : Resting nextval s₀) :
    AddInv s₀ s₀ ∧ IdsInv nextval s₀ ∧ PermitInv s₀ := by
  have hno {i : ℕ} {c : AddCall H} (hc : s₀.calls[i]? = some c) : False := by
    rw [hs.calls] at hc
    cases hc
  refine ⟨⟨hs.consistent, ?_, ?_, ?_⟩, ?_, Or.inl hs.permits⟩
  · exact fun id handle ht => Or.inl ⟨id, handle, ht, rfl⟩
  · exact fun i c hc => (hno hc).elim
  · exact fun i j c d id hc => (hno hc).elim
  · have hissued := hs.issued
    unfold Issued at hissued
    obtain hp | ⟨ts, hp⟩ | ⟨q, ts, hp⟩ := s₀.persistence_cases
    · simp only [hp] at hissued
      exact (idsInv_none hp).2 ⟨hissued, fun i c id hc => (hno hc).elim,
        fun i j c d id hc => (hno hc).elim⟩
    · simp only [hp] at hissued
      exact (idsInv_json hp).2 ⟨fun id handle ht => Or.inl (hissued id handle ht),
        fun i j c d hc => (hno hc).elim⟩
    · simp only [hp] at hissued
      exact (idsInv_postgres hp).2 ⟨hissued, fun i c id hc => (hno hc).elim,
        fun i j c d id hc => (hno hc).elim⟩

/-- A call that has returned, with an info hash that is not managed, has added its torrent. -/
theorem AddInv.added_of_unmanaged (hi : AddInv s₀ s) {i : ℕ} {c : AddCall H}
    {r : AddTorrentResponse H} (hc : s.calls[i]? = some c) (hu : Unmanaged s₀ s i c.infoHash)
    (hr : c.phase = .returned (.ok r)) : ∃ id, r = .added id ⟨id, c.infoHash⟩ ∧
      s.db.torrents id = some ⟨id, c.infoHash⟩ := by
  cases r with
  | added id handle =>
    obtain rfl := (hi.calls i c hc).added id handle hr
    exact ⟨id, rfl, (hi.calls i c hc).held id (by rw [hr]; rfl)⟩
  | alreadyManaged id handle =>
    exfalso
    obtain ⟨id', handle', ht, hh⟩ | ⟨j, d, hd, hm, hh⟩ := ((hi.calls i c hc).answered id handle hr).2
    · exact hu.1 id' handle' ht hh
    · refine hu.2 j d ?_ hd hm hh
      rintro rfl
      obtain rfl := Option.some.inj (hc.symm.trans hd)
      rw [hr] at hm
      cases hm

theorem AddInv.addsCorrect (hi : AddInv s₀ s) : AddsCorrect s₀ s where
  added i j c d r r' hc hd hne huc hud hr hr' := by
    obtain ⟨id, rfl, ht⟩ := hi.added_of_unmanaged hc huc hr
    obtain ⟨id', rfl, ht'⟩ := hi.added_of_unmanaged hd hud hr'
    refine ⟨id, id', rfl, rfl, ?_⟩
    rintro rfl
    rw [ht] at ht'
    exact hne (congrArg TorrentHandle.infoHash (Option.some.inj ht'))
  alreadyManaged i c id handle hc hp := ((hi.calls i c hc).answered id handle hp).1

variable [DecidableEq H] {id : ℕ}

/-- The torrent of a call is added; a call that has read the same id adds the same info hash. -/
theorem AddInv.insert (hi : AddInv s₀ s) (hk : s.calls[k]? = some ⟨h, .permitted id⟩)
    (he : s.db.existing id h = none)
    (hsame : ∀ (j : ℕ) (d : AddCall H), j ≠ k → s.calls[j]? = some d →
      d.phase.claimed = some id → d.infoHash = h) :
    AddInv s₀ { s.setPhase k h (.inserted id) with db := s.db.addTorrent ⟨id, h⟩ id } := by
  obtain ⟨hn, hh⟩ := SessionDatabase.existing_none hi.consistent he
  refine hi.set hk rfl nofun (hi.consistent.addTorrent hn hh) ?_ ?_ ?_ ⟨?_, nofun, nofun, nofun⟩
  · intro i handle ht
    rw [SessionDatabase.addTorrent_torrents] at ht
    split_ifs at ht
    · exact Or.inr ⟨by rw [← Option.some.inj ht], rfl⟩
    · exact Or.inl ht
  · intro j d i hjk hd hid
    have hne : i ≠ id := by
      rintro rfl
      rw [(hi.calls j d hd).held i hid] at hn
      cases hn
    refine ⟨?_, fun hp => hne (Option.some.inj hp).symm⟩
    rw [SessionDatabase.addTorrent_torrents, if_neg hne]
  · intro j d i handle hjk hd hid ht
    rw [SessionDatabase.addTorrent_torrents] at ht
    split_ifs at ht with heq
    · rw [← Option.some.inj ht]
      exact (hsame j d hjk hd (heq ▸ hid)).symm
    · exact (hi.calls j d hd).claimed i handle hid ht
  · intro i hid
    obtain rfl := Option.some.inj hid
    rw [SessionDatabase.addTorrent_torrents, if_pos rfl]

/-- `store` failed: the torrent of the call goes, and no other. -/
theorem AddInv.remove (hi : AddInv s₀ s) (hk : s.calls[k]? = some ⟨h, p⟩)
    (hp : p.held = some id) : AddInv s₀ (s.storeFailed k h id) := by
  have hold (i : ℕ) (handle : TorrentHandle H)
      (ht : (s.db.removeTorrent id).torrents i = some handle) : s.db.torrents i = some handle := by
    rw [SessionDatabase.removeTorrent_torrents] at ht
    split_ifs at ht
    exact ht
  refine hi.set hk rfl (fun _ => rfl) (hi.consistent.removeTorrent id) ?_ ?_ ?_
    ⟨nofun, nofun, nofun, nofun⟩
  · exact fun i handle ht => Or.inl (hold i handle ht)
  · intro j d i hjk hd hid
    have hne : i ≠ id := fun heq => hjk (hi.held_inj j k d ⟨h, p⟩ id hd hk (heq ▸ hid) hp)
    refine ⟨?_, nofun⟩
    change (s.db.removeTorrent id).torrents i = _
    rw [SessionDatabase.removeTorrent_torrents, if_neg hne]
  · exact fun j d i handle _ hd hid ht => (hi.calls j d hd).claimed i handle hid (hold i handle ht)

theorem insert_inv (hi : AddInv s₀ s) (hs : IdsInv nextval s)
    (hk : s.calls[k]? = some ⟨h, .permitted id⟩) (he : s.db.existing id h = none) :
    AddInv s₀ { s.setPhase k h (.inserted id) with db := s.db.addTorrent ⟨id, h⟩ id } ∧
      IdsInv nextval
        { s.setPhase k h (.inserted id) with db := s.db.addTorrent ⟨id, h⟩ id } := by
  have hcounted {Issued : ℕ → Prop} (hs : Counted Issued s) (j : ℕ) (d : AddCall H) (hj : j ≠ k)
      (hd : s.calls[j]? = some d) (hid : d.phase.claimed = some id) : d.infoHash = h :=
    absurd (hs.claimed_inj j k d _ id hd hk hid rfl) hj
  refine ⟨hi.insert hk he ?_, hs.set hk rfl rfl rfl nofun (fun _ => rfl) ?_⟩
  · obtain hp | ⟨ts, hp⟩ | ⟨q, ts, hp⟩ := s.persistence_cases
    · rw [idsInv_none hp] at hs
      exact hcounted hs
    · rw [idsInv_json hp] at hs
      intro j d _ hd hid
      exact hs.same j k d _ hd hk (AddPhase.unstored_of_claimed hid) rfl
    · rw [idsInv_postgres hp] at hs
      exact hcounted hs
  · intro i handle ht
    change (s.db.addTorrent ⟨id, h⟩ id).torrents i = some handle at ht
    rw [SessionDatabase.addTorrent_torrents] at ht
    split_ifs at ht with hid
    · exact Or.inr ⟨by rw [hid]; rfl, by rw [hid]⟩
    · exact Or.inl ⟨ht, nofun⟩

/-- The torrent of a call is removed from the database. -/
theorem IdsInv.remove (hs : IdsInv nextval s) (hk : s.calls[k]? = some ⟨h, p⟩)
    (hheld : p.held = some id) : IdsInv nextval (s.storeFailed k h id) := by
  refine hs.set hk rfl rfl rfl nofun nofun fun i handle ht => ?_
  change (s.db.removeTorrent id).torrents i = some handle at ht
  rw [SessionDatabase.removeTorrent_torrents] at ht
  split_ifs at ht with hid
  refine Or.inl ⟨ht, ?_⟩
  rintro rfl
  exact hid (Option.some.inj hheld)

theorem step_inv (hseq : ∀ m n i, nextval m = some i → nextval n = some i → m = n)
    {e : AddEvent H} (hi : AddInv s₀ s) (hs : IdsInv nextval s) (hok : Serial s e)
    (hstep : AddStep nextval s e s') : AddInv s₀ s' ∧ IdsInv nextval s' := by
  cases hstep with
  | @call h => exact ⟨hi.append h, hs.append h⟩
  | nextId hk hr => exact nextId_inv hseq hi hs hok hk hr
  | nextIdFails hk hr => exact nextIdFails_inv hi hs hk hr
  | acquire hk hpos =>
    refine ⟨hi.move hk rfl rfl nofun nofun ?_ nofun nofun, ?_⟩
    · exact fun i handle hc ht => (hi.calls _ _ hk).claimed i handle hc ht
    · exact hs.set hk rfl rfl rfl (fun _ hc => hc) (fun _ => rfl) fun _ _ ht => Or.inl ⟨ht, nofun⟩
  | @managed k h id _ id' handle hk he =>
    obtain ⟨ht, hor⟩ := SessionDatabase.existing_some hi.consistent he
    -- found by its id, it is the torrent that may have this id
    have hhash : handle.infoHash = h := by
      obtain rfl | hh := hor
      · exact (hi.calls k _ hk).claimed id' handle rfl ht
      · exact hh
    refine ⟨hi.move hk rfl rfl nofun nofun nofun nofun ?_, ?_⟩
    · rintro _ _ ⟨⟩
      exact ⟨hhash, hhash ▸ hi.known id' handle ht⟩
    · exact hs.set hk rfl rfl rfl nofun nofun fun _ _ ht => Or.inl ⟨ht, nofun⟩
  | storageFails hk he =>
    refine ⟨hi.move hk rfl rfl nofun nofun nofun nofun nofun, ?_⟩
    exact hs.set hk rfl rfl rfl nofun nofun fun _ _ ht => Or.inl ⟨ht, nofun⟩
  | insert hk he => exact insert_inv hi hs hk he
  | noStore hk hp =>
    refine ⟨hi.move hk rfl rfl (fun _ => rfl) (fun _ hh => hh) nofun nofun nofun, ?_⟩
    rw [idsInv_none hp] at hs
    exact (idsInv_none (by exact hp)).2 (hs.set hk rfl (fun _ hi => hi) nofun fun _ _ => Or.inl)
  | store hk hp =>
    refine ⟨hi.move hk rfl rfl (fun _ => rfl) (fun _ hh => hh) nofun nofun nofun, ?_⟩
    exact store_idsInv hs hk hp
  | storeFails hk hp => exact ⟨hi.remove hk rfl, hs.remove hk rfl⟩
  | flushFails hk hp => exact ⟨hi.remove hk rfl, hs.remove hk rfl⟩
  | finish hk =>
    refine ⟨hi.move hk rfl rfl (fun _ => rfl) ?_ nofun ?_ nofun, ?_⟩
    · exact fun _ hh => hh
    · rintro _ _ ⟨⟩
      rfl
    · exact hs.set hk rfl rfl rfl nofun nofun fun _ _ ht => Or.inl ⟨ht, nofun⟩
  | startFails hk =>
    refine ⟨hi.move hk rfl rfl (fun _ => rfl) nofun nofun nofun nofun, ?_⟩
    exact hs.set hk rfl rfl rfl nofun nofun fun _ _ ht => Or.inl ⟨ht, nofun⟩

/-- Any number of calls, interleaved at their await points; `nextval` gives no id twice. -/
theorem concurrent_adds_correct (nextval : ℕ → Option ℕ)
    (hseq : ∀ m n id, nextval m = some id → nextval n = some id → m = n) (s₀ s : AddSession H)
    (hs : Resting nextval s₀) (evs : List (AddEvent H))
    (hr : Run (step nextval) Serial s₀ evs s) :
    AddsCorrect s₀ s ∧ ∃ evs' t, Run (step nextval) (fun s e => Serial s e ∧ Clean e) s evs' t ∧
      ∀ c ∈ t.calls, ∃ r, c.phase = .returned r := by
  obtain ⟨hi, hp⟩ : (AddInv s₀ s ∧ IdsInv nextval s) ∧ PermitInv s := by
    refine hr.inv (fun s => (AddInv s₀ s ∧ IdsInv nextval s) ∧ PermitInv s) ?_ ?_
    · obtain ⟨hi, hids, hp⟩ := hs.inv
      exact ⟨⟨hi, hids⟩, hp⟩
    · rintro s₁ e s₂ ⟨⟨hi, hids⟩, hp⟩ hok hstep
      have hstep := addStep_of_step hstep
      exact ⟨step_inv hseq hi hids hok hstep, step_permitInv hp hstep⟩
  exact ⟨hi.1.addsCorrect, exists_finish nextval hp⟩

instance (s : AddSession H) (e : AddEvent H) : Decidable (Serial s e) :=
  match e with
  | .nextId k =>
    match hp : s.persistence, hk : s.calls[k]? with
    | some (.json _), some c =>
      decidable_of_iff (∀ d ∈ s.calls, d.phase.unstored = true → d.infoHash = c.infoHash)
        (by simp [Serial, hp, hk])
    | some (.json _), none => isTrue (by simp [Serial, hp, hk])
    | some (.postgres _ _), _ => isTrue (by simp [Serial, hp])
    | none, _ => isTrue (by simp [Serial, hp])
  | .call _ | .acquire _ | .check _ _ | .store _ _ | .flushFails _ | .finish _ _ => isTrue trivial

/-- A session without torrents. -/
def emptySession (persistence : Option (PersistenceStore ℕ)) : AddSession ℕ :=
  ⟨⟨fun _ => none, fun _ => none⟩, 0, persistence, 1, []⟩

/-- A new sequence counts from one. -/
def newSequence (n : ℕ) : Option ℕ := some (n + 1)

theorem emptySession_resting (persistence : Option (PersistenceStore ℕ)) :
    Resting newSequence (emptySession persistence) where
  calls := rfl
  permits := Nat.one_pos
  consistent := ⟨by simp [emptySession], by simp [emptySession]⟩
  issued := by simp [emptySession]

/-- The second call reads its id after the first torrent is stored. -/
def addInTurn : List (AddEvent ℕ) :=
  [.call 1, .call 2, .nextId 0, .acquire 0, .check 0 false, .store 0 false, .nextId 1,
    .finish 0 false, .acquire 1, .check 1 false, .store 1 false, .finish 1 false]

/-- Both calls read their id before a torrent is stored. -/
def addTogether : List (AddEvent ℕ) :=
  [.call 1, .call 2, .nextId 0, .nextId 1, .acquire 0, .check 0 false, .store 0 false,
    .finish 0 false, .acquire 1, .check 1 false]

/-- In turn with the JSON store, and together with the sequence. -/
theorem twoAdds_correct :
    (∃ t, Run (step newSequence) Serial (emptySession (some (.json []))) addInTurn t ∧
      t.calls = [⟨1, .returned (.ok (.added 0 ⟨0, 1⟩))⟩, ⟨2, .returned (.ok (.added 1 ⟨1, 2⟩))⟩] ∧
      AddsCorrect (emptySession (some (.json []))) t) ∧
    ∃ t, Run (step newSequence) Serial (emptySession (some (.postgres 0 [])))
        (addTogether ++ [.store 1 false, .finish 1 false]) t ∧
      t.calls = [⟨1, .returned (.ok (.added 1 ⟨1, 1⟩))⟩, ⟨2, .returned (.ok (.added 2 ⟨2, 2⟩))⟩] ∧
      AddsCorrect (emptySession (some (.postgres 0 []))) t := by
  have hseq (m n id : ℕ) (hm : newSequence m = some id) (hn : newSequence n = some id) : m = n := by
    simp only [newSequence, Option.some.injEq] at hm hn
    omega
  have hturn : ∃ t, Run (step newSequence) Serial (emptySession (some (.json []))) addInTurn t ∧
      decide (t.calls = [⟨1, .returned (.ok (.added 0 ⟨0, 1⟩))⟩,
        ⟨2, .returned (.ok (.added 1 ⟨1, 2⟩))⟩]) = true := Run.exists_of_exec (by decide)
  have htogether : ∃ t, Run (step newSequence) Serial (emptySession (some (.postgres 0 [])))
        (addTogether ++ [.store 1 false, .finish 1 false]) t ∧
      decide (t.calls = [⟨1, .returned (.ok (.added 1 ⟨1, 1⟩))⟩,
        ⟨2, .returned (.ok (.added 2 ⟨2, 2⟩))⟩]) = true := Run.exists_of_exec (by decide)
  obtain ⟨t, hr, ht⟩ := hturn
  obtain ⟨u, hr', hu⟩ := htogether
  refine ⟨⟨t, hr, of_decide_eq_true ht, ?_⟩, ⟨u, hr', of_decide_eq_true hu, ?_⟩⟩
  · exact (concurrent_adds_correct _ hseq _ _ (emptySession_resting _) _ hr).1
  · exact (concurrent_adds_correct _ hseq _ _ (emptySession_resting _) _ hr').1

/-- With the JSON store the second call is told that its torrent is managed, and gets the torrent
of the first. -/
theorem jsonAdds_share_id :
    ∃ t, Run (step newSequence) Any (emptySession (some (.json []))) addTogether t ∧
      t.calls = [⟨1, .returned (.ok (.added 0 ⟨0, 1⟩))⟩,
        ⟨2, .returned (.ok (.alreadyManaged 0 ⟨0, 1⟩))⟩] ∧
      Resting newSequence (emptySession (some (.json []))) ∧
      ¬ AddsCorrect (emptySession (some (.json []))) t := by
  have hrun : ∃ t, Run (step newSequence) Any (emptySession (some (.json []))) addTogether t ∧
      decide (t.calls = [⟨1, .returned (.ok (.added 0 ⟨0, 1⟩))⟩,
        ⟨2, .returned (.ok (.alreadyManaged 0 ⟨0, 1⟩))⟩]) = true := Run.exists_of_exec (by decide)
  obtain ⟨t, hr, ht⟩ := hrun
  have ht := of_decide_eq_true ht
  refine ⟨t, hr, ht, emptySession_resting _, fun hc => ?_⟩
  have hhash := hc.alreadyManaged 1 ⟨2, .returned (.ok (.alreadyManaged 0 ⟨0, 1⟩))⟩ 0 ⟨0, 1⟩
    (by rw [ht]; rfl) rfl
  cases hhash

end AddSession

end Rtbit
