import Rtbit.Sanity.SessionCalls

/-! The JSON store against the session it belongs to. `update_db` inserts what it has read before
it waited for the lock, whatever has happened to the torrent since, and the `delete` of the store
removes whatever has the id by then. -/

namespace Rtbit

open Lib

namespace SessionPersistence

variable {H : Type}

namespace Call

section

variable [DecidableEq H]

/-- The call will still insert what `update_db` of torrent `j` would read now. -/
def updates (j : ℕ) (o : Option (ManagedTorrent H)) : Call H → Bool
  | .updating j' _ => j' = j
  | .reading j' onlyFiles _ => j' = j && o.map (·.onlyFiles) = some onlyFiles
  | .writing j' st _ => j' = j && o.map snapshot = some st
  | _ => false

/-- The same, and it has not read `is_paused` yet. -/
def reads (j : ℕ) (o : Option (ManagedTorrent H)) : Call H → Bool
  | .updating j' _ => j' = j
  | .reading j' onlyFiles _ => j' = j && o.map (·.onlyFiles) = some onlyFiles
  | _ => false

end

/-- The call has removed the id from the session and will still remove it from the store. -/
def deletes (id : ℕ) : Call H → Bool
  | .removed id' _ => id' = id
  | .forgetting id' => id' = id
  | _ => false

/-- The call has changed the map of the store and will still flush it. -/
def flushes : Call H → Bool
  | .flushing _ _ | .forgot _ => true
  | _ => false

/-- An add is about to store torrent `j`. -/
def stores (j : ℕ) : Call H → Bool
  | .updating j' (.store _) => j' = j
  | _ => false

/-- None of these. -/
def quiet : Call H → Bool
  | .updating _ _ | .reading _ _ _ | .writing _ _ _ | .flushing _ _ | .removed _ _
  | .forgetting _ | .forgot _ => false
  | _ => true

end Call

namespace Session

variable [DecidableEq H]

/-- What is inserted is what `update_db` would read now, or another call will still insert that;
or the torrent is not managed any more and its delete will still remove the entry. -/
def insertOk (s : Session H) (k j : ℕ) (t : ManagedTorrent H) (st : SerializedTorrent H) : Bool :=
  match s.torrents t.id with
  | some j' => (j' = j && st = snapshot t) || (s.calls.eraseIdx k).any (·.updates j' s.objects[j']?)
  | none => s.calls.any (·.deletes t.id)

/-- The id is not managed, or the call that stores its new torrent still has to insert it. -/
def forgetOk (s : Session H) (id : ℕ) : Bool :=
  match s.torrents id with
  | some j => s.calls.any (·.updates j s.objects[j]?)
  | none => true

/-- `start` leaves the paused flag of a managed torrent as it is, or a call will still read it. -/
def startOk (s : Session H) (j : ℕ) (t : ManagedTorrent H) (paused : Bool) : Bool :=
  s.torrents t.id != some j || t.paused == paused || s.calls.any (·.reads j (some t))

/-- A flush whose error is only logged does not fail, or another one is still to come. -/
def flushOk (s : Session H) (k : ℕ) : Call H → Bool
  | .flushing _ (.store _) => true
  | .flushing _ .updateMetadata | .forgot _ => (s.calls.eraseIdx k).any (·.flushes)
  | _ => true

/-- The step does not leave the store behind the session for good. -/
def keepsUp (s : Session H) : Event H → Bool
  | .insert k =>
    match s.calls[k]? with
    | some (.writing j st _) => (s.objects[j]?).all (s.insertOk k j · st)
    | _ => true
  | .forget k =>
    match s.calls[k]? with
    | some (.forgetting id) => s.forgetOk id
    | _ => true
  | .start k _ =>
    match s.calls[k]? with
    | some (.starting j paused) => (s.objects[j]?).all (s.startOk j · paused)
    | _ => true
  | .flush k fails => !fails || (s.calls[k]?).all (s.flushOk k)
  | _ => true

def KeepsUp (s : Session H) (e : Event H) : Prop := s.keepsUp e = true

instance (s : Session H) (e : Event H) : Decidable (s.KeepsUp e) :=
  inferInstanceAs (Decidable (s.keepsUp e = true))

/-- What is managed and what is stored, while no call has failed. -/
structure Synced (s : Session H) : Prop where
  managed : ∀ id j, s.torrents id = some j → ∃ t, s.objects[j]? = some t ∧ t.id = id ∧
    (s.store.dbContent.lookup id = some (snapshot t) ∨ ∃ c ∈ s.calls, c.updates j (some t))
  supported : ∀ id j t, s.torrents id = some j → s.objects[j]? = some t → t.filesystem = false →
    ∃ c ∈ s.calls, c.stores j
  unmanaged : ∀ id, s.torrents id = none →
    s.store.dbContent.lookup id = none ∨ ∃ c ∈ s.calls, c.deletes id
  written : s.store.file = s.store.dbContent ∨ ∃ c ∈ s.calls, c.flushes
  /-- The torrent of a delete is not managed again. -/
  gone : ∀ id j, Call.removed id j ∈ s.calls → j < s.objects.length ∧ ∀ id', s.torrents id' ≠ some j

variable {s s' : Session H} {k j : ℕ} {c c' : Call H} {t : ManagedTorrent H}

theorem Synced.object_eq (h : s.Synced) {id : ℕ} (hj : s.torrents id = some j)
    (ht : s.objects[j]? = some t) : t.id = id := by
  obtain ⟨t', ht', hid, -⟩ := h.managed id j hj
  obtain rfl := Option.some.inj (ht.symm.trans ht')
  exact hid

/-- One call goes on: what it had to do is done, or it still has to do it. -/
theorem Synced.setCall (h : s.Synced) (hk : s.calls[k]? = some c)
    (hup : ∀ id j t, s.torrents id = some j → s.objects[j]? = some t →
      c.updates j (some t) = true → s.store.dbContent.lookup id = some (snapshot t) ∨
        ∃ x ∈ s.calls.set k c', x.updates j (some t) = true)
    (hst : ∀ id j t, s.torrents id = some j → s.objects[j]? = some t → t.filesystem = false →
      c.stores j = true → c'.stores j = true)
    (hdel : ∀ id, c.deletes id = true → c'.deletes id = true)
    (hfl : c.flushes = true → c'.flushes = true)
    (hgone : ∀ id j, c' ≠ .removed id j) : (s.setCall k c').Synced where
  managed id j hj := by
    obtain ⟨t, ht, hid, hor⟩ := h.managed id j hj
    refine ⟨t, ht, hid, ?_⟩
    rcases hor with hl | ⟨x, hx, hxu⟩
    · exact Or.inl hl
    · by_cases hcu : c.updates j (some t) = true
      · exact hup id j t hj ht hcu
      · exact Or.inr (exists_mem_set hk (fun hc => absurd hc hcu) ⟨x, hx, hxu⟩)
  supported id j t hj ht hf :=
    exists_mem_set hk (hst id j t hj ht hf) (h.supported id j t hj ht hf)
  unmanaged id hn := (h.unmanaged id hn).imp_right (exists_mem_set hk (hdel id))
  written := h.written.imp_right (exists_mem_set hk hfl)
  gone id j hm := by
    rcases List.mem_or_eq_of_mem_set hm with hm | he
    · exact h.gone id j hm
    · exact absurd he.symm (hgone id j)

theorem quiet_eq_false (hq : c.quiet = true) (j id : ℕ) (o : Option (ManagedTorrent H)) :
    c.updates j o = false ∧ c.stores j = false ∧ c.deletes id = false ∧ c.flushes = false := by
  cases c <;> first | exact ⟨rfl, rfl, rfl, rfl⟩ | cases hq

theorem not_updates_of_quiet (hq : c.quiet = true) {j : ℕ} {o : Option (ManagedTorrent H)} :
    ¬c.updates j o = true := by
  rw [(quiet_eq_false hq j 0 o).1]
  exact Bool.false_ne_true

theorem not_stores_of_quiet (hq : c.quiet = true) {j : ℕ} : ¬c.stores j = true := by
  rw [(quiet_eq_false hq j 0 none).2.1]
  exact Bool.false_ne_true

theorem not_deletes_of_quiet (hq : c.quiet = true) {id : ℕ} : ¬c.deletes id = true := by
  rw [(quiet_eq_false hq 0 id none).2.2.1]
  exact Bool.false_ne_true

theorem not_flushes_of_quiet (hq : c.quiet = true) : ¬c.flushes = true := by
  rw [(quiet_eq_false hq 0 0 none).2.2.2]
  exact Bool.false_ne_true

theorem Synced.setCall_quiet (h : s.Synced) (hk : s.calls[k]? = some c) (hq : c.quiet = true)
    (hgone : ∀ id j, c' ≠ .removed id j) : (s.setCall k c').Synced := by
  refine h.setCall hk ?_ ?_ ?_ ?_ hgone
  · exact fun id j t _ _ hc => absurd hc (not_updates_of_quiet hq)
  · exact fun id j t _ _ _ hc => absurd hc (not_stores_of_quiet hq)
  · exact fun id hc => absurd hc (not_deletes_of_quiet hq)
  · exact fun hc => absurd hc (not_flushes_of_quiet hq)

theorem Synced.call (h : s.Synced) (hn : c.isNew = true) :
    Synced { s with calls := s.calls ++ [c] } where
  managed id j hj := by
    obtain ⟨t, ht, hid, hor⟩ := h.managed id j hj
    exact ⟨t, ht, hid, hor.imp_right fun ⟨x, hx, hxu⟩ => ⟨x, List.mem_append_left _ hx, hxu⟩⟩
  supported id j t hj ht hf := by
    obtain ⟨x, hx, hxs⟩ := h.supported id j t hj ht hf
    exact ⟨x, List.mem_append_left _ hx, hxs⟩
  unmanaged id hn :=
    (h.unmanaged id hn).imp_right fun ⟨x, hx, hxd⟩ => ⟨x, List.mem_append_left _ hx, hxd⟩
  written := h.written.imp_right fun ⟨x, hx, hxf⟩ => ⟨x, List.mem_append_left _ hx, hxf⟩
  gone id j hm := by
    rcases List.mem_append.1 hm with hm | hm
    · exact h.gone id j hm
    · rw [← List.mem_singleton.1 hm] at hn
      cases hn

/-- A torrent that the call works on has changed: it is not managed, or the call or another one
will still insert it as it is now. -/
theorem Synced.setObject (h : s.Synced) (hk : s.calls[k]? = some c) {t' : ManagedTorrent H}
    (ht : s.objects[j]? = some t) (hid : t'.id = t.id) (hfs : t'.filesystem = t.filesystem)
    (hup : ∀ i o, c.updates i o = false) (hst : ∀ i, c.stores i = false) (hfl : c.flushes = false)
    (hnow : ∀ id, s.torrents id = some j → ∃ x ∈ s.calls.set k c', x.updates j (some t') = true)
    (hdel : ∀ id, c.deletes id = true → c'.deletes id = true)
    (hgone : ∀ id i, c' ≠ .removed id i) : ((s.setObject j t').setCall k c').Synced where
  managed id i hi := by
    obtain ⟨u, hu, hu', hor⟩ := h.managed id i hi
    by_cases hij : i = j
    · subst hij
      obtain rfl := Option.some.inj (ht.symm.trans hu)
      refine ⟨t', ?_, hid.trans hu', Or.inr (hnow id hi)⟩
      exact List.getElem?_set_self (List.getElem?_eq_some_iff.1 ht).1
    · refine ⟨u, ?_, hu', hor.imp_right (exists_mem_set hk fun hc => ?_)⟩
      · exact (List.getElem?_set_ne (Ne.symm hij)).trans hu
      · rw [hup] at hc
        cases hc
  supported id i u hi hu hf := by
    have hfalse : ∀ i, c.stores i = true → c'.stores i = true := by
      intro i hc
      rw [hst] at hc
      cases hc
    obtain ⟨hij, rfl⟩ | ⟨-, hu⟩ := get_set hu
    · subst hij
      exact exists_mem_set hk (hfalse i) (h.supported id i t hi ht (hfs ▸ hf))
    · exact exists_mem_set hk (hfalse i) (h.supported id i u hi hu hf)
  unmanaged id hn := (h.unmanaged id hn).imp_right (exists_mem_set hk (hdel id))
  written := by
    refine h.written.imp_right (exists_mem_set hk fun hc => ?_)
    rw [hfl] at hc
    cases hc
  gone id i hm := by
    rcases List.mem_or_eq_of_mem_set hm with hm | he
    · obtain ⟨hlt, hno⟩ := h.gone id i hm
      exact ⟨by simpa [Session.setCall, Session.setObject] using hlt, hno⟩
    · exact absurd he.symm (hgone id i)

/-- A torrent is added; its call is about to store it. -/
theorem Synced.addTorrent (h : s.Synced) (hk : s.calls[k]? = some c) (hq : c.quiet = true)
    (t : ManagedTorrent H) (paused : Bool) :
    ((s.addTorrent t).setCall k (.updating s.objects.length (.store paused))).Synced where
  managed id j hj := by
    have hj : Function.update s.torrents t.id (some s.objects.length) id = some j := hj
    have hnew : Call.updating s.objects.length (.store paused) ∈
        s.calls.set k (.updating s.objects.length (.store paused)) :=
      List.mem_set (List.getElem?_eq_some_iff.1 hk).1 _
    by_cases hid : id = t.id
    · subst hid
      rw [Function.update_self] at hj
      obtain rfl := Option.some.inj hj
      refine ⟨t, List.getElem?_concat_length, rfl, Or.inr ⟨_, hnew, ?_⟩⟩
      simp [Call.updates]
    · rw [Function.update_of_ne hid] at hj
      obtain ⟨u, hu, hu', hor⟩ := h.managed id j hj
      refine ⟨u, ?_, hu', hor.imp_right (exists_mem_set hk fun hc => ?_)⟩
      · exact (List.getElem?_append_left (List.getElem?_eq_some_iff.1 hu).1).trans hu
      · exact absurd hc (not_updates_of_quiet hq)
  supported id j u hj hu hf := by
    have hj : Function.update s.torrents t.id (some s.objects.length) id = some j := hj
    by_cases hid : id = t.id
    · subst hid
      rw [Function.update_self] at hj
      obtain rfl := Option.some.inj hj
      exact ⟨_, List.mem_set (List.getElem?_eq_some_iff.1 hk).1 _, by simp [Call.stores]⟩
    · rw [Function.update_of_ne hid] at hj
      obtain ⟨v, hv, -⟩ := h.managed id j hj
      have hu : (s.objects ++ [t])[j]? = some u := hu
      rw [List.getElem?_append_left (List.getElem?_eq_some_iff.1 hv).1] at hu
      refine exists_mem_set hk (fun hc => ?_) (h.supported id j u hj hu hf)
      exact absurd hc (not_stores_of_quiet hq)
  unmanaged id hu := by
    have hu : Function.update s.torrents t.id (some s.objects.length) id = none := hu
    by_cases hid : id = t.id
    · subst hid
      rw [Function.update_self] at hu
      cases hu
    · rw [Function.update_of_ne hid] at hu
      refine (h.unmanaged id hu).imp_right (exists_mem_set hk fun hc => ?_)
      exact absurd hc (not_deletes_of_quiet hq)
  written := by
    refine h.written.imp_right (exists_mem_set hk fun hc => ?_)
    exact absurd hc (not_flushes_of_quiet hq)
  gone id j hm := by
    rcases List.mem_or_eq_of_mem_set hm with hm | he
    · obtain ⟨hlt, hno⟩ := h.gone id j hm
      refine ⟨?_, fun id' hj => ?_⟩
      · exact hlt.trans_le (by simp [Session.addTorrent, Session.setCall])
      · have hj : Function.update s.torrents t.id (some s.objects.length) id' = some j := hj
        by_cases hid : id' = t.id
        · subst hid
          rw [Function.update_self] at hj
          exact hlt.ne (Option.some.inj hj).symm
        · rw [Function.update_of_ne hid] at hj
          exact hno id' hj
    · cases he

theorem Synced.readOnlyFiles (h : s.Synced) {who : Updater}
    (hk : s.calls[k]? = some (.updating j who)) (ht : s.objects[j]? = some t) :
    (s.readOnlyFiles k j t who).Failed ∨ (s.readOnlyFiles k j t who).Synced := by
  unfold Session.readOnlyFiles
  split_ifs with hf
  · right
    refine h.setCall hk ?_ ?_ (fun _ hc => by cases hc) (fun hc => by cases hc) nofun
    · intro id i u _ hu hc
      have hij : j = i := by simpa [Call.updates] using hc
      subst hij
      obtain rfl := Option.some.inj (ht.symm.trans hu)
      refine Or.inr ⟨_, List.mem_set (List.getElem?_eq_some_iff.1 hk).1 _, ?_⟩
      simp [Call.updates]
    · intro id i u _ hu hfalse hc
      have hij : j = i := by
        cases who with
        | store paused => simpa [Call.stores] using hc
        | updateMetadata => cases hc
      subst hij
      obtain rfl := Option.some.inj (ht.symm.trans hu)
      rw [hf] at hfalse
      cases hfalse
  · cases who with
    | store paused =>
      exact Or.inl (List.mem_set (List.getElem?_eq_some_iff.1 hk).1 _)
    | updateMetadata =>
      right
      -- the add of a torrent with another storage is still to fail
      refine h.setCall hk ?_ (fun _ _ _ _ _ _ hc => by cases hc) (fun _ hc => by cases hc)
        (fun hc => by cases hc) nofun
      intro id i u hi hu hc
      have hij : j = i := by simpa [Call.updates] using hc
      subst hij
      obtain rfl := Option.some.inj (ht.symm.trans hu)
      obtain ⟨x, hx, hxs⟩ := exists_mem_set hk (fun hc => by cases hc)
        (h.supported id j t hi ht (by simpa using hf)) (b := .returned true)
      refine Or.inr ⟨x, hx, ?_⟩
      cases x with
      | updating i who =>
        cases who with
        | store paused => exact hxs
        | updateMetadata => cases hxs
      | _ => cases hxs

theorem Synced.readIsPaused (h : s.Synced) {who : Updater} {onlyFiles : Option (List ℕ)}
    (hk : s.calls[k]? = some (.reading j onlyFiles who)) (ht : s.objects[j]? = some t) :
    (s.setCall k (.writing j { snapshot t with onlyFiles } who)).Synced := by
  refine h.setCall hk ?_ (fun _ _ _ _ _ _ hc => by cases hc) (fun _ hc => by cases hc)
    (fun hc => by cases hc) nofun
  intro id i u _ hu hc
  simp only [Call.updates, Option.map_some, Option.some.injEq, Bool.and_eq_true,
    decide_eq_true_eq] at hc
  obtain ⟨rfl, rfl⟩ := hc
  obtain rfl := Option.some.inj (ht.symm.trans hu)
  refine Or.inr ⟨_, List.mem_set (List.getElem?_eq_some_iff.1 hk).1 _, ?_⟩
  simp [Call.updates, snapshot]

/-- The entry of one id changes; for the other ids the pending updates are as they were. -/
theorem Synced.insert (h : s.Synced) {who : Updater} {st : SerializedTorrent H}
    (hk : s.calls[k]? = some (.writing j st who)) (ht : s.objects[j]? = some t)
    (hok : s.insertOk k j t st = true) : (s.insert k j t st who).Synced := by
  have hlook : ∀ id, (s.insert k j t st who).store.dbContent.lookup id =
      if id = t.id then some st else s.store.dbContent.lookup id := by
    intro id
    have hdb : (s.insert k j t st who).store.dbContent = s.store.dbContent.insert t.id st := by
      cases who with
      | updateMetadata => rfl
      | store paused =>
        simp only [Session.insert, JsonStore.insert, JsonStore.writeTorrentFile]
        split_ifs <;> rfl
    rw [hdb]
    split_ifs with hid
    · rw [hid, Finmap.lookup_insert]
    · rw [Finmap.lookup_insert_of_ne _ hid]
  constructor
  case managed =>
    intro id i hi
    obtain ⟨u, hu, hu', hor⟩ := h.managed id i hi
    refine ⟨u, hu, hu', ?_⟩
    rw [hlook]
    split_ifs with hid
    · subst hid
      have hi : s.torrents t.id = some i := hi
      simp only [insertOk, hi, Bool.or_eq_true, Bool.and_eq_true, decide_eq_true_eq] at hok
      rcases hok with ⟨rfl, rfl⟩ | hany
      · obtain rfl := Option.some.inj (ht.symm.trans hu)
        exact Or.inl rfl
      · obtain ⟨x, hx, hxu⟩ := List.any_eq_true.1 hany
        rw [hu] at hxu
        exact Or.inr ⟨x, mem_set_of_mem_eraseIdx hx, hxu⟩
    · refine hor.imp_right (exists_mem_set hk fun hc => ?_)
      have hij : j = i := by
        simp only [Call.updates, Bool.and_eq_true, decide_eq_true_eq] at hc
        exact hc.1
      subst hij
      obtain rfl := Option.some.inj (ht.symm.trans hu)
      exact absurd hu'.symm hid
  case supported =>
    intro id i u hi hu hf
    exact exists_mem_set hk (fun hc => by cases hc) (h.supported id i u hi hu hf)
  case unmanaged =>
    intro id hn
    rw [hlook]
    split_ifs with hid
    · subst hid
      have hn : s.torrents t.id = none := hn
      simp only [insertOk, hn] at hok
      obtain ⟨x, hx, hxd⟩ := List.any_eq_true.1 hok
      exact Or.inr (exists_mem_set hk (fun hc => by cases hc) ⟨x, hx, hxd⟩)
    · exact (h.unmanaged id hn).imp_right (exists_mem_set hk fun hc => by cases hc)
  case written => exact Or.inr ⟨_, List.mem_set (List.getElem?_eq_some_iff.1 hk).1 _, rfl⟩
  case gone =>
    intro id i hm
    rcases List.mem_or_eq_of_mem_set hm with hm | he
    · exact h.gone id i hm
    · cases he

/-- The file is as the map, or a flush is still to come. -/
theorem Synced.setStore (h : s.Synced) {store : JsonStore H}
    (hdb : store.dbContent = s.store.dbContent)
    (hw : store.file = store.dbContent ∨ ∃ c ∈ s.calls, c.flushes = true) :
    Synced { s with store } where
  managed id j hj := by
    change ∃ t, s.objects[j]? = some t ∧ t.id = id ∧
      (store.dbContent.lookup id = some (snapshot t) ∨ ∃ c ∈ s.calls, c.updates j (some t))
    rw [hdb]
    exact h.managed id j hj
  supported := h.supported
  unmanaged id hn := by
    change store.dbContent.lookup id = none ∨ ∃ c ∈ s.calls, c.deletes id
    rw [hdb]
    exact h.unmanaged id hn
  written := hw
  gone := h.gone

/-- A call that has written its change, and others that may still have to. -/
theorem Synced.setCall_flushed (h : s.Synced) (hk : s.calls[k]? = some c) (hc : c.flushes = true)
    (hw : s.store.file = s.store.dbContent ∨ ∃ x ∈ s.calls.eraseIdx k, x.flushes = true)
    (hgone : ∀ id j, c' ≠ .removed id j) : (s.setCall k c').Synced where
  managed id j hj := by
    obtain ⟨t, ht, hid, hor⟩ := h.managed id j hj
    refine ⟨t, ht, hid, hor.imp_right (exists_mem_set hk fun hu => ?_)⟩
    cases c <;> first | cases hu | cases hc
  supported id j t hj ht hf := by
    refine exists_mem_set hk (fun hu => ?_) (h.supported id j t hj ht hf)
    cases c <;> first | cases hu | cases hc
  unmanaged id hn := by
    refine (h.unmanaged id hn).imp_right (exists_mem_set hk fun hu => ?_)
    cases c <;> first | cases hu | cases hc
  written := hw.imp_right fun ⟨x, hx, hxf⟩ => ⟨x, mem_set_of_mem_eraseIdx hx, hxf⟩
  gone id j hm := by
    rcases List.mem_or_eq_of_mem_set hm with hm | he
    · exact h.gone id j hm
    · exact absurd he.symm (hgone id j)

theorem Synced.flush (h : s.Synced) {fails : Bool}
    (hok : (!fails || (s.calls[k]?).all (s.flushOk k)) = true)
    (hs : s.flush k fails = some s') : s'.Failed ∨ s'.Synced := by
  unfold Session.flush at hs
  split at hs
  · rename_i j who hk
    obtain ⟨t, ht, rfl⟩ := Option.map_eq_some_iff.1 hs
    cases fails with
    | false =>
      right
      have hst : Synced { s with store := { s.store with file := s.store.dbContent } } :=
        h.setStore rfl (Or.inl rfl)
      cases who with
      | store paused => exact hst.setCall_flushed hk rfl (Or.inl rfl) nofun
      | updateMetadata => exact hst.setCall_flushed hk rfl (Or.inl rfl) nofun
    | true =>
      cases who with
      | store paused => exact Or.inl (List.mem_set (List.getElem?_eq_some_iff.1 hk).1 _)
      | updateMetadata =>
        have hother : (s.calls[k]?).all (s.flushOk k) = true := hok
        rw [hk] at hother
        exact Or.inr (h.setCall_flushed hk rfl (Or.inr (List.any_eq_true.1 hother)) nofun)
  · rename_i infoHash hk
    right
    cases fails with
    | false =>
      obtain rfl := Option.some.inj hs
      have hst : Synced { s with store :=
          { s.store with
            file := s.store.dbContent
            torrentFiles := Function.update s.store.torrentFiles infoHash none } } :=
        h.setStore rfl (Or.inl rfl)
      exact hst.setCall_flushed hk rfl (Or.inl rfl) nofun
    | true =>
      obtain rfl := Option.some.inj hs
      have hother : (s.calls[k]?).all (s.flushOk k) = true := hok
      rw [hk] at hother
      exact h.setCall_flushed hk rfl (Or.inr (List.any_eq_true.1 hother)) nofun
  · cases hs

/-- A delete has taken the torrent out of the session and will take it out of the store. -/
theorem Synced.remove (h : s.Synced) {id : ℕ} (hk : s.calls[k]? = some (.removing id)) :
    (s.remove k id).Failed ∨ (s.remove k id).Synced := by
  unfold Session.remove
  cases hj : s.torrents id with
  | none => exact Or.inl (List.mem_set (List.getElem?_eq_some_iff.1 hk).1 _)
  | some j =>
    right
    have hmem : Call.removed id j ∈ s.calls.set k (.removed id j) :=
      List.mem_set (List.getElem?_eq_some_iff.1 hk).1 _
    have htor : ∀ {i x}, Function.update s.torrents id none i = some x →
        i ≠ id ∧ s.torrents i = some x := by
      intro i x hi
      by_cases hid : i = id
      · rw [hid, Function.update_self] at hi
        cases hi
      · rw [Function.update_of_ne hid] at hi
        exact ⟨hid, hi⟩
    constructor
    case managed =>
      intro i x hi
      obtain ⟨t, ht, hid, hor⟩ := h.managed i x (htor hi).2
      exact ⟨t, ht, hid, hor.imp_right (exists_mem_set hk fun hc => by cases hc)⟩
    case supported =>
      intro i x t hi ht hf
      exact exists_mem_set hk (fun hc => by cases hc) (h.supported i x t (htor hi).2 ht hf)
    case unmanaged =>
      intro i hn
      by_cases hid : i = id
      · subst hid
        exact Or.inr ⟨_, hmem, by simp [Call.deletes]⟩
      · have hn : Function.update s.torrents id none i = none := hn
        rw [Function.update_of_ne hid] at hn
        exact (h.unmanaged i hn).imp_right (exists_mem_set hk fun hc => by cases hc)
    case written => exact h.written.imp_right (exists_mem_set hk fun hc => by cases hc)
    case gone =>
      intro i x hm
      have hlt : ∀ {i x}, s.torrents i = some x → x < s.objects.length := by
        intro i x hx
        obtain ⟨t, ht, -⟩ := h.managed i x hx
        exact (List.getElem?_eq_some_iff.1 ht).1
      rcases List.mem_or_eq_of_mem_set hm with hm | he
      · obtain ⟨hlen, hno⟩ := h.gone i x hm
        exact ⟨hlen, fun i' hi' => hno i' (htor hi').2⟩
      · cases he
        refine ⟨hlt hj, fun i' hi' => ?_⟩
        obtain ⟨hne, hi'⟩ := htor hi'
        -- one torrent is not managed under two ids
        obtain ⟨t, ht, hid, -⟩ := h.managed id j hj
        obtain ⟨t', ht', hid', -⟩ := h.managed i' j hi'
        obtain rfl := Option.some.inj (ht.symm.trans ht')
        exact hne (hid'.symm.trans hid)

theorem Synced.forget (h : s.Synced) {id : ℕ} (hk : s.calls[k]? = some (.forgetting id))
    (hok : s.forgetOk id = true) : (s.forget k id).Synced := by
  unfold Session.forget
  cases hl : s.store.dbContent.lookup id with
  | none =>
    constructor
    case managed =>
      intro i x hi
      obtain ⟨t, ht, hid, hor⟩ := h.managed i x hi
      exact ⟨t, ht, hid, hor.imp_right (exists_mem_set hk fun hc => by cases hc)⟩
    case supported =>
      intro i x t hi ht hf
      exact exists_mem_set hk (fun hc => by cases hc) (h.supported i x t hi ht hf)
    case unmanaged =>
      intro i hn
      by_cases hid : i = id
      · subst hid
        exact Or.inl hl
      · refine (h.unmanaged i hn).imp_right (exists_mem_set hk fun hc => ?_)
        exact absurd (by simpa [Call.deletes] using hc) (Ne.symm hid)
    case written => exact h.written.imp_right (exists_mem_set hk fun hc => by cases hc)
    case gone =>
      intro i x hm
      rcases List.mem_or_eq_of_mem_set hm with hm | he
      · exact h.gone i x hm
      · cases he
  | some st =>
    constructor
    case managed =>
      intro i x hi
      obtain ⟨t, ht, hid, hor⟩ := h.managed i x hi
      refine ⟨t, ht, hid, ?_⟩
      by_cases hne : i = id
      · subst hne
        have hi : s.torrents i = some x := hi
        simp only [forgetOk, hi, ht] at hok
        obtain ⟨y, hy, hyu⟩ := List.any_eq_true.1 hok
        exact Or.inr (exists_mem_set hk (fun hc => by cases hc) ⟨y, hy, hyu⟩)
      · refine hor.imp (fun hl => ?_) (exists_mem_set hk fun hc => by cases hc)
        exact (Finmap.lookup_erase_ne hne).trans hl
    case supported =>
      intro i x t hi ht hf
      exact exists_mem_set hk (fun hc => by cases hc) (h.supported i x t hi ht hf)
    case unmanaged =>
      intro i hn
      by_cases hid : i = id
      · subst hid
        exact Or.inl (Finmap.lookup_erase _ _)
      · refine (h.unmanaged i hn).imp (fun hl => ?_) (exists_mem_set hk fun hc => ?_)
        · exact (Finmap.lookup_erase_ne hid).trans hl
        · exact absurd (by simpa [Call.deletes] using hc) (Ne.symm hid)
    case written => exact Or.inr ⟨_, List.mem_set (List.getElem?_eq_some_iff.1 hk).1 _, rfl⟩
    case gone =>
      intro i x hm
      rcases List.mem_or_eq_of_mem_set hm with hm | he
      · exact h.gone i x hm
      · cases he

theorem Synced.apply (h : s.Synced) {ok : Bool} (hs : s.apply k ok = some s') :
    s'.Failed ∨ s'.Synced := by
  -- the call that has changed the torrent is about to store it
  have hset : ∀ {j t t'} {c : Call H}, s.calls[k]? = some c → c.quiet = true →
      s.objects[j]? = some t → t'.id = t.id → t'.filesystem = t.filesystem →
      ((s.setObject j t').setCall k (.updating j .updateMetadata)).Synced := by
    intro j t t' c hk hq ht hid hfs
    have hno := quiet_eq_false hq
    refine h.setObject hk ht hid hfs (fun i o => (hno i 0 o).1) (fun i => (hno i 0 none).2.1)
      (hno 0 0 none).2.2.2 ?_ ?_ nofun
    · intro id _
      exact ⟨_, List.mem_set (List.getElem?_eq_some_iff.1 hk).1 _, by simp [Call.updates]⟩
    · intro id hc
      rw [(hno 0 id none).2.2.1] at hc
      cases hc
  unfold Session.apply at hs
  split at hs
  · rename_i j hk
    obtain ⟨t, ht, rfl⟩ := Option.map_eq_some_iff.1 hs
    split_ifs
    · exact Or.inr (hset hk rfl ht rfl rfl)
    · exact Or.inl (List.mem_set (List.getElem?_eq_some_iff.1 hk).1 _)
  · rename_i j hk
    obtain ⟨t, ht, rfl⟩ := Option.map_eq_some_iff.1 hs
    dsimp only
    split_ifs
    · exact Or.inr (hset hk rfl ht rfl rfl)
    · exact Or.inl (List.mem_set (List.getElem?_eq_some_iff.1 hk).1 _)
  · rename_i j onlyFiles hk
    obtain ⟨t, ht, rfl⟩ := Option.map_eq_some_iff.1 hs
    split_ifs
    · exact Or.inr (hset hk rfl ht rfl rfl)
    · exact Or.inl (List.mem_set (List.getElem?_eq_some_iff.1 hk).1 _)
  · cases hs

theorem updates_of_reads (hr : c.reads j (some t) = true) (paused : Bool) :
    c.updates j (some { t with paused }) = true := by
  cases c with
  | updating j' who => exact hr
  | reading j' onlyFiles who => exact hr
  | _ => cases hr

theorem Synced.start (h : s.Synced) {paused ok : Bool}
    (hk : s.calls[k]? = some (.starting j paused)) (ht : s.objects[j]? = some t)
    (hok : s.startOk j t paused = true) :
    ((s.setObject j { t with paused }).setCall k (.returned ok)).Synced := by
  simp only [startOk, Bool.or_eq_true, bne_iff_ne, beq_iff_eq] at hok
  by_cases hp : t.paused = paused
  · have hsame : s.setObject j { t with paused } = s := by
      rw [← hp]
      have hset : s.objects.set j t = s.objects := by
        obtain ⟨hlt, rfl⟩ := List.getElem?_eq_some_iff.1 ht
        exact List.set_getElem_self hlt
      simp only [Session.setObject, hset]
    rw [hsame]
    exact h.setCall_quiet hk rfl nofun
  · refine h.setObject hk ht rfl rfl (fun _ _ => rfl) (fun _ => rfl) rfl ?_
      (fun _ hc => by cases hc) nofun
    intro id hj
    have hid := h.object_eq hj ht
    subst hid
    rcases hok with (hne | heq) | hany
    · exact absurd hj hne
    · exact absurd heq hp
    · obtain ⟨x, hx, hxr⟩ := List.any_eq_true.1 hany
      exact exists_mem_set hk (fun hc => by cases hc) ⟨x, hx, updates_of_reads hxr paused⟩

theorem Synced.pauseRemoved (h : s.Synced) {id : ℕ} {paused : Bool}
    (hk : s.calls[k]? = some (.removed id j)) (ht : s.objects[j]? = some t) :
    ((s.setObject j { t with paused }).setCall k (.forgetting id)).Synced := by
  refine h.setObject hk ht rfl rfl (fun _ _ => rfl) (fun _ => rfl) rfl ?_ (fun _ hc => hc) nofun
  intro id' hj
  exact absurd hj ((h.gone id j (List.mem_of_getElem? hk)).2 id')

theorem Synced.step {e : Event H} (h : s.Synced) (hok : s.KeepsUp e) (hs : s.step e = some s') :
    s'.Failed ∨ s'.Synced := by
  cases e with
  | call c =>
    simp only [Session.step] at hs
    split_ifs at hs with hn
    obtain rfl := Option.some.inj hs
    exact Or.inr (h.call hn)
  | nextId k =>
    simp only [Session.step] at hs
    split at hs
    · rename_i t preferredId hk
      obtain rfl := Option.some.inj hs
      exact Or.inr (h.setCall_quiet hk rfl (by rintro _ _ ⟨⟩))
    · cases hs
  | check k storageFails =>
    simp only [Session.step] at hs
    split at hs
    · rename_i t hk
      obtain rfl := Option.some.inj hs
      unfold Session.check
      split_ifs
      · exact Or.inr (h.setCall_quiet hk rfl (by rintro _ _ ⟨⟩))
      · exact Or.inl (List.mem_set (List.getElem?_eq_some_iff.1 hk).1 _)
      · exact Or.inr (h.addTorrent hk rfl t t.paused)
    · cases hs
  | apply k ok => exact h.apply hs
  | readOnlyFiles k =>
    simp only [Session.step] at hs
    split at hs
    · rename_i j who hk
      obtain ⟨t, ht, rfl⟩ := Option.map_eq_some_iff.1 hs
      exact h.readOnlyFiles hk ht
    · cases hs
  | readIsPaused k =>
    simp only [Session.step] at hs
    split at hs
    · rename_i j onlyFiles who hk
      obtain ⟨t, ht, rfl⟩ := Option.map_eq_some_iff.1 hs
      exact Or.inr (h.readIsPaused hk ht)
    · cases hs
  | insert k =>
    simp only [Session.step] at hs
    split at hs
    · rename_i j st who hk
      obtain ⟨t, ht, rfl⟩ := Option.map_eq_some_iff.1 hs
      simp only [KeepsUp, keepsUp, hk, ht, Option.all_some] at hok
      exact Or.inr (h.insert hk ht hok)
    · cases hs
  | flush k fails => exact h.flush hok hs
  | start k ok =>
    simp only [Session.step] at hs
    split at hs
    · rename_i j paused hk
      obtain ⟨t, ht, rfl⟩ := Option.map_eq_some_iff.1 hs
      simp only [KeepsUp, keepsUp, hk, ht, Option.all_some] at hok
      exact Or.inr (h.start hk ht hok)
    · cases hs
  | lookup k =>
    simp only [Session.step] at hs
    split at hs
    · rename_i id hk
      obtain rfl := Option.some.inj hs
      right
      cases id with
      | id id => exact h.setCall_quiet hk rfl (by rintro _ _ ⟨⟩)
      | hash infoHash =>
        simp only [Session.lookup]
        split <;> exact h.setCall_quiet hk rfl (by rintro _ _ ⟨⟩)
    · cases hs
  | remove k =>
    simp only [Session.step] at hs
    split at hs
    · rename_i id hk
      obtain rfl := Option.some.inj hs
      exact h.remove hk
    · cases hs
  | pauseRemoved k ok =>
    simp only [Session.step] at hs
    split at hs
    · rename_i id j hk
      obtain ⟨t, ht, rfl⟩ := Option.map_eq_some_iff.1 hs
      exact Or.inr (h.pauseRemoved hk ht)
    · cases hs
  | forget k =>
    simp only [Session.step] at hs
    split at hs
    · rename_i id hk
      obtain rfl := Option.some.inj hs
      simp only [KeepsUp, keepsUp, hk] at hok
      exact Or.inr (h.forget hk hok)
    · cases hs

theorem new_synced : (new : Session H).Synced where
  managed id j hj := by cases hj
  supported id j t hj := by cases hj
  unmanaged id hn := Or.inl (Finmap.lookup_empty id)
  written := Or.inl rfl
  gone id j hm := by cases hm

/-- The ids of the store and of `session.json` are those of the session, and every entry has the
current values of its torrent. -/
structure Follows (s : Session H) : Prop where
  ids : ∀ id, id ∈ s.store.dbContent ↔ (s.torrents id).isSome
  file : s.store.file = s.store.dbContent
  values : ∀ id st, s.store.dbContent.lookup id = some st →
    ∃ j t, s.torrents id = some j ∧ s.objects[j]? = some t ∧ st.isPaused = t.paused ∧
      st.onlyFiles = t.onlyFiles

theorem Synced.follows (h : s.Synced) (hdone : ∀ c ∈ s.calls, c = .returned true) : s.Follows := by
  have hnone : ∀ P : Call H → Bool, P (.returned true) = false → ¬∃ c ∈ s.calls, P c = true := by
    rintro P hP ⟨c, hc, hPc⟩
    rw [hdone c hc, hP] at hPc
    cases hPc
  have hlook : ∀ {id j}, s.torrents id = some j → ∃ t, s.objects[j]? = some t ∧
      s.store.dbContent.lookup id = some (snapshot t) := by
    intro id j hj
    obtain ⟨t, ht, -, hor⟩ := h.managed id j hj
    exact ⟨t, ht, hor.resolve_right (hnone _ rfl)⟩
  have hempty : ∀ {id}, s.torrents id = none → s.store.dbContent.lookup id = none :=
    fun {id} hn => (h.unmanaged id hn).resolve_right (hnone _ rfl)
  refine ⟨?_, h.written.resolve_right (hnone _ rfl), ?_⟩
  · intro id
    rw [← Finmap.lookup_isSome]
    cases hj : s.torrents id with
    | none => rw [hempty hj]; rfl
    | some j =>
      obtain ⟨t, -, hl⟩ := hlook hj
      rw [hl]
      rfl
  · intro id st hl
    cases hj : s.torrents id with
    | none =>
      rw [hempty hj] at hl
      cases hl
    | some j =>
      obtain ⟨t, ht, hl'⟩ := hlook hj
      obtain rfl := Option.some.inj (hl'.symm.trans hl)
      exact ⟨j, t, rfl, ht, rfl, rfl⟩

/-- A torrent that is added paused. -/
def plainTorrent : ManagedTorrent ℕ where
  id := 0
  infoHash := 7
  trackers := ∅
  outputFolder := "out"
  category := none
  filesystem := true
  metadata := ⟨⟨[], [none, none]⟩, []⟩
  paused := true
  onlyFiles := none

/-- Call `k` stores and writes an entry. -/
def storeEntry (k : ℕ) : List (Event ℕ) :=
  [.readOnlyFiles k, .readIsPaused k, .insert k, .flush k false]

/-- Call 0 adds a torrent. -/
def addPlain : List (Event ℕ) :=
  [.call (.adding plainTorrent none), .nextId 0, .check 0 false] ++ storeEntry 0 ++ [.start 0 true]

/-- An unpause overlaps a change of the selection, whose flush fails. The entry of the change is
out of date when it is inserted, and the unpause will still insert its own and write it. -/
def overlapping : List (Event ℕ) :=
  addPlain ++
    [.call (.selecting 0 [1]), .call (.unpausing 0), .apply 1 true, .readOnlyFiles 1,
      .readIsPaused 1, .apply 2 true, .insert 1, .readOnlyFiles 2, .readIsPaused 2, .insert 2,
      .flush 1 true, .flush 2 false]

/-- A delete runs while a change of the selection waits for the lock of the store. -/
def resurrected : List (Event ℕ) :=
  addPlain ++
    [.call (.selecting 0 [1]), .apply 1 true, .readOnlyFiles 1, .readIsPaused 1,
      .call (.deleting (.id 0)), .lookup 2, .remove 2, .pauseRemoved 2 true, .forget 2,
      .flush 2 false, .insert 1, .flush 1 false]

/-- An unpause reads the torrent before a change of the selection, and inserts after it. -/
def olderWins : List (Event ℕ) :=
  addPlain ++
    [.call (.unpausing 0), .call (.selecting 0 [1]), .apply 1 true, .readOnlyFiles 1,
      .readIsPaused 1, .apply 2 true] ++ storeEntry 2 ++ [.insert 1, .flush 1 false]

end Session

end SessionPersistence

end Rtbit
