import Rtbit.Sanity.RssMonitor
import Rtbit.Lib.Runs

/-! An entry is passed to `add_torrent` exactly once as long as its row says what the feed has shown: no
row at the first poll of an entry that qualifies, and its row at every later one. A row of another feed
with the same id breaks the first, and a row that was pruned while the feed lists its entry the second. -/

namespace Rtbit

/-- The entry of a body with an id. -/
def listed (entries : List FeedEntry) (id : String) : Option FeedEntry :=
  entries.find? fun e => e.id = id

theorem listed_id {entries : List FeedEntry} {id : String} {entry : FeedEntry}
    (h : listed entries id = some entry) : entry.id = id := by
  simpa using List.find?_some h

theorem listed_isSome_iff {entries : List FeedEntry} {id : String} :
    (listed entries id).isSome ↔ id ∈ entries.map FeedEntry.id := by
  simp [listed, List.find?_isSome]

namespace RssMonitor

open RssDatabase

variable (regex : String → Option (String → Bool)) {s t : RssMonitor} {e : RssEvent}
  {feed : RssFeedConfig} {rules : List RssRule} {f id : String}

/-- How often `add_torrent` was called for an entry of a feed. -/
def calls (s : RssMonitor) (f id : String) : ℕ := s.added.countP fun a => a.feed = f ∧ a.id = id

/-- The first poll of a feed that lists an entry, and the entry as it was then. -/
def firstPoll (s : RssMonitor) (f id : String) : Option (Poll × FeedEntry) :=
  s.polls.findSome? fun p => if p.feed.name = f then (listed p.entries id).map (p, ·) else none

/-- Each entry that qualified at its first poll was passed to `add_torrent` exactly once. -/
def DownloadedOnce (s : RssMonitor) : Prop :=
  ∀ f id p entry, s.firstPoll f id = some (p, entry) → Qualifies regex p.feed p.rules entry →
    s.calls f id = 1

/-- The row of an entry that qualifies: none at its first poll, and one at every later poll. -/
def RowFits (s : RssMonitor) (feed : RssFeedConfig) (rules : List RssRule) (entry : FeedEntry) : Prop :=
  Qualifies regex feed rules entry →
    (s.firstPoll feed.name entry.id = none → rssItemExists s.items entry.id = false) ∧
    ∀ x ∈ s.firstPoll feed.name entry.id, Qualifies regex x.1.feed x.1.rules x.2 →
      rssItemExists s.items entry.id = true

instance (s : RssMonitor) (feed : RssFeedConfig) (rules : List RssRule) (entry : FeedEntry) :
    Decidable (s.RowFits regex feed rules entry) :=
  inferInstanceAs (Decidable (_ → _ ∧ _))

/-- Before a poll the row of each entry in it fits. -/
def RowsFit (s : RssMonitor) : RssEvent → Prop
  | .checkFeed rules (some fetched) =>
    ∀ feed ∈ s.round.bind List.head?, ∀ entry ∈ fetched.map Polled.entry,
      listed (fetched.map Polled.entry) entry.id = some entry → s.RowFits regex feed rules entry
  | _ => True

instance (s : RssMonitor) : (e : RssEvent) → Decidable (s.RowsFit regex e)
  | .checkFeed rules (some fetched) =>
    inferInstanceAs (Decidable (∀ feed ∈ s.round.bind List.head?, ∀ entry ∈ fetched.map Polled.entry,
      listed (fetched.map Polled.entry) entry.id = some entry → s.RowFits regex feed rules entry))
  | .checkFeed _ none => isTrue trivial
  | .feedList _ => isTrue trivial
  | .pruneItems => isTrue trivial

/-- An entry that `check_feed` passes to `add_torrent`. -/
def PassesOn (s : RssMonitor) (feed : RssFeedConfig) (rules : List RssRule) (entries : List FeedEntry)
    (f id : String) : Prop :=
  f = feed.name ∧ rssItemExists s.items id = false ∧
    ∃ entry, listed entries id = some entry ∧ Qualifies regex feed rules entry

theorem not_passesOn_of_exists (h : rssItemExists s.items id = true) (entries : List FeedEntry) :
    ¬ PassesOn regex s feed rules entries f id := fun hp => by simp [hp.2.1] at h

theorem passesOn_cons_self {entry : FeedEntry} {entries : List FeedEntry}
    (h : rssItemExists s.items entry.id = false) :
    PassesOn regex s feed rules (entry :: entries) f entry.id ↔
      f = feed.name ∧ Qualifies regex feed rules entry := by
  simp [PassesOn, listed, h]

theorem passesOn_cons_ne {entry : FeedEntry} {entries : List FeedEntry} (h : entry.id ≠ id) :
    PassesOn regex s feed rules (entry :: entries) f id ↔
      PassesOn regex s feed rules entries f id := by
  simp [PassesOn, listed, h]

theorem calls_of_append {a : Added} (h : t.added = s.added ++ [a]) :
    t.calls f id = s.calls f id + if a.feed = f ∧ a.id = id then 1 else 0 := by
  simp [calls, h, List.countP_append, List.countP_singleton]

theorem calls_of_eq (h : t.added = s.added) : t.calls f id = s.calls f id := by rw [calls, calls, h]

theorem exists_iff_of_keys {k : String × String} (h : t.items.map key = s.items.map key ++ [k])
    (id : String) :
    rssItemExists t.items id = true ↔ rssItemExists s.items id = true ∨ id = k.2 := by
  rw [rssItemExists_iff, rssItemExists_iff, ids_eq, ids_eq, h, List.map_append, List.mem_append]
  simp

/-- What the loop over the entries of a feed calls. -/
theorem foldl_checkEntry (feed : RssFeedConfig) (rules : List RssRule) (entries : List Polled)
    (f id : String) (s : RssMonitor) :
    let t := entries.foldl
      (checkEntry regex feed (feedFilter regex feed) (feedRules feed rules)) s
    t.polls = s.polls ∧
      ((PassesOn regex s feed rules (entries.map Polled.entry) f id ∧
          t.calls f id = s.calls f id + 1) ∨
        (¬ PassesOn regex s feed rules (entries.map Polled.entry) f id ∧
          t.calls f id = s.calls f id)) := by
  induction entries generalizing s with
  | nil => exact ⟨rfl, Or.inr ⟨fun ⟨_, _, e, he, _⟩ => by simp [listed] at he, rfl⟩⟩
  | cons p entries ih =>
    rw [List.foldl_cons]
    cases he : rssItemExists s.items p.entry.id with
    | true =>
      rw [checkEntry_exists regex feed _ _ he]
      by_cases hid : p.entry.id = id
      · subst hid
        have hno : ∀ es, ¬ PassesOn regex s feed rules es f p.entry.id :=
          not_passesOn_of_exists regex he
        exact ⟨(ih s).1, Or.inr ⟨hno _, ((ih s).2.resolve_left fun h => hno _ h.1).2⟩⟩
      · rw [List.map_cons, passesOn_cons_ne regex hid]
        exact ih s
    | false =>
      obtain ⟨hkeys, hpolls, hadded⟩ := checkEntry_new regex feed rules he
      obtain ⟨hp, hcalls⟩ := ih
        (checkEntry regex feed (feedFilter regex feed) (feedRules feed rules) s p)
      refine ⟨hp.trans hpolls, ?_⟩
      rw [List.map_cons]
      by_cases hid : p.entry.id = id
      · subst hid
        rw [passesOn_cons_self regex he]
        have hrow := (exists_iff_of_keys hkeys p.entry.id).2 (Or.inr rfl)
        rw [(hcalls.resolve_left fun h => not_passesOn_of_exists regex hrow _ h.1).2]
        rcases hadded with ⟨hq, url, category, ha⟩ | ⟨hq, ha⟩
        · rw [calls_of_append ha]
          by_cases hf : f = feed.name <;> simp [hf, hq, eq_comm]
        · exact Or.inr ⟨fun h => hq h.2, calls_of_eq ha⟩
      · have hother : PassesOn regex (checkEntry regex feed (feedFilter regex feed)
            (feedRules feed rules) s p) feed rules (entries.map Polled.entry) f id ↔
            PassesOn regex s feed rules (entries.map Polled.entry) f id := by
          have hrow := exists_iff_of_keys hkeys id
          simp only [Ne.symm hid, or_false] at hrow
          simp only [PassesOn, Bool.eq_false_iff, ne_eq, hrow]
        have hsame : (checkEntry regex feed (feedFilter regex feed) (feedRules feed rules) s p).calls
            f id = s.calls f id := by
          rcases hadded with ⟨-, url, category, ha⟩ | ⟨-, ha⟩
          · rw [calls_of_append ha, if_neg fun h => hid h.2, Nat.add_zero]
          · exact calls_of_eq ha
        rw [passesOn_cons_ne regex hid, ← hother, ← hsame]
        exact hcalls

/-- The polls of a feed that lists an entry, once another poll is over. -/
theorem firstPoll_append {q : Poll} (h : t.polls = s.polls ++ [q]) (f id : String) :
    t.firstPoll f id = (s.firstPoll f id).or
      (if q.feed.name = f then (listed q.entries id).map (q, ·) else none) := by
  simp only [firstPoll, h, List.findSome?_append]
  congr 1
  rw [List.findSome?_cons]
  split
  · rename_i hq
    exact hq.symm
  · rename_i hq
    exact hq.symm

theorem firstPoll_isSome_iff {q : Poll} (h : t.polls = s.polls ++ [q]) (f id : String) :
    (t.firstPoll f id).isSome ↔
      (s.firstPoll f id).isSome ∨ q.feed.name = f ∧ id ∈ q.entries.map FeedEntry.id := by
  rw [firstPoll_append h, Option.isSome_or, Bool.or_eq_true, ← listed_isSome_iff]
  split_ifs with hf <;> simp [hf]

/-- Nothing is passed on that no poll has listed. -/
def OnlyPolled (s : RssMonitor) : Prop := ∀ f id, s.firstPoll f id = none → s.calls f id = 0

/-- A poll, and what it has passed on. -/
theorem checkFeed_some (s : RssMonitor) (feed : RssFeedConfig) (rules : List RssRule)
    (fetched : List Polled) :
    (s.checkFeed regex feed rules (some fetched)).polls =
        s.polls ++ [⟨feed, rules, fetched.map Polled.entry⟩] ∧
      ∀ f id, (PassesOn regex s feed rules (fetched.map Polled.entry) f id ∧
          (s.checkFeed regex feed rules (some fetched)).calls f id = s.calls f id + 1) ∨
        (¬ PassesOn regex s feed rules (fetched.map Polled.entry) f id ∧
          (s.checkFeed regex feed rules (some fetched)).calls f id = s.calls f id) := by
  have h := fun f id => foldl_checkEntry regex feed rules fetched f id
    { s with polls := s.polls ++ [⟨feed, rules, fetched.map Polled.entry⟩] }
  exact ⟨(h "" "").1, fun f id => (h f id).2⟩

/-- A poll keeps the calls within what was listed, and each call stays the only one, exactly when the
rows fit. -/
theorem checkFeed_step (fetched : List Polled) (ho : s.OnlyPolled) (hd : s.DownloadedOnce regex) :
    let t := s.checkFeed regex feed rules (some fetched)
    t.OnlyPolled ∧ (t.DownloadedOnce regex ↔
      ∀ entry ∈ fetched.map Polled.entry,
        listed (fetched.map Polled.entry) entry.id = some entry →
          s.RowFits regex feed rules entry) := by
  obtain ⟨hpolls, hcalls⟩ := checkFeed_some regex s feed rules fetched
  set t := s.checkFeed regex feed rules (some fetched)
  have hfirst := firstPoll_append hpolls
  dsimp only at hfirst
  refine ⟨fun f id hnone => ?_, fun hdt entry _ hlist hq => ⟨fun hp => ?_, fun x hp hqf => ?_⟩,
    fun hrows f id p first hp hq => ?_⟩
  · rw [hfirst, Option.or_eq_none_iff] at hnone
    rcases hcalls f id with ⟨⟨rfl, -, entry, hlist, -⟩, -⟩ | ⟨-, hc⟩
    · simp [hlist] at hnone
    · rw [hc]
      exact ho f id hnone.1
  · have h1 : t.calls feed.name entry.id = 1 := by
      refine hdt feed.name entry.id ⟨feed, rules, fetched.map Polled.entry⟩ entry ?_ hq
      simp [hfirst, hp, hlist]
    rcases hcalls feed.name entry.id with ⟨hpass, -⟩ | ⟨-, hc⟩
    · exact hpass.2.1
    · rw [hc, ho _ _ hp] at h1
      cases h1
  · rw [Option.mem_def] at hp
    have h1 : t.calls feed.name entry.id = 1 :=
      hdt feed.name entry.id x.1 x.2 (by simp [hfirst, hp]) hqf
    by_contra hrow
    rcases hcalls feed.name entry.id with ⟨-, hc⟩ | ⟨hpass, -⟩
    · rw [hc, hd _ _ _ _ hp hqf] at h1
      cases h1
    · exact hpass ⟨rfl, by simpa using hrow, entry, hlist, hq⟩
  · have hrow : ∀ i entry, listed (fetched.map Polled.entry) i = some entry →
        s.RowFits regex feed rules entry := by
      intro i entry hl
      obtain rfl := listed_id hl
      exact hrows entry (List.mem_of_find?_eq_some hl) hl
    rw [hfirst] at hp
    cases hs : s.firstPoll f id with
    | none =>
      rw [hs, Option.none_or] at hp
      split_ifs at hp with hf
      obtain ⟨entry, hlist, hpe⟩ := Option.map_eq_some_iff.1 hp
      cases hpe
      have hfit := (hrow id first hlist hq).1
      rw [listed_id hlist, hf] at hfit
      rcases hcalls f id with ⟨-, hc⟩ | ⟨hpass, -⟩
      · rw [hc, ho f id hs]
      · exact absurd ⟨hf.symm, hfit hs, first, hlist, hq⟩ hpass
    | some x =>
      rw [hs, Option.some_or] at hp
      cases hp
      rcases hcalls f id with ⟨⟨rfl, hno, entry, hlist, hqe⟩, -⟩ | ⟨-, hc⟩
      · have hfit := (hrow id entry hlist hqe).2
        rw [listed_id hlist] at hfit
        rw [hfit _ hs hq] at hno
        cases hno
      · rw [hc]
        exact hd f id p first hs hq

/-- What a step keeps, and when it keeps each call the only one. -/
theorem step_downloadedOnce (ho : s.OnlyPolled) (hd : s.DownloadedOnce regex)
    (hs : step regex s e = some t) :
    t.OnlyPolled ∧ (t.DownloadedOnce regex ↔ s.RowsFit regex e) := by
  rcases step_cases regex hs with ⟨feeds, rfl, -, rfl | rfl⟩ | ⟨rules, fetched, feed, rest, rfl, hr, rfl⟩ |
    ⟨rfl, -, rfl⟩
  · exact ⟨ho, iff_of_true hd trivial⟩
  · exact ⟨ho, iff_of_true hd trivial⟩
  · cases fetched with
    | none => exact ⟨ho, iff_of_true hd trivial⟩
    | some fetched =>
      simp only [RowsFit, hr, Option.bind_some, List.head?_cons, Option.mem_def,
        Option.some.injEq, forall_eq']
      exact checkFeed_step regex fetched ho hd
  · exact ⟨ho, iff_of_true hd trivial⟩

theorem run_downloadedOnce {limit : Option ℕ} {evs : List RssEvent}
    (h : Lib.Run (step regex) (RowsFit regex) (new limit) evs t) :
    t.OnlyPolled ∧ t.DownloadedOnce regex := by
  refine h.inv (fun s => s.OnlyPolled ∧ s.DownloadedOnce regex) ?_ ?_
  · exact ⟨fun _ _ _ => rfl, fun f id p entry hp => by simp [firstPoll, new] at hp⟩
  · intro s e t ⟨ho, hd⟩ hfit hs
    obtain ⟨ho', hiff⟩ := step_downloadedOnce regex ho hd hs
    exact ⟨ho', hiff.2 hfit⟩

/-- In every run, each entry that qualifies at its first poll is passed to `add_torrent` exactly once,
at every time, exactly when the rows fit at every poll. -/
theorem downloadedOnce_iff_rowsFit (limit : Option ℕ) (evs : List RssEvent) (t : RssMonitor)
    (hr : Lib.Run (step regex) Lib.Any (new limit) evs t) :
    (∀ evs' u, evs' <+: evs → Lib.Run (step regex) Lib.Any (new limit) evs' u →
      u.DownloadedOnce regex) ↔ Lib.Run (step regex) (RowsFit regex) (new limit) evs t := by
  constructor
  · intro hall
    induction hr with
    | nil => exact Lib.Run.nil
    | @snoc evs s e t hr _ hs ih =>
      have hfit := ih fun evs' u hpre => hall evs' u (hpre.trans (List.prefix_append evs [e]))
      obtain ⟨ho, hd⟩ := run_downloadedOnce regex hfit
      have hdt := hall (evs ++ [e]) t (List.prefix_refl _) (hr.snoc trivial hs)
      exact hfit.snoc ((step_downloadedOnce regex ho hd hs).2.1 hdt) hs
  · rintro hfit evs' u ⟨evs'', rfl⟩ hu
    obtain ⟨v, hv, -⟩ := hfit.split
    obtain rfl := hu.unique (hv.mono fun _ _ _ => trivial)
    exact (run_downloadedOnce regex hv).2

/-! The rows always fit while the history has room for every entry and no two feeds share an id. -/

def HasRoom (s : RssMonitor) : RssEvent → Prop
  | .checkFeed _ (some fetched) => ∀ feed ∈ s.round.bind List.head?,
      ∀ entry ∈ fetched.map Polled.entry, ∀ r ∈ s.items, r.id = entry.id → r.feedName = feed.name
  | .pruneItems => rssItemCount s.items ≤ s.rssHistoryLimit.getD 500
  | _ => True

/-- There is a row for each entry that a poll has listed, and no other. -/
def RowsPolled (s : RssMonitor) : Prop :=
  (∀ k ∈ s.items.map key, (s.firstPoll k.1 k.2).isSome) ∧
  ∀ f id, (s.firstPoll f id).isSome → rssItemExists s.items id = true

theorem RowsPolled.rowsFit (h : s.RowsPolled) (hroom : s.HasRoom e) : s.RowsFit regex e := by
  cases e with
  | feedList feeds => trivial
  | pruneItems => trivial
  | checkFeed rules fetched =>
    cases fetched with
    | none => trivial
    | some fetched =>
      intro feed hf entry he _ _
      refine ⟨fun hnone => ?_, fun x hx _ => h.2 feed.name entry.id (by simp_all)⟩
      by_contra hrow
      rw [Bool.not_eq_false, rssItemExists_iff] at hrow
      obtain ⟨r, hr, hid⟩ := List.mem_map.1 hrow
      have hsome := h.1 (key r) (List.mem_map_of_mem hr)
      rw [key, hroom feed hf entry he r hr hid, hid, hnone] at hsome
      cases hsome

theorem foldl_checkEntry_keys (feed : RssFeedConfig) (rules : List RssRule) (entries : List Polled)
    (s : RssMonitor) :
    let t := entries.foldl
      (checkEntry regex feed (feedFilter regex feed) (feedRules feed rules)) s
    (∀ k ∈ t.items.map key, k ∈ s.items.map key ∨
        k.1 = feed.name ∧ k.2 ∈ entries.map fun p => p.entry.id) ∧
      ∀ id, rssItemExists t.items id = true ↔
        rssItemExists s.items id = true ∨ id ∈ entries.map fun p => p.entry.id := by
  induction entries generalizing s with
  | nil => simp
  | cons p entries ih =>
    rw [List.foldl_cons]
    cases he : rssItemExists s.items p.entry.id with
    | true =>
      rw [checkEntry_exists regex feed _ _ he]
      obtain ⟨hk, hrow⟩ := ih s
      refine ⟨fun k hm => (hk k hm).imp id fun h => ⟨h.1, List.mem_cons_of_mem _ h.2⟩, fun i => ?_⟩
      rw [hrow, List.map_cons, List.mem_cons]
      refine ⟨fun h => h.imp id Or.inr, fun h => ?_⟩
      rcases h with h | rfl | h
      · exact Or.inl h
      · exact Or.inl he
      · exact Or.inr h
    | false =>
      obtain ⟨hkeys, -, -⟩ := checkEntry_new regex feed rules he
      obtain ⟨hk, hrow⟩ := ih
        (checkEntry regex feed (feedFilter regex feed) (feedRules feed rules) s p)
      refine ⟨fun k hm => ?_, fun i => ?_⟩
      · rcases hk k hm with h | h
        · rw [hkeys, List.mem_append, List.mem_singleton] at h
          rcases h with h | rfl
          · exact Or.inl h
          · exact Or.inr ⟨rfl, List.mem_cons_self⟩
        · exact Or.inr ⟨h.1, List.mem_cons_of_mem _ h.2⟩
      · rw [hrow, exists_iff_of_keys hkeys, List.map_cons, List.mem_cons, or_assoc]

theorem RowsPolled.step (h : s.RowsPolled) (hroom : s.HasRoom e) (hs : step regex s e = some t) :
    t.RowsPolled := by
  rcases step_cases regex hs with ⟨feeds, rfl, -, rfl | rfl⟩ | ⟨rules, fetched, feed, rest, rfl, hr, rfl⟩ |
    ⟨rfl, -, rfl⟩
  · exact h
  · exact h
  · cases fetched with
    | none => exact h
    | some fetched =>
      obtain ⟨hpolls, -⟩ := checkFeed_some regex s feed rules fetched
      obtain ⟨hk, hrow⟩ := foldl_checkEntry_keys regex feed rules fetched
        { s with polls := s.polls ++ [⟨feed, rules, fetched.map Polled.entry⟩] }
      have hfirst := firstPoll_isSome_iff hpolls
      simp only [List.map_map] at hfirst
      refine ⟨fun k hm => (hfirst k.1 k.2).2 ?_, fun f id hsome => (hrow id).2 ?_⟩
      · exact (hk k hm).imp (h.1 k) fun h => ⟨h.1.symm, h.2⟩
      · exact ((hfirst f id).1 hsome).imp (h.2 f id) And.right
  · have hkeep : s.pruneItems = s.items := if_neg (not_lt.2 hroom)
    unfold RowsPolled
    rw [hkeep]
    exact h

/-- Each entry that qualifies is downloaded once while the history has room and no id is shared. -/
theorem hasRoom_downloadedOnce {limit : Option ℕ} {evs : List RssEvent}
    (h : Lib.Run (RssMonitor.step regex) HasRoom (new limit) evs t) : t.DownloadedOnce regex := by
  have hfit : Lib.Run (RssMonitor.step regex) (RowsFit regex) (new limit) evs t ∧ t.RowsPolled := by
    induction h with
    | nil => exact ⟨Lib.Run.nil, nofun, fun f id hp => by simp [firstPoll, new] at hp⟩
    | snoc _ hroom hs ih =>
      exact ⟨ih.1.snoc (ih.2.rowsFit regex hroom) hs, ih.2.step regex hroom hs⟩
  exact (run_downloadedOnce regex hfit.1).2

/-- A feed that downloads all its entries. -/
def autoFeed (name : String) : RssFeedConfig := ⟨name, none, none, true, true⟩

/-- An entry with a magnet link, reached at a time. -/
def magnet (id : String) (now : ℕ) : Polled :=
  ⟨⟨id, some id, [⟨"magnet:?xt=urn", none⟩], [], none, none⟩, now, true, now⟩

/-- The rounds of two feeds. -/
def rounds (polls : List (List Polled × List Polled)) : List RssEvent :=
  polls.flatMap fun (a, b) => [.feedList [autoFeed "a", autoFeed "b"], .checkFeed [] (some a),
    .checkFeed [] (some b), .pruneItems]

/-- A history of one row is enough while a feed lists an entry once only. -/
theorem movingFeeds_once :
    ∃ t, Lib.Run (step fun _ => none) Lib.Any (new (some 1))
      (rounds [([magnet "1" 1], [magnet "2" 2]), ([magnet "3" 3], [magnet "4" 4])]) t ∧
      t.DownloadedOnce fun _ => none := by
  have hex := @Lib.Run.exists_of_exec _ _ (step fun _ => none) (RowsFit fun _ => none) (new (some 1))
    (rounds [([magnet "1" 1], [magnet "2" 2]), ([magnet "3" 3], [magnet "4" 4])]) _
    (fun _ => true) (by decide +kernel)
  obtain ⟨t, hr, -⟩ := hex
  have hany : Lib.Run (step fun _ => none) Lib.Any (new (some 1)) _ t := hr.mono fun _ _ _ => trivial
  exact ⟨t, hany, (downloadedOnce_iff_rowsFit (fun _ => none) (some 1) _ t hany).2 hr _ t
    (List.prefix_refl _) hany⟩

theorem not_downloadedOnce (h : (t.firstPoll f id).any fun x => Qualifies regex x.1.feed x.1.rules x.2)
    (hc : t.calls f id ≠ 1) : ¬ t.DownloadedOnce regex := fun hd => by
  obtain ⟨⟨p, entry⟩, hp, hq⟩ := (Option.any_eq_true _ _).1 h
  exact hc (hd f id p entry hp (by simpa using hq))

/-- With a history of one row, a feed that lists two entries in two rounds has the first downloaded
twice; and of two feeds that list an entry of one id, the second never has it downloaded. -/
theorem pruned_downloaded_twice :
    (∃ t, Lib.Run (step fun _ => none) Lib.Any (new (some 1))
      (rounds [([magnet "1" 1, magnet "2" 2], []), ([magnet "1" 3, magnet "2" 4], [])]) t ∧
      t.calls "a" "1" = 2 ∧ ¬ t.DownloadedOnce fun _ => none) ∧
    ∃ t, Lib.Run (step fun _ => none) Lib.Any (new none)
      (rounds [([magnet "1" 1], [magnet "1" 2])]) t ∧
      t.calls "b" "1" = 0 ∧ ¬ t.DownloadedOnce fun _ => none := by
  have htwice := @Lib.Run.exists_of_exec _ _ (step fun _ => none) Lib.Any (new (some 1))
    (rounds [([magnet "1" 1, magnet "2" 2], []), ([magnet "1" 3, magnet "2" 4], [])]) _
    (fun t => t.calls "a" "1" = 2 && (t.firstPoll "a" "1").any fun x =>
      Qualifies (fun _ => none) x.1.feed x.1.rules x.2) (by decide +kernel)
  have hnever := @Lib.Run.exists_of_exec _ _ (step fun _ => none) Lib.Any (new none)
    (rounds [([magnet "1" 1], [magnet "1" 2])]) _
    (fun t => t.calls "b" "1" = 0 && (t.firstPoll "b" "1").any fun x =>
      Qualifies (fun _ => none) x.1.feed x.1.rules x.2) (by decide +kernel)
  obtain ⟨t, hr, hq⟩ := htwice
  obtain ⟨u, hru, hqu⟩ := hnever
  rw [Bool.and_eq_true, decide_eq_true_eq] at hq hqu
  exact ⟨⟨t, hr, hq.1, not_downloadedOnce _ hq.2 (by omega)⟩,
    u, hru, hqu.1, not_downloadedOnce _ hqu.2 (by omega)⟩

end RssMonitor

end Rtbit
