import Rtbit.Spec.RssMonitor

/-! The rows of the RSS table are told apart by their id alone, and `check_feed` passes an entry on
exactly when it finds no row with its id and the entry qualifies. -/

namespace Rtbit

namespace RssDatabase

variable {items : List RssItem} {id : String}

theorem rssItemExists_iff : rssItemExists items id = true ↔ id ∈ items.map RssItem.id := by
  simp only [rssItemExists, List.any_eq_true, decide_eq_true_eq, List.mem_map]

/-- The feed and the id of a row. -/
def key (r : RssItem) : String × String := (r.feedName, r.id)

theorem ids_eq (items : List RssItem) : items.map RssItem.id = (items.map key).map Prod.snd := by
  rw [List.map_map]
  rfl

theorem keys_upsert (items : List RssItem) (item : RssItem) :
    (rssItemUpsert items item).map key =
      if rssItemExists items item.id then items.map key else items.map key ++ [key item] := by
  unfold rssItemUpsert
  split_ifs <;> simp

@[simp] theorem keys_markDownloaded (items : List RssItem) (id : String) (category : Option String)
    (now : ℕ) : (rssItemMarkDownloaded items id category now).map key = items.map key := by
  unfold rssItemMarkDownloaded
  rw [List.map_map]
  refine List.map_congr_left fun r _ => ?_
  simp only [Function.comp_apply]
  split_ifs <;> rfl

theorem mem_newestFirst {r : RssItem} : r ∈ newestFirst items ↔ r ∈ items :=
  (List.perm_insertionSort _ items).mem_iff

/-- No more rows are left than are to be kept, as an id has one row. -/
theorem prune_length_le (h : (items.map RssItem.id).Nodup) (keep : ℕ) :
    (rssItemsPrune items keep).length ≤ keep := by
  have hsub : ((rssItemsPrune items keep).map RssItem.id).Subperm
      (((newestFirst items).take keep).map RssItem.id) := by
    refine List.subperm_of_subset (h.sublist (List.filter_sublist.map _)) fun id hid => ?_
    obtain ⟨r, hr, rfl⟩ := List.mem_map.1 hid
    simpa using (List.mem_filter.1 hr).2
  have := hsub.length_le
  simp only [List.length_map, List.length_take] at this
  omega

/-- A row that goes is not newer than one that stays. -/
theorem prune_newest (h : (items.map RssItem.id).Nodup) {keep : ℕ} {r d : RssItem}
    (hr : r ∈ rssItemsPrune items keep) (hd : d ∈ items) (hgone : d ∉ rssItemsPrune items keep) :
    d.firstSeenAt ≤ r.firstSeenAt := by
  have hsorted : (newestFirst items).Pairwise fun a b => b.firstSeenAt ≤ a.firstSeenAt :=
    List.pairwise_insertionSort _ items
  obtain ⟨hri, hrk⟩ := List.mem_filter.1 hr
  simp only [List.mem_map, decide_eq_true_eq] at hrk
  obtain ⟨r', hr', hid⟩ := hrk
  obtain rfl : r' = r :=
    List.inj_on_of_nodup_map h (mem_newestFirst.1 (List.mem_of_mem_take hr')) hri hid
  have hd' : d ∈ (newestFirst items).drop keep := by
    have hmem := mem_newestFirst.2 hd
    rw [← List.take_append_drop keep (newestFirst items), List.mem_append] at hmem
    refine hmem.resolve_left fun ht => hgone (List.mem_filter.2 ⟨hd, ?_⟩)
    exact decide_eq_true (List.mem_map_of_mem ht)
  rw [← List.take_append_drop keep (newestFirst items), List.pairwise_append] at hsorted
  exact hsorted.2.2 _ hr' _ hd'

end RssDatabase

namespace RssMonitor

open RssDatabase

variable (regex : String → Option (String → Bool)) {s : RssMonitor} (feed : RssFeedConfig)
  (rules : List RssRule) {p : Polled}

/-- An entry with a torrent URL that passes the filter of its feed, and that a rule matches or the feed
downloads of itself. -/
def Qualifies (entry : FeedEntry) : Prop :=
  extractTorrentUrl entry ≠ none ∧
  (∀ re ∈ feedFilter regex feed, re (entry.title.getD "") = true) ∧
  ((∃ r ∈ feedRules feed rules, ∃ re ∈ regex r.matchRegex, re (entry.title.getD "") = true) ∨
    feed.autoDownload = true ∧ feed.filterRegex = none)

instance (entry : FeedEntry) : Decidable (Qualifies regex feed rules entry) :=
  inferInstanceAs (Decidable (_ ∧ _ ∧ _))

theorem checkEntry_exists (filter : Option (String → Bool))
    (h : rssItemExists s.items p.entry.id = true) : checkEntry regex feed filter rules s p = s := by
  simp [checkEntry, h]

/-- The step of an entry that has no row: it gets one, and is passed on when it qualifies. -/
theorem checkEntry_new (h : rssItemExists s.items p.entry.id = false) :
    let t := checkEntry regex feed (feedFilter regex feed) (feedRules feed rules) s p
    t.items.map key = s.items.map key ++ [(feed.name, p.entry.id)] ∧ t.polls = s.polls ∧
      ((Qualifies regex feed rules p.entry ∧ ∃ url category,
          t.added = s.added ++ [⟨feed.name, p.entry.id, url, category⟩]) ∨
        (¬ Qualifies regex feed rules p.entry ∧ t.added = s.added)) := by
  have hkeys : ∀ item : RssItem, item.feedName = feed.name → item.id = p.entry.id →
      (rssItemUpsert s.items item).map key = s.items.map key ++ [(feed.name, p.entry.id)] := by
    intro item hf hi
    rw [keys_upsert, key, hf, hi, h]
    rfl
  cases hu : extractTorrentUrl p.entry with
  | none =>
    have hno : ¬ Qualifies regex feed rules p.entry := fun hq => hq.1 hu
    simp [checkEntry, h, hu, hno, hkeys]
  | some url =>
    have hfilter : (feedFilter regex feed).all (· (p.entry.title.getD "")) = true ↔
        ∀ re ∈ feedFilter regex feed, re (p.entry.title.getD "") = true := by
      cases feedFilter regex feed <;> simp
    cases hf : (feedFilter regex feed).all (· (p.entry.title.getD "")) with
    | false =>
      have hno : ¬ Qualifies regex feed rules p.entry := fun hq => by
        simp [hfilter.2 hq.2.1] at hf
      simp [checkEntry, h, hu, hno, hf, hkeys]
    | true =>
      cases hm : (feedRules feed rules).find? fun r =>
          ((regex r.matchRegex).map (· (p.entry.title.getD ""))).getD false with
      | some rule =>
        have hq : Qualifies regex feed rules p.entry := by
          refine ⟨by simp [hu], hfilter.1 hf, Or.inl ⟨rule, List.mem_of_find?_eq_some hm, ?_⟩⟩
          have := List.find?_some hm
          cases hre : regex rule.matchRegex with
          | none => simp [hre] at this
          | some re => exact ⟨re, rfl, by simpa [hre] using this⟩
        cases ha : p.accepted <;> simp [checkEntry, h, hu, hf, hm, hq, ha, hkeys]
      | none =>
        have hrule : ¬ ∃ r ∈ feedRules feed rules, ∃ re ∈ regex r.matchRegex,
            re (p.entry.title.getD "") = true := by
          rintro ⟨r, hr, re, hre, htrue⟩
          rw [Option.mem_def] at hre
          simpa [hre, htrue] using List.find?_eq_none.1 hm r hr
        by_cases hauto : feed.autoDownload = true ∧ feed.filterRegex = none
        · have hq : Qualifies regex feed rules p.entry := ⟨by simp [hu], hfilter.1 hf, Or.inr hauto⟩
          cases ha : p.accepted <;> simp [checkEntry, h, hu, hf, hm, hq, ha, hkeys, hauto]
        · have hq : ¬ Qualifies regex feed rules p.entry := fun hq => hq.2.2.elim hrule hauto
          have hcond : (feed.autoDownload && feed.filterRegex.isNone) = false := by
            rw [Bool.eq_false_iff]
            simpa using hauto
          simp [checkEntry, h, hu, hf, hm, hq, hcond, hkeys]

theorem step_cases {e : RssEvent} {t : RssMonitor} (hs : step regex s e = some t) :
    (∃ feeds, e = .feedList feeds ∧ s.round = none ∧
      (t = s ∨ t = { s with round := some (feeds.filter RssFeedConfig.enabled) })) ∨
    (∃ rules fetched feed rest, e = .checkFeed rules fetched ∧ s.round = some (feed :: rest) ∧
      t = { s.checkFeed regex feed rules fetched with round := some rest }) ∨
    (e = .pruneItems ∧ s.round = some [] ∧ t = { s with items := s.pruneItems, round := none }) := by
  cases e with
  | feedList feeds =>
    cases hr : s.round with
    | some _ => simp [step, hr] at hs
    | none =>
      simp only [step, hr] at hs
      refine Or.inl ⟨feeds, rfl, rfl, ?_⟩
      split_ifs at hs
      · exact Or.inl (Option.some.inj hs).symm
      · exact Or.inr (Option.some.inj hs).symm
  | checkFeed rules fetched =>
    rcases hr : s.round with _ | _ | ⟨feed, rest⟩
    · simp [step, hr] at hs
    · simp [step, hr] at hs
    · simp only [step, hr] at hs
      exact Or.inr (Or.inl ⟨rules, fetched, feed, rest, rfl, rfl, (Option.some.inj hs).symm⟩)
  | pruneItems =>
    rcases hr : s.round with _ | _ | ⟨feed, rest⟩
    · simp [step, hr] at hs
    · simp only [step, hr] at hs
      exact Or.inr (Or.inr ⟨rfl, rfl, (Option.some.inj hs).symm⟩)
    · simp [step, hr] at hs

end RssMonitor

end Rtbit
