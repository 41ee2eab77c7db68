import Mathlib.Tactic
import Rtbit.Spec.RssRules

/-! A rule comes back from its table with the feeds it was stored with exactly when each of their names
is one that the column can hold: not empty, without a comma, and with no white space at its ends. -/

namespace Rtbit

/-- The parts of a list do not hold what it was split on. -/
theorem not_mem_of_mem_splitOn {α : Type} [DecidableEq α] {x : α} {part xs : List α}
    (h : part ∈ xs.splitOn x) : x ∉ part := by
  induction xs generalizing part with
  | nil =>
    rw [List.splitOn_nil, List.mem_singleton] at h
    subst h
    exact List.not_mem_nil
  | cons a xs ih =>
    rw [List.splitOn_cons_eq_if_modifyHead] at h
    split_ifs at h with ha
    · rcases List.mem_cons.1 h with rfl | h
      · exact List.not_mem_nil
      · exact ih h
    · obtain ⟨first, parts, hparts⟩ := List.exists_cons_of_ne_nil (List.splitOn_ne_nil x xs)
      rw [hparts, List.modifyHead_cons] at h
      rw [hparts] at ih
      rcases List.mem_cons.1 h with rfl | h
      · intro hx
        rcases List.mem_cons.1 hx with rfl | hx
        · simp at ha
        · exact ih List.mem_cons_self hx
      · exact ih (List.mem_cons_of_mem _ h)

namespace IpRanges

theorem trim_suffixOfPrefix (s : List Char) :
    trim s <+: s.dropWhile isWhitespace ∧ s.dropWhile isWhitespace <:+ s :=
  ⟨List.rdropWhile_prefix _ _, List.dropWhile_suffix _⟩

theorem mem_of_mem_trim {s : List Char} {c : Char} (h : c ∈ trim s) : c ∈ s :=
  (trim_suffixOfPrefix s).2.subset ((trim_suffixOfPrefix s).1.subset h)

@[simp] theorem trim_nil : trim [] = [] := rfl

/-- What is left starts and ends with a character that stays. -/
theorem trim_trim (s : List Char) : trim (trim s) = trim s := by
  have hfront : (trim s).dropWhile isWhitespace = trim s := by
    rw [List.dropWhile_eq_self_iff]
    intro hpos hspace
    have hpre := (trim_suffixOfPrefix s).1
    have hlen := hpos.trans_le hpre.length_le
    refine List.dropWhile_get_zero_not isWhitespace s hlen ?_
    rw [List.get_eq_getElem]
    rwa [← hpre.getElem hpos]
  unfold trim at hfront ⊢
  rw [hfront, List.rdropWhile_idempotent]

end IpRanges

namespace RssRuleRow

variable {n s : String} {names : List String}

/-- A name that a column `feed_name` can hold. -/
def Storable (n : String) : Prop := n ≠ "" ∧ ',' ∉ n.toList ∧ trim n = n

instance (n : String) : Decidable (Storable n) := inferInstanceAs (Decidable (_ ∧ _ ∧ _))

@[simp] theorem toList_trim (s : String) : (trim s).toList = IpRanges.trim s.toList :=
  String.toList_ofList

theorem trim_trim (s : String) : trim (trim s) = trim s := by
  simp only [trim, String.toList_ofList, IpRanges.trim_trim]

/-- The column lists only such names. -/
theorem storable_of_mem (h : n ∈ feedNames s) : Storable n := by
  obtain ⟨hn, hne⟩ := List.mem_filter.1 h
  obtain ⟨part, hpart, rfl⟩ := List.mem_map.1 hn
  refine ⟨by simpa using hne, fun hc => ?_, trim_trim _⟩
  rw [toList_trim, String.toList_ofList] at hc
  exact not_mem_of_mem_splitOn hpart (IpRanges.mem_of_mem_trim hc)

theorem splitOn_join (hne : names ≠ []) (h : ∀ n ∈ names, ',' ∉ n.toList) :
    (join names).toList.splitOn ',' = names.map String.toList := by
  rw [join, String.toList_intercalate]
  exact List.splitOn_intercalate ',' (by simpa using h) (by simpa using hne)

/-- Such names are read back. -/
theorem feedNames_join (h : ∀ n ∈ names, Storable n) : feedNames (join names) = names := by
  by_cases hne : names = []
  · subst hne
    decide +kernel
  · unfold feedNames
    rw [splitOn_join hne fun n hn => (h n hn).2.1, List.map_map]
    have hmap : names.map ((fun part => trim (String.ofList part)) ∘ String.toList) = names := by
      refine (List.map_congr_left fun n hn => ?_).trans (List.map_id names)
      simpa using (h n hn).2.2
    rw [hmap, List.filter_eq_self]
    exact fun n hn => by simpa using (h n hn).1

theorem feedNames_join_iff : feedNames (join names) = names ↔ ∀ n ∈ names, Storable n :=
  ⟨fun h _ hn => storable_of_mem (h ▸ hn), feedNames_join⟩

/-- A rule as its row gives it back. -/
theorem toRule_ofRule (rule : RssRuleEntry) :
    (ofRule rule).toRule = { rule with feedNames := feedNames (join rule.feedNames) } := by
  unfold ofRule toRule
  congr 2
  cases rule.enabled <;> rfl

theorem set_eq_ofRule {r : RssRuleRow} {rule : RssRuleEntry} (h : r.id = rule.id) :
    r.set rule = ofRule rule := by
  simp only [set, ofRule, h]

end RssRuleRow

namespace RssRules

open RssRuleRow

variable {t t' : RssRules} {rule l : RssRuleEntry}

/-- The table after a rule was stored: inserted, or updated where it is. -/
def Stored (t : RssRules) (rule : RssRuleEntry) (t' : RssRules) : Prop :=
  t.rssRuleInsert rule = some t' ∨
    rule.id ∈ t.rows.map RssRuleRow.id ∧ t.rssRuleUpdate rule = t'

theorem mem_rssRuleList : l ∈ t.rssRuleList ↔ ∃ r ∈ t.rows, r.toRule = l := by
  simp only [rssRuleList, List.mem_map, (List.perm_insertionSort _ t.rows).mem_iff]

theorem ofRule_mem (h : t.Stored rule t') : ofRule rule ∈ t'.rows := by
  rcases h with hins | ⟨hid, rfl⟩
  · unfold rssRuleInsert at hins
    split_ifs at hins
    cases hins
    simp
  · obtain ⟨r, hr, hrid⟩ := List.mem_map.1 hid
    refine List.mem_map.2 ⟨r, hr, ?_⟩
    rw [if_pos hrid, set_eq_ofRule hrid]

/-- The table lists one rule of that id. -/
theorem listed_iff (h : t.Stored rule t') :
    l ∈ t'.rssRuleList ∧ l.id = rule.id ↔ l = (ofRule rule).toRule := by
  have hmem := ofRule_mem h
  constructor
  · rintro ⟨hl, hid⟩
    obtain ⟨r, hr, rfl⟩ := mem_rssRuleList.1 hl
    rw [List.inj_on_of_nodup_map t'.primaryKey hr hmem hid]
  · rintro rfl
    exact ⟨mem_rssRuleList.2 ⟨_, hmem, rfl⟩, rfl⟩

theorem mem_feedRules {feed : RssFeedConfig} (hl : l ∈ t.rssRuleList) :
    l.toRssRule ∈ RssMonitor.feedRules feed (t.rssRuleList.map RssRuleEntry.toRssRule) ↔
      l.enabled ∧ feed.name ∈ l.feedNames := by
  simp only [RssMonitor.feedRules, List.mem_filter, Bool.and_eq_true, List.any_eq_true,
    decide_eq_true_eq, exists_eq_right, and_iff_right_iff_imp]
  exact fun _ => List.mem_map_of_mem hl

/-- The rule that is listed has the feeds it was stored with, and `check_feed` applies it to these. -/
def Survives (t : RssRules) (rule : RssRuleEntry) : Prop :=
  ∃ l ∈ t.rssRuleList, l.id = rule.id ∧ (∀ l' ∈ t.rssRuleList, l'.id = rule.id → l' = l) ∧
    l.feedNames = rule.feedNames ∧
    ∀ feed, l.toRssRule ∈ RssMonitor.feedRules feed (t.rssRuleList.map RssRuleEntry.toRssRule) ↔
      rule.enabled ∧ feed.name ∈ rule.feedNames

theorem survives_iff_storable (h : t.Stored rule t') :
    t'.Survives rule ↔ ∀ n ∈ rule.feedNames, Storable n := by
  constructor
  · rintro ⟨l, hl, hid, -, hnames, -⟩
    have hrow := (listed_iff h).1 ⟨hl, hid⟩
    rw [toRule_ofRule] at hrow
    rw [hrow] at hnames
    exact feedNames_join_iff.1 hnames
  · intro hstorable
    have hback : (ofRule rule).toRule = rule := by
      rw [toRule_ofRule, feedNames_join hstorable]
    obtain ⟨hl, hid⟩ := (listed_iff h).2 hback.symm
    have honly : ∀ l ∈ t'.rssRuleList, l.id = rule.id → l = rule := fun l hl hid =>
      ((listed_iff h).1 ⟨hl, hid⟩).trans hback
    exact ⟨rule, hl, hid, honly, rfl, fun feed => mem_feedRules hl⟩

def ruleFor (feedNames : List String) : RssRuleEntry :=
  { id := "1", name := "rule", feedNames := feedNames, category := none, priority := 1
    matchRegex := "", enabled := true }

def withRule (rule : RssRuleEntry) : RssRules := ⟨[ofRule rule], List.nodup_singleton _⟩

theorem twoFeeds_survive :
    (withRule (ruleFor ["tv"])).Stored (ruleFor ["tv", "new films"])
      (withRule (ruleFor ["tv", "new films"])) ∧
    (withRule (ruleFor ["tv", "new films"])).Survives (ruleFor ["tv", "new films"]) := by
  have hstored : (withRule (ruleFor ["tv"])).Stored (ruleFor ["tv", "new films"])
      (withRule (ruleFor ["tv", "new films"])) := .inr ⟨List.mem_singleton_self "1", by decide +kernel⟩
  exact ⟨hstored, (survives_iff_storable hstored).2 (by decide +kernel)⟩

/-- A rule for the feed "news, daily" comes back as one for the feeds "news" and "daily". -/
theorem comma_does_not_survive :
    empty.Stored (ruleFor ["news, daily"]) (withRule (ruleFor ["news, daily"])) ∧
    (withRule (ruleFor ["news, daily"])).rssRuleList = [ruleFor ["news", "daily"]] ∧
    ¬ (withRule (ruleFor ["news, daily"])).Survives (ruleFor ["news, daily"]) := by
  have hlist : (withRule (ruleFor ["news, daily"])).rssRuleList = [ruleFor ["news", "daily"]] := by
    decide +kernel
  refine ⟨.inl (by decide +kernel), hlist, ?_⟩
  rintro ⟨l, hl, -, -, hnames, -⟩
  rw [hlist, List.mem_singleton] at hl
  subst hl
  revert hnames
  decide +kernel

end RssRules

end Rtbit
