import Rtbit.Spec.IpRanges
import Rtbit.Spec.RssMonitor

/-! The table of RSS rules (`rss/db.rs`). -/

namespace Rtbit

/-- `RssRule` in full: what the monitor reads of it, and the rest. -/
structure RssRuleEntry extends RssRule where
  id : String
  name : String
  priority : ℤ
  deriving DecidableEq, Repr

structure RssRuleRow where
  id : String
  name : String
  feedName : String
  category : Option String
  priority : ℤ
  matchRegex : String
  enabled : ℤ
  deriving DecidableEq, Repr

/-- The table `rss_rules`, its rows in the order of their `rowid`. -/
structure RssRules where
  rows : List RssRuleRow
  primaryKey : (rows.map RssRuleRow.id).Nodup
  deriving DecidableEq, Repr

namespace RssRuleRow

def trim (s : String) : String := String.ofList (IpRanges.trim s.toList)

/-- The column `feed_name` of a list of feeds. -/
def join (feedNames : List String) : String := ",".intercalate feedNames

/-- The feeds that a column `feed_name` lists. -/
def feedNames (s : String) : List String :=
  ((s.toList.splitOn ',').map fun part => trim (String.ofList part)).filter (· ≠ "")

def ofRule (rule : RssRuleEntry) : RssRuleRow :=
  ⟨rule.id, rule.name, join rule.feedNames, rule.category, rule.priority, rule.matchRegex,
    if rule.enabled then 1 else 0⟩

def toRule (r : RssRuleRow) : RssRuleEntry :=
  { id := r.id, name := r.name, feedNames := feedNames r.feedName, category := r.category
    priority := r.priority, matchRegex := r.matchRegex, enabled := r.enabled ≠ 0 }

/-- The columns that an `UPDATE` sets. -/
def set (r : RssRuleRow) (rule : RssRuleEntry) : RssRuleRow :=
  { r with
    name := rule.name, feedName := join rule.feedNames, category := rule.category
    priority := rule.priority, matchRegex := rule.matchRegex
    enabled := if rule.enabled then 1 else 0 }

end RssRuleRow

namespace RssRules

open RssRuleRow

def empty : RssRules := ⟨[], List.nodup_nil⟩

/-- The insert fails when the id is taken. -/
def rssRuleInsert (t : RssRules) (rule : RssRuleEntry) : Option RssRules :=
  if h : rule.id ∈ t.rows.map RssRuleRow.id then none
  else some ⟨t.rows ++ [ofRule rule], by
    rw [List.map_append]
    exact t.primaryKey.append (List.nodup_singleton _) (by simpa [ofRule] using h)⟩

def rssRuleUpdate (t : RssRules) (rule : RssRuleEntry) : RssRules :=
  ⟨t.rows.map fun r => if r.id = rule.id then r.set rule else r, by
    have hids : (t.rows.map fun r => if r.id = rule.id then r.set rule else r).map RssRuleRow.id =
        t.rows.map RssRuleRow.id := by
      rw [List.map_map]
      refine List.map_congr_left fun r _ => ?_
      simp only [Function.comp_apply]
      split_ifs <;> rfl
    rw [hids]
    exact t.primaryKey⟩

/-- The rules by name. -/
def rssRuleList (t : RssRules) : List RssRuleEntry :=
  (t.rows.insertionSort fun a b => a.name ≤ b.name).map toRule

end RssRules

end Rtbit
