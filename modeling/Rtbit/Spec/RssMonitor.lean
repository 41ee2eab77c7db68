import Mathlib.Tactic

/-! The RSS monitor (`rss/monitor.rs`) and its table of items (`rss/db.rs`). The feeds, the rules and what
a feed's server sends come from outside, and so do the times and what `Session::add_torrent` answers;
`regex` is `Regex::new` with `is_match`. -/

namespace Rtbit

structure FeedLink where
  href : String
  mediaType : Option String
  deriving DecidableEq, Repr

structure MediaContent where
  url : Option String
  size : Option ℕ
  deriving DecidableEq, Repr

/-- An entry of a feed, as `feed_rs` parses it. -/
structure FeedEntry where
  id : String
  title : Option String
  links : List FeedLink
  /-- The contents of each media object. -/
  media : List (List MediaContent)
  published : Option ℕ
  updated : Option ℕ
  deriving DecidableEq, Repr

structure RssFeedConfig where
  name : String
  category : Option String
  filterRegex : Option String
  enabled : Bool
  autoDownload : Bool
  deriving DecidableEq, Repr

structure RssRule where
  feedNames : List String
  category : Option String
  matchRegex : String
  enabled : Bool
  deriving DecidableEq, Repr

structure RssItem where
  id : String
  feedName : String
  title : String
  url : Option String
  publishedAt : Option ℕ
  firstSeenAt : ℕ
  downloaded : Bool
  downloadedAt : Option ℕ
  category : Option String
  sizeBytes : ℕ
  deriving DecidableEq, Repr

/-! The table `rss_items`: its rows in the order of their `rowid`. -/

namespace RssDatabase

def rssItemExists (items : List RssItem) (id : String) : Bool := items.any (·.id = id)

/-- `INSERT OR IGNORE`. -/
def rssItemUpsert (items : List RssItem) (item : RssItem) : List RssItem :=
  if rssItemExists items item.id then items else items ++ [item]

def rssItemMarkDownloaded (items : List RssItem) (id : String) (category : Option String) (now : ℕ) :
    List RssItem :=
  items.map fun r =>
    if r.id = id then { r with downloaded := true, downloadedAt := some now, category := category }
    else r

def rssItemCount (items : List RssItem) : ℕ := items.length

/-- The rows newest first; those of one time stay in order. -/
def newestFirst (items : List RssItem) : List RssItem :=
  items.insertionSort fun a b => b.firstSeenAt ≤ a.firstSeenAt

def rssItemsPrune (items : List RssItem) (keep : ℕ) : List RssItem :=
  items.filter fun r => r.id ∈ ((newestFirst items).take keep).map RssItem.id

end RssDatabase

def startsWith (s pre : String) : Bool := pre.toList.isPrefixOf s.toList

def endsWith (s suf : String) : Bool := suf.toList.isSuffixOf s.toList

def contains (s sub : String) : Bool := s.toList.tails.any sub.toList.isPrefixOf

/-- An entry of a poll, with the time at which it is reached and, should it be added, the answer of the
session and the time of that. -/
structure Polled where
  entry : FeedEntry
  now : ℕ
  accepted : Bool
  downloadedAt : ℕ
  deriving DecidableEq, Repr

/-- A feed that was fetched and parsed: what `check_feed` went by. -/
structure Poll where
  feed : RssFeedConfig
  rules : List RssRule
  entries : List FeedEntry
  deriving DecidableEq, Repr

/-- A call of `add_torrent`, with the feed and the entry it is for. -/
structure Added where
  feed : String
  id : String
  url : String
  category : Option String
  deriving DecidableEq, Repr

structure RssMonitor where
  items : List RssItem
  rssHistoryLimit : Option ℕ
  /-- The feeds that are left in this round of the loop; `none` while it sleeps. -/
  round : Option (List RssFeedConfig)
  /-- The polls so far. -/
  polls : List Poll
  /-- The calls of `add_torrent` so far. -/
  added : List Added
  deriving DecidableEq, Repr

inductive RssEvent where
  /-- A round begins with the feeds of `feed_list`. -/
  | feedList (feeds : List RssFeedConfig)
  /-- `check_feed` of the next feed, with the rules of `rss_rule_list`; `fetched` is `none` when the
  feed could not be fetched or parsed. -/
  | checkFeed (rules : List RssRule) (fetched : Option (List Polled))
  | pruneItems
  deriving DecidableEq, Repr

namespace RssMonitor

open RssDatabase

def new (rssHistoryLimit : Option ℕ) : RssMonitor := ⟨[], rssHistoryLimit, none, [], []⟩

def extractTorrentUrl (entry : FeedEntry) : Option String :=
  ((entry.links.find? fun l => startsWith l.href "magnet:").map FeedLink.href) <|>
  ((entry.links.find? fun l =>
    endsWith l.href ".torrent" || l.mediaType.any (· = "application/x-bittorrent")).map
      FeedLink.href) <|>
  ((entry.media.flatten.find? fun c =>
    c.url.any fun s => endsWith s ".torrent" || startsWith s "magnet:").bind MediaContent.url) <|>
  ((entry.links.find? fun l =>
    l.mediaType.any fun mt => contains mt "torrent" || contains mt "magnet").map FeedLink.href) <|>
  (entry.links.head?.map FeedLink.href)

def pruneItems (s : RssMonitor) : List RssItem :=
  let limit := s.rssHistoryLimit.getD 500
  if limit < rssItemCount s.items then rssItemsPrune s.items limit else s.items

variable (regex : String → Option (String → Bool))

/-- The filter of a feed, compiled; one that does not compile is no filter. -/
def feedFilter (feed : RssFeedConfig) : Option (String → Bool) := feed.filterRegex.bind regex

/-- The download rules for a feed. -/
def feedRules (feed : RssFeedConfig) (rules : List RssRule) : List RssRule :=
  rules.filter fun r => r.enabled && r.feedNames.any (· = feed.name)

/-- The loop of `check_feed` over the entries of its feed. -/
def checkEntry (feed : RssFeedConfig) (filter : Option (String → Bool)) (rules : List RssRule)
    (s : RssMonitor) (p : Polled) : RssMonitor :=
  let title := p.entry.title.getD ""
  let torrentUrl := extractTorrentUrl p.entry
  let item : RssItem :=
    { id := p.entry.id, feedName := feed.name, title := title, url := torrentUrl
      publishedAt := p.entry.published <|> p.entry.updated, firstSeenAt := p.now
      downloaded := false, downloadedAt := none, category := feed.category
      sizeBytes := (p.entry.media.flatten.findSome? MediaContent.size).getD 0 }
  if rssItemExists s.items p.entry.id then s -- Already processed
  else
    let s := { s with items := rssItemUpsert s.items item }
    match torrentUrl with
    | none => s
    | some url =>
      let passesFilter := filter.all (· title)
      if !passesFilter then s
      else
        let matchedRule := rules.find? fun r => ((regex r.matchRegex).map (· title)).getD false
        let (shouldDownload, category) :=
          match matchedRule with
          | some rule => (true, rule.category <|> feed.category)
          | none =>
            if feed.autoDownload && feed.filterRegex.isNone then (true, feed.category)
            else (false, none)
        if !shouldDownload then s
        else
          let s := { s with added := s.added ++ [⟨feed.name, p.entry.id, url, category⟩] }
          if p.accepted then
            { s with items := rssItemMarkDownloaded s.items p.entry.id category p.downloadedAt }
          else s

def checkFeed (s : RssMonitor) (feed : RssFeedConfig) (rules : List RssRule)
    (fetched : Option (List Polled)) : RssMonitor :=
  match fetched with
  | none => s
  | some entries =>
    let s := { s with polls := s.polls ++ [⟨feed, rules, entries.map Polled.entry⟩] }
    entries.foldl (checkEntry regex feed (feedFilter regex feed) (feedRules feed rules)) s

/-- The loop of `run`. -/
def step (s : RssMonitor) : RssEvent → Option RssMonitor
  | .feedList feeds =>
    match s.round with
    | some _ => none
    | none =>
      if feeds.isEmpty then some s
      else some { s with round := some (feeds.filter RssFeedConfig.enabled) }
  | .checkFeed rules fetched =>
    match s.round with
    | some (feed :: rest) =>
      some { s.checkFeed regex feed rules fetched with round := some rest }
    | _ => none
  | .pruneItems =>
    match s.round with
    | some [] => some { s with items := s.pruneItems, round := none }
    | _ => none

end RssMonitor

end Rtbit
