import Rtbit.Lib.Blocks
import Rtbit.Spec.TorrentLists

/-! The pages of the two lists of torrents. `api_torrent_list_ext` gives what lies behind the offset, up
to the limit. `h_torrents_info` keeps the whole list when the offset is not inside it, so that a client
that asks for one page after the other never sees an empty one. -/

namespace Rtbit

variable {α : Type}

/-- What lies behind the offset, up to the limit. -/
def slice (offset limit : Option ℕ) (l : List α) : List α :=
  match limit with
  | some limit => (l.drop (offset.getD 0)).take limit
  | none => l.drop (offset.getD 0)

/-- The pages at `0`, `pageSize`, `2 * pageSize` and so on, up to the first that is empty, are the list. -/
def PagesOf (page : ℕ → List α) (pageSize : ℕ) (l : List α) : Prop :=
  ∃ n, (∀ k < n, page (k * pageSize) ≠ []) ∧
    (List.range n).flatMap (fun k => page (k * pageSize)) = l ∧ page (n * pageSize) = []

/-- Pages that are slices are the blocks of the list. -/
theorem pagesOf_slice {page : ℕ → List α} {pageSize : ℕ} {l : List α} (hpos : 0 < pageSize)
    (h : ∀ offset, page offset = slice (some offset) (some pageSize) l) : PagesOf page pageSize l := by
  have hblock : ∀ k, page (k * pageSize) = Lib.block pageSize l k := fun k => h _
  have hn : l.length ≤ Lib.blockCount pageSize l.length * pageSize :=
    Nat.le_of_not_lt fun hlt => absurd ((Lib.lt_blockCount hpos).2 hlt) (Nat.lt_irrefl _)
  refine ⟨Lib.blockCount pageSize l.length, fun k hk => ?_, ?_, ?_⟩
  · rw [hblock, Ne, Lib.block_eq_nil hpos]
    exact Nat.not_le_of_lt ((Lib.lt_blockCount hpos).1 hk)
  · simp only [hblock]
    rw [Lib.flatMap_block, List.take_of_length_le hn]
  · rw [hblock, Lib.block_eq_nil hpos]
    exact hn

/-- Pages of a list that has entries come to an end. -/
theorem not_pagesOf_of_ne_nil {page : ℕ → List α} {pageSize : ℕ} {l : List α}
    (h : ∀ offset, page offset ≠ []) : ¬ PagesOf page pageSize l := by
  rintro ⟨n, -, -, hempty⟩
  exact h _ hempty

namespace TorrentsInfoQuery

variable {F : Type} (partialCmp : F → F → Option Ordering) (query : TorrentsInfoQuery)
  (torrents : List (QbitTorrentInfo F))

@[simp] theorem length_sorted : (query.sorted partialCmp torrents).length = torrents.length := by
  unfold sorted
  split
  · rfl
  · exact List.length_mergeSort _

/-- The offset is one that `h_torrents_info` drops, or there is nothing to drop or to give. -/
def InRange (query : TorrentsInfoQuery) (torrents : List (QbitTorrentInfo F)) : Prop :=
  query.offset.getD 0 = 0 ∨ query.offset.getD 0 < torrents.length ∨ torrents = [] ∨
    query.limit = some 0

theorem hTorrentsInfo_eq_nil (hne : torrents ≠ []) :
    query.hTorrentsInfo partialCmp torrents = [] ↔ query.limit = some 0 := by
  have hlen := List.length_pos_iff.2 hne
  rw [← List.length_eq_zero_iff]
  unfold hTorrentsInfo
  cases hlimit : query.limit with
  | none =>
    simp only [reduceCtorEq, iff_false]
    split_ifs with hoff
    · rw [List.length_drop]
      omega
    · rw [length_sorted]
      omega
  | some limit =>
    simp only [Option.some.injEq, List.length_take]
    split_ifs with hoff
    · rw [List.length_drop]
      omega
    · rw [length_sorted]
      omega

/-- The page is the slice of the sorted list exactly for such an offset. -/
theorem hTorrentsInfo_eq_slice_iff :
    query.hTorrentsInfo partialCmp torrents =
      slice query.offset query.limit (query.sorted partialCmp torrents) ↔ query.InRange torrents := by
  by_cases hne : torrents = []
  · have hnil : query.sorted partialCmp torrents = [] := by
      rw [← List.length_eq_zero_iff, length_sorted, hne, List.length_nil]
    have hin : query.InRange torrents := .inr (.inr (.inl hne))
    simp only [hin, iff_true]
    unfold hTorrentsInfo slice
    rw [hnil]
    cases query.limit <;> simp
  by_cases hlimit : query.limit = some 0
  · have hin : query.InRange torrents := .inr (.inr (.inr hlimit))
    simp only [hin, iff_true]
    rw [(hTorrentsInfo_eq_nil partialCmp query torrents hne).2 hlimit]
    unfold slice
    rw [hlimit]
    exact List.take_zero.symm
  have hlen := length_sorted partialCmp query torrents
  by_cases hoff : query.offset.getD 0 = 0 ∨ query.offset.getD 0 < torrents.length
  · have hin : query.InRange torrents := hoff.imp_right .inl
    simp only [hin, iff_true]
    have hdrop : (if 0 < query.offset.getD 0 ∧ query.offset.getD 0 <
        (query.sorted partialCmp torrents).length then
          (query.sorted partialCmp torrents).drop (query.offset.getD 0)
        else query.sorted partialCmp torrents) =
        (query.sorted partialCmp torrents).drop (query.offset.getD 0) := by
      split_ifs with h
      · rfl
      · rw [show query.offset.getD 0 = 0 by omega, List.drop_zero]
    unfold hTorrentsInfo slice
    cases query.limit with
    | none => exact hdrop
    | some limit => exact congrArg (List.take limit) hdrop
  · -- the whole list is kept where nothing is left
    have hout : ¬ query.InRange torrents := by
      rintro (h | h | h | h)
      · exact hoff (.inl h)
      · exact hoff (.inr h)
      · exact hne h
      · exact hlimit h
    simp only [hout, iff_false]
    have hslice : slice query.offset query.limit (query.sorted partialCmp torrents) = [] := by
      unfold slice
      rw [List.drop_eq_nil_of_le (by omega)]
      cases query.limit <;> simp
    rw [hslice, hTorrentsInfo_eq_nil partialCmp query torrents hne]
    exact hlimit

end TorrentsInfoQuery

namespace ApiTorrentListOpts

variable {S : Type} (opts : ApiTorrentListOpts) (torrents : List (ℕ × ListedTorrent S))

theorem apiTorrentListExt_torrents :
    (opts.apiTorrentListExt torrents).torrents =
      slice opts.offset opts.limit (torrents.map opts.details) := by
  unfold apiTorrentListExt slice
  cases opts.limit <;> simp [List.map_take, List.map_drop]

end ApiTorrentListOpts

section

variable {F S : Type} (partialCmp : F → F → Option Ordering)

/-- The query for the page of a size at an offset. -/
def TorrentsInfoQuery.at (query : TorrentsInfoQuery) (pageSize offset : ℕ) : TorrentsInfoQuery :=
  { query with offset := some offset, limit := some pageSize }

def ApiTorrentListOpts.at (opts : ApiTorrentListOpts) (pageSize offset : ℕ) : ApiTorrentListOpts :=
  { opts with offset := some offset, limit := some pageSize }

/-- `h_torrents_info` has a page that is a slice of its list exactly when the offset is in range, and
pages that come to an end exactly when the list is empty; `api_torrent_list_ext` has both always. -/
theorem pages_iff_inRange (query : TorrentsInfoQuery) (torrents : List (QbitTorrentInfo F))
    (opts : ApiTorrentListOpts) (listed : List (ℕ × ListedTorrent S)) :
    (query.hTorrentsInfo partialCmp torrents =
      slice query.offset query.limit (query.sorted partialCmp torrents) ↔ query.InRange torrents) ∧
    (∀ pageSize, 0 < pageSize →
      (PagesOf (fun offset => (query.at pageSize offset).hTorrentsInfo partialCmp torrents) pageSize
        (query.sorted partialCmp torrents) ↔ torrents = [])) ∧
    opts.apiTorrentListExt listed =
      ⟨slice opts.offset opts.limit (listed.map opts.details), listed.length⟩ ∧
    ∀ pageSize, 0 < pageSize →
      PagesOf (fun offset => ((opts.at pageSize offset).apiTorrentListExt listed).torrents) pageSize
        (listed.map opts.details) := by
  refine ⟨query.hTorrentsInfo_eq_slice_iff partialCmp torrents, fun pageSize hpos => ?_, ?_,
    fun pageSize hpos => ?_⟩
  · constructor
    · intro hpages
      by_contra hne
      refine not_pagesOf_of_ne_nil (fun offset => ?_) hpages
      rw [Ne, TorrentsInfoQuery.hTorrentsInfo_eq_nil partialCmp _ torrents hne]
      simp only [TorrentsInfoQuery.at, Option.some.injEq]
      omega
    · rintro rfl
      refine pagesOf_slice hpos fun offset => ?_
      exact ((query.at pageSize offset).hTorrentsInfo_eq_slice_iff partialCmp []).2
        (.inr (.inr (.inl rfl)))
  · rw [← opts.apiTorrentListExt_torrents listed]
    rfl
  · exact pagesOf_slice hpos fun offset =>
      (opts.at pageSize offset).apiTorrentListExt_torrents listed

def torrentNamed (name : String) : QbitTorrentInfo ℕ :=
  ⟨0, 0, 0, 0, "", name, 0, 0, "", 0, 0, 0⟩

def listedAs (name : String) : ListedTorrent Unit := ⟨"", some name, "", none, (), none⟩

def allTorrents : TorrentsInfoQuery := ⟨none, none, none, none⟩

theorem twoTorrents_paged :
    ((allTorrents.at 1 1).hTorrentsInfo (fun a b => some (compare a b))
        [torrentNamed "a", torrentNamed "b"] =
      slice (some 1) (some 1) [torrentNamed "a", torrentNamed "b"]) ∧
    PagesOf (fun offset => ((ApiTorrentListOpts.at ⟨false, none, none⟩ 1 offset).apiTorrentListExt
      [(0, listedAs "a"), (1, listedAs "b")]).torrents) 1
      ([(0, listedAs "a"), (1, listedAs "b")].map (ApiTorrentListOpts.details ⟨false, none, none⟩)) := by
  have h := pages_iff_inRange (fun a b : ℕ => some (compare a b)) (allTorrents.at 1 1)
    [torrentNamed "a", torrentNamed "b"] ⟨false, none, none⟩ [(0, listedAs "a"), (1, listedAs "b")]
  exact ⟨h.1.2 (.inr (.inl (by decide))), h.2.2.2 1 Nat.one_pos⟩

/-- At an offset of two in a list of two, the page is the whole list, and so pages of one never end. -/
theorem pastEnd_page_full :
    (allTorrents.at 2 2).hTorrentsInfo (fun a b : ℕ => some (compare a b))
        [torrentNamed "a", torrentNamed "b"] = [torrentNamed "a", torrentNamed "b"] ∧
    slice (some 2) (some 2) [torrentNamed "a", torrentNamed "b"] = [] ∧
    ¬ PagesOf (fun offset => (allTorrents.at 1 offset).hTorrentsInfo
      (fun a b : ℕ => some (compare a b)) [torrentNamed "a", torrentNamed "b"]) 1
      [torrentNamed "a", torrentNamed "b"] := by
  refine ⟨rfl, rfl, not_pagesOf_of_ne_nil fun offset => ?_⟩
  rw [Ne, TorrentsInfoQuery.hTorrentsInfo_eq_nil _ _ _ (List.cons_ne_nil _ _)]
  simp [TorrentsInfoQuery.at]

end

end Rtbit
