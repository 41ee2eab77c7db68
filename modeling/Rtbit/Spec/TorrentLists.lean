import Mathlib.Tactic

/-! The two lists of torrents: `Api::api_torrent_list_ext` (`api.rs`) and `h_torrents_info`
(`http_api/handlers/qbit_compat.rs`), from the torrents that pass the filters of the query. `F` is `f64`,
with `partialCmp` on it, and `S` the statistics of a torrent. -/

namespace Rtbit

/-- What a sort goes by of an entry of `/api/v2/torrents/info`. -/
structure QbitTorrentInfo (F : Type) where
  addedOn : ℕ
  dlspeed : ℕ
  downloaded : ℕ
  eta : ℤ
  hash : String
  name : String
  progress : F
  ratio : F
  state : String
  totalSize : ℕ
  uploaded : ℕ
  upspeed : ℕ
  deriving DecidableEq, Repr

structure TorrentsInfoQuery where
  sort : Option String
  reverse : Option Bool
  limit : Option ℕ
  offset : Option ℕ
  deriving DecidableEq, Repr

namespace TorrentsInfoQuery

variable {F : Type} (partialCmp : F → F → Option Ordering)

def compareBy (sortField : String) (a b : QbitTorrentInfo F) : Ordering :=
  match sortField with
  | "name" => compare a.name b.name
  | "size" | "total_size" => compare a.totalSize b.totalSize
  | "progress" => (partialCmp a.progress b.progress).getD .eq
  | "dlspeed" => compare a.dlspeed b.dlspeed
  | "upspeed" => compare a.upspeed b.upspeed
  | "eta" => compare a.eta b.eta
  | "state" => compare a.state b.state
  | "added_on" => compare a.addedOn b.addedOn
  | "hash" => compare a.hash b.hash
  | "downloaded" => compare a.downloaded b.downloaded
  | "uploaded" => compare a.uploaded b.uploaded
  | "ratio" => (partialCmp a.ratio b.ratio).getD .eq
  | _ => .eq

/-- `sort_by` is stable. -/
def sorted (query : TorrentsInfoQuery) (torrents : List (QbitTorrentInfo F)) :
    List (QbitTorrentInfo F) :=
  match query.sort with
  | none => torrents
  | some sortField =>
    let reverse := query.reverse.getD false
    torrents.mergeSort fun a b =>
      let cmp := compareBy partialCmp sortField a b
      (if reverse then cmp.swap else cmp).isLE

/-- `h_torrents_info`. -/
def hTorrentsInfo (query : TorrentsInfoQuery) (torrents : List (QbitTorrentInfo F)) :
    List (QbitTorrentInfo F) :=
  let torrents := query.sorted partialCmp torrents
  let offset := query.offset.getD 0
  let torrents :=
    if 0 < offset ∧ offset < torrents.length then torrents.drop offset else torrents
  match query.limit with
  | some limit => torrents.take limit
  | none => torrents

end TorrentsInfoQuery

/-- What the list shows of a managed torrent. -/
structure ListedTorrent (S : Type) where
  infoHash : String
  name : Option String
  outputFolder : String
  /-- The number of pieces, once there is metadata. -/
  totalPieces : Option ℕ
  stats : S
  category : Option String
  deriving DecidableEq, Repr

structure TorrentDetailsResponse (S : Type) where
  id : Option ℕ
  infoHash : String
  name : Option String
  outputFolder : String
  totalPieces : ℕ
  stats : Option S
  category : Option String
  deriving DecidableEq, Repr

structure TorrentListResponse (S : Type) where
  torrents : List (TorrentDetailsResponse S)
  total : ℕ
  deriving DecidableEq, Repr

structure ApiTorrentListOpts where
  withStats : Bool
  limit : Option ℕ
  offset : Option ℕ
  deriving DecidableEq, Repr

namespace ApiTorrentListOpts

variable {S : Type}

def details (opts : ApiTorrentListOpts) (torrent : ℕ × ListedTorrent S) : TorrentDetailsResponse S :=
  let (id, mgr) := torrent
  { id := some id, infoHash := mgr.infoHash, name := mgr.name, outputFolder := mgr.outputFolder
    totalPieces := mgr.totalPieces.getD 0
    stats := if opts.withStats then some mgr.stats else none
    category := mgr.category }

/-- `api_torrent_list_ext`. -/
def apiTorrentListExt (opts : ApiTorrentListOpts) (torrents : List (ℕ × ListedTorrent S)) :
    TorrentListResponse S :=
  let offset := opts.offset.getD 0
  let total := torrents.length
  let iter := torrents.drop offset
  let iter :=
    match opts.limit with
    | some limit => iter.take limit
    | none => iter
  ⟨iter.map opts.details, total⟩

end ApiTorrentListOpts

end Rtbit
