import Rtbit.Spec.SessionPersistence

/-! A torrent that is stored, read back and added again. A torrent file is added again with the
trackers it announces, without those of `AddTorrentOptions::trackers`; the table of the
PostgreSQL store has no column for the category. -/

namespace Rtbit

namespace SessionPersistence

variable {H : Type}

/-- What storing `t` and adding it again relies on outside of the repository. -/
structure Crates.Laws (c : Crates H) (t : ManagedTorrent H) : Prop where
  /-- The serialization of a URL parses to that URL. -/
  urlParse_self : ∀ {s u}, c.urlParse s = some u → c.urlParse u = some u
  urlParse_empty : c.urlParse "" = none
  /-- `Magnet::from_id20(...).to_string()` parses back. -/
  magnetParse_toString :
    c.magnetParse (c.magnetToString ⟨some t.infoHash, c.iter t.trackers, t.onlyFiles, none⟩) =
      some ⟨some t.infoHash, c.iter t.trackers, t.onlyFiles, none⟩
  mem_iter : ∀ u, u ∈ c.iter t.trackers ↔ u ∈ t.trackers
  /-- No bytes at all are not a torrent file. -/
  torrentFromBytes_nil : c.torrentFromBytes [] = none
  /-- `iter_announce` yields the `announce-list`, or `announce` if that is empty. -/
  torrentFromBytes_bencode : ∀ h info, c.readMetainfo h = some info → ∀ announce list,
    c.torrentFromBytes (c.bencode announce list info.bytes) =
      some ⟨h, if list.flatten ≠ [] then list.flatten else [announce], info⟩
  /-- The info hash determines the info dictionary. -/
  readMetainfo_eq : ∀ {bytes torrent info}, c.torrentFromBytes bytes = some torrent →
    c.readMetainfo torrent.infoHash = some info → info = torrent.info

/-- The files that are selected are files of the torrent. -/
def InRange (onlyFiles : Option (List ℕ)) (info : TorrentInfo) : Prop :=
  ∀ l, onlyFiles = some l → ∀ i ∈ l, i < info.fileNames.length

/-- The torrent that the call has added, as it is after `pause`, `unpause`, `update_only_files`
and changes of the category. -/
structure Managed (c : Crates H) (folders : Folders) (add : AddTorrent) (opts : AddTorrentOptions)
    (t : ManagedTorrent H) : Prop where
  added : ∃ nextId t₀, c.addTorrent folders nextId add opts = some t₀ ∧
    t = { t₀ with paused := t.paused, onlyFiles := t.onlyFiles, category := t.category }
  inRange : InRange t.onlyFiles t.metadata.info

/-- The trackers that come from the torrent file. -/
def Crates.fileTrackers (c : Crates H) (torrent : TorrentMeta H) : Finset String :=
  (torrent.announce.filterMap c.urlParse).toFinset

/-- Every URL among the extra trackers is announced by the torrent file. -/
def Crates.Announces (c : Crates H) (bytes : List UInt8) (extra : List String) : Prop :=
  ∀ torrent, c.torrentFromBytes bytes = some torrent →
    ∀ s ∈ extra, ∀ u, c.urlParse s = some u → u ∈ c.fileTrackers torrent

/-- A torrent file was added without extra trackers, or with such as it announces itself. -/
def Crates.AnnouncesExtra (c : Crates H) (add : AddTorrent) (opts : AddTorrentOptions) : Prop :=
  match add with
  | .torrentFileBytes bytes => c.Announces bytes (opts.trackers.getD [])
  | .http url => ∀ bytes, c.get url = some bytes → c.Announces bytes (opts.trackers.getD [])
  | .magnet _ | .unsupported _ => True

/-- What a restart has to bring back. -/
structure Same (t t' : ManagedTorrent H) : Prop where
  id : t'.id = t.id
  infoHash : t'.infoHash = t.infoHash
  trackers : t'.trackers = t.trackers
  onlyFiles : t'.onlyFiles = t.onlyFiles
  paused : t'.paused = t.paused
  outputFolder : t'.outputFolder = t.outputFolder
  category : t'.category = t.category

variable {c : Crates H} {folders : Folders} {add : AddTorrent} {opts : AddTorrentOptions}
  {t : ManagedTorrent H}

theorem addTorrentInternal_eq_some {nextId : ℕ} {r : Crates.InternalAddResult H}
    (h : c.addTorrentInternal folders nextId r opts = some t) :
    t.infoHash = r.infoHash ∧ t.trackers = r.trackers.toFinset ∧
      (r.metadata = some t.metadata ∨ r.metadata = none ∧ ∃ info,
        c.readMetainfo r.infoHash = some info ∧
        t.metadata = ⟨info, c.torrentFileFromInfoBytes info.bytes r.trackers⟩) := by
  unfold Crates.addTorrentInternal at h
  obtain ⟨metadata, hm, h⟩ := Option.bind_eq_some_iff.1 h
  obtain ⟨onlyFiles, -, h⟩ := Option.bind_eq_some_iff.1 h
  obtain ⟨outputFolder, -, rfl⟩ := Option.map_eq_some_iff.1 h
  refine ⟨rfl, rfl, ?_⟩
  rcases Option.or_eq_some_iff.1 hm with hm | ⟨hn, hm⟩
  · exact Or.inl hm
  · obtain ⟨info, hi, rfl⟩ := Option.map_eq_some_iff.1 hm
    exact Or.inr ⟨hn, info, hi, rfl⟩

/-- The torrent file that is kept of a torrent, and its trackers against those of the torrent. -/
structure Kept (c : Crates H) (t : ManagedTorrent H) (torrent : TorrentMeta H) (same : Prop) :
    Prop where
  parsed : c.torrentFromBytes t.metadata.torrentBytes = some torrent
  infoHash : torrent.infoHash = t.infoHash
  info : torrent.info = t.metadata.info
  trackers : c.fileTrackers torrent = t.trackers ↔ same

theorem kept_of_bytes {nextId : ℕ} {bytes : List UInt8} {r : Crates.InternalAddResult H}
    {opts' : AddTorrentOptions} (hr : c.addFromBytes bytes opts = some (r, opts'))
    (h : c.addTorrentInternal folders nextId r opts' = some t) :
    ∃ torrent, Kept c t torrent (c.Announces bytes (opts.trackers.getD [])) := by
  obtain ⟨torrent, hp, he⟩ := Option.map_eq_some_iff.1 hr
  obtain ⟨rfl, rfl⟩ := Prod.mk.inj he
  obtain ⟨hh, ht, hm⟩ := addTorrentInternal_eq_some h
  rcases hm with hm | ⟨hn, -⟩
  · obtain hm := Option.some.inj hm
    refine ⟨torrent, by rw [← hm]; exact hp, hh.symm, by rw [← hm], ?_⟩
    rw [ht, List.filterMap_append, List.toFinset_append]
    have hd : (torrent.announce.dedup.filterMap c.urlParse).toFinset = c.fileTrackers torrent := by
      ext u
      simp [Crates.fileTrackers]
    rw [hd, eq_comm, Finset.union_eq_left]
    constructor
    · intro hsub torrent' hp' s hs u hu
      rw [hp] at hp'
      obtain rfl := Option.some.inj hp'
      exact hsub (List.mem_toFinset.2 (List.mem_filterMap.2 ⟨s, hs, hu⟩))
    · intro hann u hu
      obtain ⟨s, hs, hu⟩ := List.mem_filterMap.1 (List.mem_toFinset.1 hu)
      exact hann torrent hp s hs u hu
  · cases hn

/-- The torrent file written for a magnet announces its trackers, all in one tier. -/
theorem kept_of_magnet {t' : ManagedTorrent H} (hc : c.Laws t') {nextId : ℕ}
    {r : Crates.InternalAddResult H} {opts' : AddTorrentOptions} {trackers : List String}
    (hm : r.metadata = none) (htr : r.trackers = trackers.filterMap c.urlParse)
    (h : c.addTorrentInternal folders nextId r opts' = some t) :
    ∃ torrent, Kept c t torrent True := by
  obtain ⟨hh, ht, hmeta⟩ := addTorrentInternal_eq_some h
  rcases hmeta with hs | ⟨-, info, hi, hmeta⟩
  · rw [hm] at hs
    cases hs
  · have hp := hc.torrentFromBytes_bencode _ _ hi (r.trackers.head?.getD "") [r.trackers]
    refine ⟨_, by rw [hmeta]; exact hp, hh.symm, by rw [hmeta], ?_⟩
    simp only [iff_true]
    have hself : r.trackers.filterMap c.urlParse = r.trackers := by
      rw [htr]
      have hall : ∀ u ∈ trackers.filterMap c.urlParse, c.urlParse u = some u := by
        intro u hu
        obtain ⟨s, -, hs⟩ := List.mem_filterMap.1 hu
        exact hc.urlParse_self hs
      rw [List.filterMap_congr hall, List.filterMap_some]
    rw [ht, Crates.fileTrackers]
    cases hl : r.trackers with
    | nil => simp [hc.urlParse_empty]
    | cons u us =>
      rw [hl] at hself
      simp [hself]

theorem computeOnlyFiles_inRange {onlyFiles : Option (List ℕ)} {info : TorrentInfo}
    (h : InRange onlyFiles info) : c.computeOnlyFiles info onlyFiles none = some onlyFiles := by
  cases onlyFiles with
  | none => rfl
  | some l => exact if_pos (h l rfl)

theorem Managed.kept (hc : c.Laws t) (h : Managed c folders add opts t) :
    ∃ torrent, Kept c t torrent (c.AnnouncesExtra add opts) := by
  obtain ⟨nextId, t₀, ha, he⟩ := h.added
  suffices hk : ∃ torrent, Kept c t₀ torrent (c.AnnouncesExtra add opts) by
    obtain ⟨torrent, hk⟩ := hk
    rw [he]
    exact ⟨torrent, hk.parsed, hk.infoHash, hk.info, hk.trackers⟩
  obtain ⟨⟨r, opts'⟩, hr, hi⟩ := Option.bind_eq_some_iff.1 ha
  cases add with
  | magnet magnet =>
    obtain ⟨m, -, hr⟩ := Option.bind_eq_some_iff.1 hr
    obtain ⟨infoHash, -, he⟩ := Option.map_eq_some_iff.1 hr
    obtain ⟨rfl, rfl⟩ := Prod.mk.inj he
    exact kept_of_magnet hc rfl rfl hi
  | http url =>
    obtain ⟨bytes, hg, hr⟩ := Option.bind_eq_some_iff.1 hr
    obtain ⟨torrent, hk⟩ := kept_of_bytes hr hi
    refine ⟨torrent, hk.parsed, hk.infoHash, hk.info, hk.trackers.trans ?_⟩
    constructor
    · intro ha bytes' hg'
      rw [hg] at hg'
      obtain rfl := Option.some.inj hg'
      exact ha
    · intro ha
      exact ha bytes hg
  | unsupported url => cases hr
  | torrentFileBytes bytes => exact kept_of_bytes hr hi

/-- Every tracker of a managed torrent is a URL. -/
theorem Managed.urlParse_trackers (hc : c.Laws t) (h : Managed c folders add opts t) :
    ∀ u ∈ t.trackers, c.urlParse u = some u := by
  obtain ⟨nextId, t₀, ha, he⟩ := h.added
  obtain ⟨⟨r, opts'⟩, hr, hi⟩ := Option.bind_eq_some_iff.1 ha
  obtain ⟨-, ht, -⟩ := addTorrentInternal_eq_some hi
  have hfrom : ∃ l : List String, r.trackers = l.filterMap c.urlParse := by
    cases add with
    | magnet magnet =>
      obtain ⟨m, -, hr⟩ := Option.bind_eq_some_iff.1 hr
      obtain ⟨infoHash, -, hr⟩ := Option.map_eq_some_iff.1 hr
      exact ⟨_, by rw [← (Prod.mk.inj hr).1]⟩
    | http url =>
      obtain ⟨bytes, -, hr⟩ := Option.bind_eq_some_iff.1 hr
      obtain ⟨torrent, -, hr⟩ := Option.map_eq_some_iff.1 hr
      exact ⟨_, by rw [← (Prod.mk.inj hr).1]⟩
    | unsupported url => cases hr
    | torrentFileBytes bytes =>
      obtain ⟨torrent, -, hr⟩ := Option.map_eq_some_iff.1 hr
      exact ⟨_, by rw [← (Prod.mk.inj hr).1]⟩
  obtain ⟨l, hl⟩ := hfrom
  intro u hu
  rw [he] at hu
  rw [ht, hl, List.mem_toFinset, List.mem_filterMap] at hu
  obtain ⟨s, -, hs⟩ := hu
  exact hc.urlParse_self hs

/-- A stored torrent with its file is added again with the trackers of the file. -/
theorem restore_of_bytes (hc : c.Laws t) (folders : Folders) (st : SerializedTorrent H)
    {torrent : TorrentMeta H} (hp : c.torrentFromBytes st.torrentBytes = some torrent)
    (hr : InRange st.onlyFiles torrent.info) (id nextId : ℕ) : c.restore folders id nextId st = some
      { id, infoHash := torrent.infoHash, trackers := c.fileTrackers torrent,
        outputFolder := st.outputFolder, category := st.category, filesystem := true,
        metadata := ⟨torrent.info, st.torrentBytes⟩, paused := st.isPaused,
        onlyFiles := st.onlyFiles } := by
  have hne : st.torrentBytes ≠ [] := by
    intro hnil
    rw [hnil, hc.torrentFromBytes_nil] at hp
    cases hp
  have hd : (torrent.announce.dedup.filterMap c.urlParse).toFinset = c.fileTrackers torrent := by
    ext u
    simp [Crates.fileTrackers]
  simp [Crates.restore, Crates.intoAddTorrent, Crates.addTorrent, Crates.addResult,
    Crates.addFromBytes, Crates.addTorrentInternal, Crates.outputFolder, hne, hp, hd,
    computeOnlyFiles_inRange hr]

/-- A stored torrent without its file is added again as a magnet. -/
theorem restore_of_magnet (hc : c.Laws t) (folders : Folders)
    (hu : ∀ u ∈ t.trackers, c.urlParse u = some u) {info : TorrentInfo}
    (hi : c.readMetainfo t.infoHash = some info) (hr : InRange t.onlyFiles info)
    (id nextId : ℕ) : ∃ metadata, c.restore folders id nextId (snapshot t) = some
      { id, infoHash := t.infoHash, trackers := t.trackers,
        outputFolder := t.outputFolder, category := t.category, filesystem := true,
        metadata, paused := t.paused, onlyFiles := t.onlyFiles } := by
  have ht : ((c.iter t.trackers).filterMap c.urlParse).toFinset = t.trackers := by
    have hall : ∀ u ∈ c.iter t.trackers, c.urlParse u = some u :=
      fun u hm => hu u ((hc.mem_iter _).1 hm)
    rw [List.filterMap_congr hall, List.filterMap_some]
    ext u
    rw [List.mem_toFinset, hc.mem_iter]
  refine ⟨⟨info, c.torrentFileFromInfoBytes info.bytes
    ((c.iter t.trackers).filterMap c.urlParse)⟩, ?_⟩
  simp [Crates.restore, Crates.intoAddTorrent, Crates.addTorrent, Crates.addResult,
    Crates.addTorrentInternal, Crates.outputFolder, snapshot, hc.magnetParse_toString, hi, ht,
    computeOnlyFiles_inRange hr]

theorem restore_unresolved (hc : c.Laws t) (folders : Folders)
    (hi : c.readMetainfo t.infoHash = none) (id nextId : ℕ) :
    c.restore folders id nextId (snapshot t) = none := by
  simp [Crates.restore, Crates.intoAddTorrent, Crates.addTorrent, Crates.addResult,
    Crates.addTorrentInternal, snapshot, hc.magnetParse_toString, hi]

/-- After a restart the JSON store has the snapshot of the torrent, with the bytes of its file. -/
theorem json_get_store [DecidableEq H] {db db' : JsonStore H} {fails : Bool}
    (hs : db.store t.id t fails = (.ok (), db')) (hb : t.metadata.torrentBytes ≠ [])
    (readable : Bool) : db'.reopen.get t.id readable =
      some { snapshot t with torrentBytes := if readable then t.metadata.torrentBytes else [] } := by
  cases hf : t.filesystem <;> cases fails <;>
    simp [JsonStore.store, JsonStore.updateDb, JsonStore.flush, hf] at hs
  subst hs
  simp [JsonStore.reopen, JsonStore.get, JsonStore.insert, JsonStore.writeTorrentFile, hb, snapshot]

theorem toI32_eq_self {l : List ℕ} : toI32 l = l ↔ ∀ i ∈ l, i < 2 ^ 31 := by
  simp [toI32, List.filter_eq_self]

/-- What is stored with the bytes of the file comes back as the torrent exactly if the file has its
trackers and the rest is what it was. -/
theorem Kept.restore_iff {torrent : TorrentMeta H} {same : Prop} {st : SerializedTorrent H}
    (hk : Kept c t torrent same) (hc : c.Laws t)
    (hbytes : st.torrentBytes = t.metadata.torrentBytes) (hr : InRange st.onlyFiles torrent.info)
    (hpaused : st.isPaused = t.paused) (hfolder : st.outputFolder = t.outputFolder)
    (folders : Folders) (nextId : ℕ) :
    (∃ t', c.restore folders t.id nextId st = some t' ∧ Same t t') ↔
      same ∧ st.onlyFiles = t.onlyFiles ∧ st.category = t.category := by
  have hres := restore_of_bytes hc folders st (hbytes ▸ hk.parsed) hr t.id nextId
  rw [← hk.trackers]
  refine ⟨?_, ?_⟩
  · rintro ⟨t', ht', hsame⟩
    obtain rfl := Option.some.inj (hres.symm.trans ht')
    exact ⟨hsame.trackers, hsame.onlyFiles, hsame.category⟩
  · rintro ⟨htrackers, honly, hcategory⟩
    exact ⟨_, hres, rfl, hk.infoHash, htrackers, honly, hpaused, hfolder, hcategory⟩

/-- What is stored without the bytes comes back as the torrent exactly if peers send the metadata. -/
theorem Kept.restore_magnet_iff {torrent : TorrentMeta H} {same : Prop}
    (hk : Kept c t torrent same) (hc : c.Laws t) (hu : ∀ u ∈ t.trackers, c.urlParse u = some u)
    (hr : InRange t.onlyFiles torrent.info) (folders : Folders) (nextId : ℕ) :
    (∃ t', c.restore folders t.id nextId (snapshot t) = some t' ∧ Same t t') ↔
      (c.readMetainfo t.infoHash).isSome = true := by
  cases hi : c.readMetainfo t.infoHash with
  | none =>
    refine ⟨?_, fun h => by cases h⟩
    rintro ⟨t', ht', -⟩
    cases (restore_unresolved hc folders hi t.id nextId).symm.trans ht'
  | some info =>
    have hinfo : info = torrent.info := hc.readMetainfo_eq hk.parsed (hk.infoHash ▸ hi)
    obtain ⟨metadata, hres⟩ := restore_of_magnet hc folders hu hi (hinfo ▸ hr) t.id nextId
    exact ⟨fun _ => rfl, fun _ => ⟨_, hres, rfl, rfl, rfl, rfl, rfl, rfl, rfl⟩⟩

theorem Kept.torrentBytes_ne_nil {torrent : TorrentMeta H} {same : Prop}
    (hk : Kept c t torrent same) (hc : c.Laws t) : t.metadata.torrentBytes ≠ [] := by
  intro hnil
  have hp := hk.parsed
  rw [hnil, hc.torrentFromBytes_nil] at hp
  cases hp

/-- The column of the table has 32 bits with a sign. -/
theorem map_toI32_eq_iff {onlyFiles : Option (List ℕ)} : onlyFiles.map toI32 = onlyFiles ↔
    ∀ l, onlyFiles = some l → ∀ i ∈ l, i < 2 ^ 31 := by
  cases onlyFiles with
  | none => simp
  | some l => simp [toI32_eq_self]

theorem InRange.toI32 {onlyFiles : Option (List ℕ)} {info : TorrentInfo}
    (h : InRange onlyFiles info) : InRange (onlyFiles.map toI32) info := by
  intro l hl i hi
  obtain ⟨l', hl', rfl⟩ := Option.map_eq_some_iff.1 hl
  exact h l' hl' i (List.mem_of_mem_filter hi)

/-- With the JSON store a managed torrent comes back as it was if and only if its file cannot be
read and peers send its metadata again, or its file is read and announces every extra tracker it
was added with. With the PostgreSQL store the file is always read, and also the category must be
unset and every selected file below `2 ^ 31`. -/
theorem restart_iff [DecidableEq H] (c : Crates H) (folders folders' : Folders)
    (add : AddTorrent) (opts : AddTorrentOptions) (t : ManagedTorrent H) (hc : c.Laws t)
    (hm : Managed c folders add opts t) (nextId : ℕ) :
    (∀ (db db' : JsonStore H) (fails readable : Bool), db.store t.id t fails = (.ok (), db') →
      ((∃ st t', db'.reopen.get t.id readable = some st ∧
          c.restore folders' t.id nextId st = some t' ∧ Same t t') ↔
        if readable then c.AnnouncesExtra add opts else (c.readMetainfo t.infoHash).isSome)) ∧
    (∀ row : TorrentsTableRecord H, TorrentsTableRecord.store t.id t = .ok row →
      ((∃ id st t', row.intoSerializedTorrent = (id, st) ∧
          c.restore folders' id nextId st = some t' ∧ Same t t') ↔
        c.AnnouncesExtra add opts ∧ t.category = none ∧
          ∀ l, t.onlyFiles = some l → ∀ i ∈ l, i < 2 ^ 31)) := by
  obtain ⟨torrent, hk⟩ := hm.kept hc
  have hrange : InRange t.onlyFiles torrent.info := hk.info ▸ hm.inRange
  refine ⟨?_, ?_⟩
  · intro db db' fails readable hs
    have hget := json_get_store hs (hk.torrentBytes_ne_nil hc) readable
    have hst : (∃ st t', db'.reopen.get t.id readable = some st ∧
        c.restore folders' t.id nextId st = some t' ∧ Same t t') ↔
          ∃ t', c.restore folders' t.id nextId { snapshot t with
            torrentBytes := if readable then t.metadata.torrentBytes else [] } = some t' ∧
              Same t t' := by
      rw [hget]
      simp
    rw [hst]
    cases readable with
    | true =>
      have hiff := @Kept.restore_iff _ _ _ _ _
        { snapshot t with torrentBytes := t.metadata.torrentBytes } hk hc rfl hrange rfl rfl
        folders' nextId
      refine hiff.trans ⟨fun h => h.1, fun h => ⟨h, rfl, rfl⟩⟩
    | false => exact hk.restore_magnet_iff hc (hm.urlParse_trackers hc) hrange folders' nextId
  · intro row hs
    unfold TorrentsTableRecord.store at hs
    split_ifs at hs with hid
    obtain rfl := Except.ok.inj hs
    have hiff := @Kept.restore_iff _ _ _ _ _
      { snapshot t with
        torrentBytes := t.metadata.torrentBytes, onlyFiles := t.onlyFiles.map toI32,
        category := none } hk hc rfl hrange.toI32 rfl rfl folders' nextId
    rw [← map_toI32_eq_iff]
    refine ⟨?_, ?_⟩
    · rintro ⟨id, st, t', hst, hr, hsame⟩
      obtain ⟨rfl, rfl⟩ := Prod.mk.inj hst
      obtain ⟨hannounces, honly, hcategory⟩ := hiff.1 ⟨t', hr, hsame⟩
      exact ⟨hannounces, hcategory.symm, honly⟩
    · rintro ⟨hannounces, hcategory, honly⟩
      obtain ⟨t', hr, hsame⟩ := hiff.2 ⟨hannounces, honly, hcategory.symm⟩
      exact ⟨_, _, t', rfl, hr, hsame⟩

/-- The trackers of a torrent: one that its file announces, and an extra one. -/
def trackerList (extra : Bool) : List String :=
  if extra then ["http://a", "http://b"] else ["http://a"]

/-- The file `[1]` announces one tracker; there are no peers to ask for metadata. -/
def oneFile : Crates ℕ where
  urlParse s := if s = "" then none else some s
  magnetToString m :=
    if m.trackers = trackerList true then "magnet:?xt=urn:btih:7&tr=http://a&tr=http://b"
    else "magnet:?xt=urn:btih:7&tr=http://a"
  magnetParse s :=
    some ⟨some 7, trackerList (s = "magnet:?xt=urn:btih:7&tr=http://a&tr=http://b"), none, none⟩
  torrentFromBytes bytes := if bytes = [1] then some ⟨7, ["http://a"], ⟨[2], [some "f"]⟩⟩ else none
  bencode _ _ info := 1 :: info
  get _ := none
  readMetainfo _ := none
  regexNew _ := none
  join a b := a ++ b
  iter s := trackerList ("http://b" ∈ s)

/-- The torrent of that file. -/
def oneTorrent (extra : Bool) : ManagedTorrent ℕ where
  id := 0
  infoHash := 7
  trackers := (trackerList extra).toFinset
  outputFolder := "out"
  category := none
  filesystem := true
  metadata := ⟨⟨[2], [some "f"]⟩, [1]⟩
  paused := false
  onlyFiles := none

def addOptions (extra : Bool) : AddTorrentOptions :=
  { outputFolder := some "out", trackers := if extra then some ["http://b"] else none }

def anyFolders : Folders := ⟨"out", fun _ _ => some ""⟩

theorem iter_oneTorrent (extra : Bool) :
    oneFile.iter (oneTorrent extra).trackers = trackerList extra := by
  cases extra <;> decide +kernel

theorem oneFile_laws (extra : Bool) : oneFile.Laws (oneTorrent extra) where
  urlParse_self := by
    intro s u h
    simp only [oneFile, Option.ite_none_left_eq_some, Option.some.injEq] at h ⊢
    obtain ⟨hs, rfl⟩ := h
    exact ⟨hs, trivial⟩
  urlParse_empty := rfl
  magnetParse_toString := by cases extra <;> decide +kernel
  mem_iter := by
    intro u
    rw [iter_oneTorrent]
    exact List.mem_toFinset.symm
  torrentFromBytes_nil := rfl
  torrentFromBytes_bencode := by
    intro h info hi
    cases hi
  readMetainfo_eq := by
    intro bytes torrent info _ hi
    cases hi

theorem oneFile_managed (extra : Bool) :
    Managed oneFile anyFolders (.torrentFileBytes [1]) (addOptions extra) (oneTorrent extra) where
  added := by
    have h : oneFile.addTorrent anyFolders 0 (.torrentFileBytes [1]) (addOptions extra) =
        some (oneTorrent extra) := by
      cases extra <;> decide +kernel
    exact ⟨0, _, h, rfl⟩
  inRange := by
    intro l hl
    cases hl

/-- A torrent file without extra trackers comes back from both stores. -/
theorem oneFile_restarts :
    (∃ st t', (JsonStore.new.store 0 (oneTorrent false) false).2.reopen.get 0 true = some st ∧
      oneFile.restore anyFolders 0 1 st = some t' ∧ Same (oneTorrent false) t') ∧
    ∃ row, TorrentsTableRecord.store 0 (oneTorrent false) = .ok row ∧
      ∃ id st t', row.intoSerializedTorrent = (id, st) ∧
        oneFile.restore anyFolders id 1 st = some t' ∧ Same (oneTorrent false) t' := by
  have h := restart_iff oneFile anyFolders anyFolders _ _ _ (oneFile_laws false)
    (oneFile_managed false) 1
  have hann : oneFile.AnnouncesExtra (.torrentFileBytes [1]) (addOptions false) := by
    intro torrent _ s hs
    cases hs
  refine ⟨(h.1 .new _ false true rfl).2 hann, _, rfl, (h.2 _ rfl).2 ⟨hann, rfl, ?_⟩⟩
  intro l hl
  cases hl

/-- The file is added with an extra tracker. The JSON store keeps it, but the torrent is added
again from its file, and `into_add_torrent` does not pass the extra tracker on. -/
theorem extra_tracker_lost :
    oneFile.Laws (oneTorrent true) ∧
    Managed oneFile anyFolders (.torrentFileBytes [1]) (addOptions true) (oneTorrent true) ∧
    (((JsonStore.new.store 0 (oneTorrent true) false).2).reopen.get 0 true).bind
        (oneFile.restore anyFolders 0 1) = some (oneTorrent false) ∧
    ¬Same (oneTorrent true) (oneTorrent false) := by
  refine ⟨oneFile_laws true, oneFile_managed true, by decide +kernel, ?_⟩
  intro hsame
  have hne : (oneTorrent false).trackers ≠ (oneTorrent true).trackers := by
    decide +kernel
  exact hne hsame.trackers

end SessionPersistence

end Rtbit
