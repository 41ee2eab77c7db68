import Rtbit.Lib.FlatTree
import Rtbit.Spec.RemoveFiles

/-! Directories are removed the longest text first. A directory is known by its components and spelled as
the first file spells it, so that a directory comes after those below it exactly when each of these is
spelled longer. -/

namespace Rtbit

namespace RelPath

variable {p q : RelPath} {d : List String}

theorem components_eq_nil : p.components = [] ↔ p.segments = [] := by
  unfold components
  cases p.segments <;> simp

theorem filter_rdropWhile (l : List String) :
    (l.rdropWhile skipped).filter (fun s => !skipped s) = l.filter fun s => !skipped s := by
  induction l using List.reverseRecOn with
  | nil => rfl
  | append_singleton l s ih =>
    rw [List.rdropWhile_concat]
    split_ifs with hs
    · rw [ih, List.filter_append]
      simp [hs]
    · rfl

theorem parent_eq_none : p.parent = none ↔ p.segments = [] := by
  unfold parent
  split_ifs with h <;> simp [h]

/-- The parent has all components but the last. -/
theorem components_parent (h : p.parent = some q) : q.components = p.components.dropLast := by
  unfold parent at h
  split_ifs at h with hne
  cases h
  obtain ⟨first, rest, hsegments⟩ := List.exists_cons_of_ne_nil hne
  unfold components
  simp only [hsegments, parentSegments]
  rw [← filter_rdropWhile rest]
  have hlast := List.rdropWhile_last_not skipped rest
  generalize rest.rdropWhile skipped = body at hlast
  rcases List.eq_nil_or_concat' body with rfl | ⟨init, last, rfl⟩
  · rfl
  · have hkeep : skipped last = false := by simpa using hlast (by simp)
    rw [if_neg (by simp), List.dropLast_concat]
    simp only
    rw [filter_rdropWhile, List.filter_append, List.filter_singleton, hkeep, ← List.cons_append]
    exact List.dropLast_concat.symm

theorem length_parent_lt (h : p.parent = some q) : q.segments.length < p.segments.length := by
  unfold parent at h
  split_ifs at h with hne
  cases h
  obtain ⟨first, rest, hsegments⟩ := List.exists_cons_of_ne_nil hne
  simp only [hsegments, parentSegments]
  have hbody := (List.rdropWhile_prefix skipped rest).length_le
  split_ifs with hnil
  · simp
  · have hinner := (List.rdropWhile_prefix skipped (rest.rdropWhile skipped).dropLast).length_le
    have hpos := List.length_pos_iff.2 hnil
    rw [List.length_dropLast] at hinner
    simp only [List.length_cons]
    omega

end RelPath

/-- The directory that a call is for. -/
def RemoveCall.dir : RemoveCall → Option RelPath
  | .removeFile _ _ => none
  | .removeDirectoryIfEmpty p => some p

namespace RemoveFiles

open RelPath

variable {infos : List RemovedFile} {all L : List RelPath} {p q : RelPath} {d : List String} {fuel : ℕ}

/-- The directories that the walk meets. -/
def above : ℕ → RelPath → List RelPath
  | 0, _ => []
  | fuel + 1, fname =>
    match fname.parent with
    | none => []
    | some parent =>
      if parent.components ≠ [] then parent :: above fuel parent else above fuel parent

theorem walk_eq (fuel : ℕ) (p : RelPath) (all : List RelPath) :
    walk fuel p all = (above fuel p).foldl insert all := by
  induction fuel generalizing p all with
  | zero => rfl
  | succ fuel ih =>
    rw [walk, above]
    cases p.parent with
    | none => rfl
    | some parent =>
      simp only [ih]
      split_ifs <;> rfl

theorem prefix_dropLast_iff {l : List String} (hl : l ≠ []) :
    d <+: l.dropLast ↔ d <+: l ∧ d ≠ l := by
  obtain ⟨init, last, rfl⟩ := (List.eq_nil_or_concat' l).resolve_left hl
  rw [List.dropLast_concat, Lib.prefix_concat_ne_iff]

/-- They are the directories above the file, by their components. -/
theorem mem_above_components (h : p.segments.length ≤ fuel) :
    (∃ q ∈ above fuel p, q.components = d) ↔ d ≠ [] ∧ d <+: p.components ∧ d ≠ p.components := by
  have hroot : ∀ p : RelPath, p.segments = [] →
      ¬ (d ≠ [] ∧ d <+: p.components ∧ d ≠ p.components) := fun p hp hd => by
    rw [components_eq_nil.2 hp, List.prefix_nil] at hd
    exact hd.1 hd.2.1
  induction fuel generalizing p with
  | zero => simpa [above] using hroot p (List.length_eq_zero_iff.1 (Nat.le_zero.1 h))
  | succ fuel ih =>
    cases hparent : p.parent with
    | none => simpa [above, hparent] using hroot p (parent_eq_none.1 hparent)
    | some parent =>
      have hlt := length_parent_lt hparent
      have hne : p.components ≠ [] := fun hnil => by
        rw [parent_eq_none.2 (components_eq_nil.1 hnil)] at hparent
        cases hparent
      have hrest : (∃ q ∈ above fuel parent, q.components = d) ↔
          d ≠ [] ∧ d <+: parent.components ∧ d ≠ parent.components := ih (by omega)
      rw [← prefix_dropLast_iff hne, ← components_parent hparent]
      simp only [above, hparent]
      split_ifs with htop
      · simp only [List.mem_cons, exists_eq_or_imp, hrest]
        constructor
        · rintro (rfl | ⟨hd, hpre, -⟩)
          · exact ⟨htop, List.prefix_refl _⟩
          · exact ⟨hd, hpre⟩
        · rintro ⟨hd, hpre⟩
          by_cases he : parent.components = d
          · exact .inl he
          · exact .inr ⟨hd, hpre, Ne.symm he⟩
      · rw [not_not] at htop
        rw [hrest, htop]
        simp only [List.prefix_nil]
        constructor
        · rintro ⟨hd, hnil, -⟩
          exact absurd hnil hd
        · rintro ⟨hd, hnil⟩
          exact absurd hnil hd

theorem insert_of_mem (h : ∃ q ∈ all, q.components = p.components) : insert all p = all := by
  unfold insert
  rw [if_pos]
  simpa using h

theorem insert_of_not_mem (h : ∀ q ∈ all, q.components ≠ p.components) :
    insert all p = all ++ [p] := by
  unfold insert
  rw [if_neg]
  simpa using h

/-- The set has the first of the paths with the same components. -/
theorem mem_foldl_insert : p ∈ L.foldl insert all ↔ p ∈ all ∨
    (∀ q ∈ all, q.components ≠ p.components) ∧ L.find? (·.components = p.components) = some p := by
  induction L generalizing all with
  | nil => simp
  | cons x L ih =>
    rw [List.foldl_cons, ih, List.find?_cons]
    by_cases hx : x.components = p.components
    · simp only [hx, decide_true, Option.some.injEq]
      by_cases hall : ∃ q ∈ all, q.components = p.components
      · obtain ⟨q, hq, he⟩ := hall
        have hnone : ¬ ∀ q ∈ all, q.components ≠ p.components := fun h => h q hq he
        rw [insert_of_mem ⟨q, hq, he.trans hx.symm⟩]
        simp only [hnone, false_and]
      · have hnone : ∀ q ∈ all, q.components ≠ p.components := fun q hq he => hall ⟨q, hq, he⟩
        rw [insert_of_not_mem fun q hq => hx ▸ hnone q hq]
        have hsome : ¬ ∀ q ∈ all ++ [x], q.components ≠ p.components := fun h =>
          h x (by simp) hx
        rw [or_iff_left fun h => hsome h.1, and_iff_right hnone, List.mem_append,
          List.mem_singleton, @eq_comm _ x p]
    · simp only [hx, decide_false]
      by_cases hall : ∃ q ∈ all, q.components = x.components
      · rw [insert_of_mem hall]
      · have hnone : ∀ q ∈ all, q.components ≠ x.components := fun q hq he => hall ⟨q, hq, he⟩
        have hne : p ≠ x := fun he => hx (by rw [he])
        rw [insert_of_not_mem hnone]
        simp only [List.mem_append, List.mem_singleton, hne, or_false, or_imp,
          forall_and, forall_eq, hx, ne_eq, not_false_eq_true, and_true]

theorem nodup_foldl_insert (h : (all.map components).Nodup) :
    ((L.foldl insert all).map components).Nodup := by
  induction L generalizing all with
  | nil => exact h
  | cons x L ih =>
    refine ih ?_
    by_cases hall : ∃ q ∈ all, q.components = x.components
    · rwa [insert_of_mem hall]
    · have hnone : ∀ q ∈ all, q.components ≠ x.components := fun q hq he => hall ⟨q, hq, he⟩
      rw [insert_of_not_mem hnone, List.map_append]
      refine h.append (List.nodup_singleton _) fun c hc hx => ?_
      obtain ⟨q, hq, rfl⟩ := List.mem_map.1 hc
      exact hnone q hq (List.mem_singleton.1 hx)

/-! All the files. -/

def aboveFile (fi : RemovedFile) : List RelPath :=
  if fi.padding then [] else above fi.relativeFilename.segments.length fi.relativeFilename

def removal (entry : RemovedFile × ℕ) : Option RemoveCall :=
  if entry.1.padding then none else some (.removeFile entry.2 entry.1.relativeFilename)

theorem foldl_fileStep (infos : List RemovedFile) (n : ℕ) (calls : List RemoveCall)
    (all : List RelPath) :
    (infos.zipIdx n).foldl fileStep (calls, all) =
      (calls ++ (infos.zipIdx n).filterMap removal, (infos.flatMap aboveFile).foldl insert all) := by
  induction infos generalizing n calls all with
  | nil => simp
  | cons fi infos ih =>
    rw [List.zipIdx_cons, List.foldl_cons, List.filterMap_cons, List.flatMap_cons, List.foldl_append]
    simp only [fileStep, removal, aboveFile]
    split_ifs with hpadding
    · exact ih _ _ _
    · rw [ih, walk_eq, List.append_assoc]
      rfl

theorem files_eq (infos : List RemovedFile) :
    files infos = (infos.zipIdx.filterMap removal, (infos.flatMap aboveFile).foldl insert []) :=
  foldl_fileStep infos 0 [] []

/-- A directory above a file that is not padding. -/
def IsDirOf (infos : List RemovedFile) (d : List String) : Prop :=
  d ≠ [] ∧ ∃ fi ∈ infos, fi.padding = false ∧ d <+: fi.relativeFilename.components ∧
    d ≠ fi.relativeFilename.components

instance (infos : List RemovedFile) (d : List String) : Decidable (IsDirOf infos d) :=
  inferInstanceAs (Decidable (_ ∧ _))

/-- A directory as the first file below it spells it. -/
def spelled (infos : List RemovedFile) (d : List String) : Option RelPath :=
  (infos.flatMap aboveFile).find? (·.components = d)

theorem components_of_spelled (h : spelled infos d = some p) : p.components = d := by
  simpa using List.find?_some h

theorem mem_aboveFile_components {fi : RemovedFile} : (∃ q ∈ aboveFile fi, q.components = d) ↔
    fi.padding = false ∧ d ≠ [] ∧ d <+: fi.relativeFilename.components ∧
      d ≠ fi.relativeFilename.components := by
  unfold aboveFile
  split_ifs with hpadding
  · simp [hpadding]
  · rw [mem_above_components (Nat.le_refl _)]
    simp [hpadding]

theorem exists_spelled_iff : (∃ p, spelled infos d = some p) ↔ IsDirOf infos d := by
  rw [← Option.isSome_iff_exists, spelled, List.find?_isSome]
  simp only [List.mem_flatMap, decide_eq_true_eq]
  constructor
  · rintro ⟨q, ⟨fi, hfi, hq⟩, hd⟩
    obtain ⟨hpadding, hne, habove⟩ := mem_aboveFile_components.1 ⟨q, hq, hd⟩
    exact ⟨hne, fi, hfi, hpadding, habove⟩
  · rintro ⟨hne, fi, hfi, hpadding, habove⟩
    obtain ⟨q, hq, hd⟩ := mem_aboveFile_components.2 ⟨hpadding, hne, habove⟩
    exact ⟨q, ⟨fi, hfi, hq⟩, hd⟩

theorem mem_dirs : p ∈ (files infos).2 ↔ spelled infos p.components = some p := by
  rw [files_eq]
  simp only [mem_foldl_insert, List.not_mem_nil, false_or]
  exact and_iff_right fun q hq => hq.elim

theorem nodup_dirs (infos : List RemovedFile) : ((files infos).2.map components).Nodup := by
  rw [files_eq]
  exact nodup_foldl_insert List.nodup_nil

theorem mem_dirs_components : d ∈ (files infos).2.map components ↔ IsDirOf infos d := by
  rw [← exists_spelled_iff, List.mem_map]
  constructor
  · rintro ⟨p, hp, rfl⟩
    exact ⟨p, mem_dirs.1 hp⟩
  · rintro ⟨p, hp⟩
    obtain rfl := components_of_spelled hp
    exact ⟨p, mem_dirs.2 hp, rfl⟩

/-- The files and directories that are there, by their components. -/
structure Tree where
  files : List (List String)
  dirs : List (List String)

/-- A call that succeeds. A directory that is not empty stays. -/
def Tree.apply (t : Tree) : RemoveCall → Tree
  | .removeFile _ p => { t with files := t.files.filter (· ≠ p.components) }
  | .removeDirectoryIfEmpty p =>
    if ∃ e ∈ t.files ++ t.dirs, p.components <+: e ∧ e ≠ p.components then t
    else { t with dirs := t.dirs.filter (· ≠ p.components) }

/-- What a run does: it removes each file that is not padding once, and then each directory above one
once, a directory after those below it; and when no call fails and nothing else is there, no directory is
left. -/
structure CleansUp (infos : List RemovedFile) (calls : List RemoveCall) : Prop where
  files : ∀ id name, calls.count (.removeFile id name) =
    if infos[id]?.any fun fi => !fi.padding && fi.relativeFilename = name then 1 else 0
  filesFirst : calls.Pairwise fun a b => a.dir.isSome → b.dir.isSome
  dirs : ∀ d, calls.countP (fun c => c.dir.any (·.components = d)) =
    if IsDirOf infos d then 1 else 0
  below : calls.Pairwise fun a b => ∀ p ∈ a.dir, ∀ q ∈ b.dir, ¬ p.components <+: q.components
  gone : ∀ t : Tree, (∀ f ∈ t.files, ∃ fi ∈ infos, fi.padding = false ∧
      fi.relativeFilename.components = f) → (∀ d ∈ t.dirs, IsDirOf infos d) →
    (calls.foldl Tree.apply t).dirs = []

/-- The first file below a directory spells it shorter than the first file below another one spells that,
when the other is below it. -/
def ShorterAbove (infos : List RemovedFile) : Prop :=
  ∀ a d p q, spelled infos a = some p → spelled infos d = some q → a <+: d → a ≠ d → p.len < q.len

theorem removal_eq_some {entry : RemovedFile × ℕ} {c : RemoveCall} : removal entry = some c ↔
    entry.1.padding = false ∧ c = .removeFile entry.2 entry.1.relativeFilename := by
  unfold removal
  split_ifs with hpadding
  · simp [hpadding]
  · simp [hpadding, eq_comm]

theorem count_removals (infos : List RemovedFile) (n id : ℕ) (name : RelPath) :
    ((infos.zipIdx n).filterMap removal).count (.removeFile id name) =
      if n ≤ id ∧ infos[id - n]?.any (fun fi => !fi.padding && fi.relativeFilename = name)
      then 1 else 0 := by
  induction infos generalizing n with
  | nil => simp
  | cons fi infos ih =>
    have hrest := ih (n + 1)
    rw [List.zipIdx_cons, List.filterMap_cons]
    rcases Nat.lt_trichotomy id n with hlt | rfl | hgt
    · rw [if_neg (by omega)] at hrest ⊢
      cases hremoval : removal (fi, n) with
      | none => exact hrest
      | some c =>
        obtain ⟨-, rfl⟩ := removal_eq_some.1 hremoval
        rw [List.count_cons_of_ne (by simp; omega), hrest]
    · rw [if_neg (by omega)] at hrest
      cases hpadding : fi.padding with
      | true => simpa [removal, hpadding] using hrest
      | false => simp [removal, hpadding, List.count_cons, hrest]
    · obtain ⟨k, rfl⟩ : ∃ k, id = n + 1 + k := ⟨id - n - 1, by omega⟩
      have hindex : (fi :: infos)[n + 1 + k - n]? = infos[n + 1 + k - (n + 1)]? := by
        rw [show n + 1 + k - n = k + 1 by omega, List.getElem?_cons_succ]
        congr 1
        omega
      rw [hindex]
      simp only [show n ≤ n + 1 + k by omega, show n + 1 ≤ n + 1 + k by omega, true_and] at hrest ⊢
      rw [← hrest]
      cases hremoval : removal (fi, n) with
      | none => rfl
      | some c =>
        obtain ⟨-, rfl⟩ := removal_eq_some.1 hremoval
        rw [List.count_cons_of_ne (by simp; omega)]

/-- The files are gone once their removals are made, and the directories are still there. -/
theorem foldl_removals {calls : List RemoveCall} (hcalls : ∀ c ∈ calls, c.dir = none) (t : Tree) :
    (calls.foldl Tree.apply t).dirs = t.dirs ∧
      ∀ f ∈ (calls.foldl Tree.apply t).files, f ∈ t.files ∧
        ∀ id p, .removeFile id p ∈ calls → p.components ≠ f := by
  induction calls generalizing t with
  | nil => exact ⟨rfl, fun f hf => ⟨hf, fun id p hp => absurd hp List.not_mem_nil⟩⟩
  | cons c calls ih =>
    cases c with
    | removeDirectoryIfEmpty p => simp [RemoveCall.dir] at hcalls
    | removeFile id p =>
      obtain ⟨hdirs, hfiles⟩ := ih (fun c hc => hcalls c (List.mem_cons_of_mem _ hc))
        (t.apply (.removeFile id p))
      refine ⟨hdirs, fun f hf => ?_⟩
      obtain ⟨hmem, hother⟩ := hfiles f hf
      obtain ⟨hmem, hne⟩ := List.mem_filter.1 hmem
      refine ⟨hmem, fun id' p' hp' => ?_⟩
      rcases List.mem_cons.1 hp' with he | hp'
      · cases he
        exact fun he => by simp [he] at hne
      · exact hother id' p' hp'

/-- Directories that come after those below them are all gone in the end. -/
theorem foldl_dirs {dirs : List RelPath}
    (hbelow : dirs.Pairwise fun p q => ¬ p.components <+: q.components) (t : Tree)
    (hfiles : t.files = []) (hdirs : ∀ d ∈ t.dirs, d ∈ dirs.map components) :
    ((dirs.map RemoveCall.removeDirectoryIfEmpty).foldl Tree.apply t).dirs = [] := by
  induction dirs generalizing t with
  | nil => exact List.eq_nil_iff_forall_not_mem.2 fun d hd => absurd (hdirs d hd) List.not_mem_nil
  | cons p dirs ih =>
    rw [List.pairwise_cons] at hbelow
    have hempty : ¬ ∃ e ∈ t.files ++ t.dirs, p.components <+: e ∧ e ≠ p.components := by
      rintro ⟨e, he, hpre, hne⟩
      rw [hfiles, List.nil_append] at he
      rcases List.mem_cons.1 (hdirs e he) with rfl | hmem
      · exact hne rfl
      · obtain ⟨q, hq, rfl⟩ := List.mem_map.1 hmem
        exact hbelow.1 q hq hpre
    rw [List.map_cons, List.foldl_cons, Tree.apply, if_neg hempty]
    refine ih hbelow.2 _ hfiles fun d hd => ?_
    obtain ⟨hd, hne⟩ := List.mem_filter.1 hd
    exact (List.mem_cons.1 (hdirs d hd)).resolve_left (by simpa using hne)

/-- A run does all of this as soon as its directories come in order. -/
theorem cleansUp_of_below {dirs : List RelPath} (hperm : dirs.Perm (files infos).2)
    (hbelow : dirs.Pairwise fun p q => ¬ p.components <+: q.components) :
    CleansUp infos ((files infos).1 ++ dirs.map .removeDirectoryIfEmpty) := by
  have hremovals : ∀ c ∈ (files infos).1, c.dir = none := fun c hc => by
    rw [files_eq] at hc
    obtain ⟨entry, -, hentry⟩ := List.mem_filterMap.1 hc
    obtain ⟨-, rfl⟩ := removal_eq_some.1 hentry
    rfl
  have hmem : ∀ d, d ∈ dirs.map components ↔ IsDirOf infos d := fun d => by
    rw [(hperm.map components).mem_iff, mem_dirs_components]
  constructor
  case files =>
    intro id name
    have hnone : (dirs.map RemoveCall.removeDirectoryIfEmpty).count (.removeFile id name) = 0 :=
      List.count_eq_zero.2 fun hc => by simp at hc
    rw [List.count_append, hnone, files_eq, count_removals]
    simp
  case filesFirst =>
    refine List.pairwise_append.2 ⟨List.pairwise_of_forall_mem_list fun a ha b _ hdir => ?_,
      List.pairwise_map.2 (List.pairwise_of_forall fun _ _ _ => rfl), fun a ha b _ hdir => ?_⟩
    · simp [hremovals a ha] at hdir
    · simp [hremovals a ha] at hdir
  case dirs =>
    intro d
    have hnone : (files infos).1.countP (fun c => c.dir.any (·.components = d)) = 0 :=
      List.countP_eq_zero.2 fun c hc => by simp [hremovals c hc]
    have hnodup : (dirs.map components).Nodup := ((hperm.map components).nodup_iff).2 (nodup_dirs infos)
    have hcount : (dirs.map RemoveCall.removeDirectoryIfEmpty).countP
        (fun c => c.dir.any (·.components = d)) = (dirs.map components).count d := by
      rw [List.count, List.countP_map, List.countP_map]
      exact List.countP_congr fun p _ => by simp [RemoveCall.dir]
    rw [List.countP_append, hnone, Nat.zero_add, hcount, hnodup.count]
    exact if_congr (hmem d) rfl rfl
  case below =>
    refine List.pairwise_append.2 ⟨List.pairwise_of_forall_mem_list fun a ha b _ p hp => ?_,
      List.pairwise_map.2 (hbelow.imp fun hpq x hx y hy => ?_), fun a ha b _ p hp => ?_⟩
    · simp [hremovals a ha] at hp
    · cases hx
      cases hy
      exact hpq
    · simp [hremovals a ha] at hp
  case gone =>
    intro t hfiles htree
    obtain ⟨hsame, hgone⟩ := foldl_removals hremovals t
    rw [List.foldl_append]
    refine foldl_dirs hbelow _ (List.eq_nil_iff_forall_not_mem.2 fun f hf => ?_) fun d hd => ?_
    · -- each file that was there has its removal
      obtain ⟨hft, hother⟩ := hgone f hf
      obtain ⟨fi, hfi, hpadding, hname⟩ := hfiles f hft
      obtain ⟨i, hi⟩ := List.mem_iff_getElem?.1 hfi
      refine hother i fi.relativeFilename ?_ hname
      rw [files_eq]
      exact List.mem_filterMap.2 ⟨(fi, i), List.mk_mem_zipIdx_iff_getElem?.2 hi,
        removal_eq_some.2 ⟨hpadding, rfl⟩⟩
    · rw [hsame] at hd
      exact (hmem d).2 (htree d hd)

/-- Paths by their length, the longest first, and `p` before others of its length. -/
def LongestFirst (p x y : RelPath) : Prop := y.len < x.len ∨ x.len = y.len ∧ (x = p ∨ y ≠ p)

instance (p x y : RelPath) : Decidable (LongestFirst p x y) := inferInstanceAs (Decidable (_ ∨ _))

instance (p : RelPath) : Std.Total (LongestFirst p) where
  total x y := by
    unfold LongestFirst
    rcases Nat.lt_trichotomy x.len y.len with hlt | heq | hgt
    · exact .inr (.inl hlt)
    · by_cases hx : x = p
      · exact .inl (.inr ⟨heq, .inl hx⟩)
      · exact .inr (.inr ⟨heq.symm, .inr hx⟩)
    · exact .inl (.inl hgt)

instance (p : RelPath) : IsTrans RelPath (LongestFirst p) where
  trans x y z hxy hyz := by
    unfold LongestFirst at *
    rcases hxy with hxy | ⟨hxy, hxp⟩
    · rcases hyz with hyz | ⟨hyz, -⟩
      · exact .inl (hyz.trans hxy)
      · exact .inl (by omega)
    · rcases hyz with hyz | ⟨hyz, hyp⟩
      · exact .inl (by omega)
      · refine .inr ⟨hxy.trans hyz, hxp.imp_right fun hy hz => ?_⟩
        exact hyp.elim hy fun h => h hz

/-- Every run cleans up exactly when directories are spelled shorter than those below them. -/
theorem cleansUp_iff_shorterAbove (infos : List RemovedFile) :
    (∀ calls, Calls infos calls → CleansUp infos calls) ↔ ShorterAbove infos := by
  constructor
  · intro hall a d p q hp hq hpre hne
    by_contra hlen
    obtain rfl := components_of_spelled hp
    obtain rfl := components_of_spelled hq
    -- a run that takes `p` before the others of its length
    set dirs := (files infos).2.insertionSort (LongestFirst p) with hdirs
    have hperm : dirs.Perm (files infos).2 := List.perm_insertionSort _ _
    have hsorted : dirs.Pairwise (LongestFirst p) := List.pairwise_insertionSort _ _
    have hclean := hall _ ⟨dirs, hperm, hsorted.imp fun h => by
      unfold LongestFirst at h
      omega, rfl⟩
    have hbelow := List.pairwise_map.1 (List.pairwise_append.1 hclean.below).2.1
    obtain ⟨i, hi, hpi⟩ := List.mem_iff_getElem.1 (hperm.mem_iff.2 (mem_dirs.2 hp))
    obtain ⟨j, hj, hqj⟩ := List.mem_iff_getElem.1 (hperm.mem_iff.2 (mem_dirs.2 hq))
    rcases Nat.lt_trichotomy i j with hlt | rfl | hgt
    · have hnot := List.pairwise_iff_getElem.1 hbelow i j hi hj hlt
      rw [hpi, hqj] at hnot
      exact hnot p rfl q rfl hpre
    · exact hne (congrArg components (hpi.symm.trans hqj))
    · have hbefore := List.pairwise_iff_getElem.1 hsorted j i hj hi hgt
      rw [hpi, hqj] at hbefore
      rcases hbefore with hlt | ⟨-, he | he⟩
      · exact hlen hlt
      · exact hne (congrArg components he.symm)
      · exact he rfl
  · rintro hshorter calls ⟨dirs, hperm, hsorted, rfl⟩
    have hnodup : (dirs.map components).Nodup := ((hperm.map components).nodup_iff).2 (nodup_dirs infos)
    refine cleansUp_of_below hperm ((hsorted.and (List.pairwise_map.1 hnodup)).imp_of_mem ?_)
    intro p q hp hq hpq hpre
    have hlt := hshorter p.components q.components p q (mem_dirs.1 (hperm.mem_iff.1 hp))
      (mem_dirs.1 (hperm.mem_iff.1 hq)) hpre hpq.2
    omega

/-! Paths whose text holds nothing but their components. -/

def Canonical (p : RelPath) : Prop := ∀ s ∈ p.segments.tail, skipped s = false

theorem Canonical.components_eq (h : Canonical p) : p.components = p.segments := by
  unfold Canonical at h
  unfold components
  cases hsegments : p.segments with
  | nil => rfl
  | cons first rest =>
    rw [hsegments, List.tail_cons] at h
    simp only
    rw [List.filter_eq_self.2 fun s hs => by simp [h s hs]]

theorem Canonical.parent (h : Canonical p) (hq : p.parent = some q) : Canonical q := by
  have hpre : q.segments <+: p.segments := by
    unfold RelPath.parent at hq
    split_ifs at hq
    cases hq
    exact parentSegments_isPrefix _
  obtain ⟨more, hmore⟩ := hpre
  intro s hs
  refine h s ?_
  rw [← hmore]
  cases hsegments : q.segments with
  | nil => simp [hsegments] at hs
  | cons first rest =>
    rw [hsegments] at hs
    exact List.mem_append_left _ hs

theorem Canonical.above (h : Canonical p) (hq : q ∈ above fuel p) : Canonical q := by
  induction fuel generalizing p with
  | zero => simp [RemoveFiles.above] at hq
  | succ fuel ih =>
    rw [RemoveFiles.above] at hq
    cases hparent : p.parent with
    | none => simp [hparent] at hq
    | some parent =>
      have hcanonical := h.parent hparent
      simp only [hparent] at hq
      split_ifs at hq
      · rcases List.mem_cons.1 hq with rfl | hq
        · exact hcanonical
        · exact ih hcanonical hq
      · exact ih hcanonical hq

/-- Such paths always clean up. -/
theorem shorterAbove_of_canonical (h : ∀ fi ∈ infos, Canonical fi.relativeFilename) :
    ShorterAbove infos := by
  have hspelled : ∀ d p, spelled infos d = some p → Canonical p ∧ p.segments = d := fun d p hp => by
    obtain ⟨fi, hfi, hmem⟩ := List.mem_flatMap.1 (List.mem_of_find?_eq_some hp)
    have hcanonical : Canonical p := by
      unfold aboveFile at hmem
      split_ifs at hmem
      · simp at hmem
      · exact (h fi hfi).above hmem
    exact ⟨hcanonical, hcanonical.components_eq.symm.trans (components_of_spelled hp)⟩
  intro a d p q hp hq hpre hne
  obtain ⟨rfl⟩ := (hspelled a p hp).2
  obtain ⟨rfl⟩ := (hspelled d q hq).2
  obtain ⟨more, hmore⟩ := hpre
  have hpos : p.segments ≠ [] := fun hnil => by
    have hdir := exists_spelled_iff.1 ⟨p, hp⟩
    exact hdir.1 hnil
  have hmorePos : 0 < more.length := List.length_pos_iff.2 fun hnil => by
    simp [hnil] at hmore
    exact hne hmore
  have := List.length_pos_iff.2 hpos
  unfold len
  rw [← hmore, List.map_append, List.sum_append, List.length_append]
  omega

/-- The files `a/././b/x` and `a/b/c/d`. -/
def twoSpellings : List RemovedFile :=
  [⟨⟨["a", ".", ".", "b", "x"], by decide, by decide +kernel⟩, false⟩,
    ⟨⟨["a", "b", "c", "d"], by decide, by decide +kernel⟩, false⟩]

/-- The directory `a/b` is spelled longer than `a/b/c`, so that it is still full when its turn comes. -/
theorem twoSpellings_leave_dirs :
    ∃ calls, Calls twoSpellings calls ∧
      (calls.foldl Tree.apply ⟨[["a", "b", "x"], ["a", "b", "c", "d"]],
        [["a"], ["a", "b"], ["a", "b", "c"]]⟩).dirs = [["a"], ["a", "b"]] ∧
      ¬ CleansUp twoSpellings calls := by
  let dirs : List RelPath := (files twoSpellings).2.insertionSort fun p q => q.len ≤ p.len
  have hleft : (((files twoSpellings).1 ++ dirs.map RemoveCall.removeDirectoryIfEmpty).foldl Tree.apply
      ⟨[["a", "b", "x"], ["a", "b", "c", "d"]], [["a"], ["a", "b"], ["a", "b", "c"]]⟩).dirs =
      [["a"], ["a", "b"]] := by decide +kernel
  refine ⟨_, ⟨dirs, List.perm_insertionSort _ _, by decide +kernel, rfl⟩, hleft, fun hclean => ?_⟩
  have hgone := hclean.gone ⟨[["a", "b", "x"], ["a", "b", "c", "d"]],
    [["a"], ["a", "b"], ["a", "b", "c"]]⟩ (by decide +kernel) (by decide +kernel)
  rw [hleft] at hgone
  cases hgone

end RemoveFiles

end Rtbit
