import Rtbit.Lib.Runs
import Rtbit.Spec.MoveCompleted

/-! Moving completed torrents. At each step a watcher touches the old and the new path of one of its
files, so what is done for one file leaves every other one alone; and a file is removed from its old
path only when all of it is at the new one. Hence no failure, and no end of the program between two
calls, loses a file, and a torrent that has its files open reads what it did. -/

namespace Rtbit

open Lib

namespace MoveCompleted

variable {N : Type} [DecidableEq N]

/-- The files that are not padding. -/
def toMove (files : List (MovedFile N)) : List (MovedFile N) := files.filter fun fi => !fi.padding

namespace Move

def moved (m : Move N) : List (MovedFile N) := toMove m.files

/-- The torrent is in the completed folder already. -/
def Stays (m : Move N) : Prop := m.currentOutput = m.targetFolder

instance (m : Move N) : Decidable m.Stays :=
  inferInstanceAs (Decidable (m.currentOutput = m.targetFolder))

def sources (m : Move N) : List (List N) := m.moved.map m.src

def targets (m : Move N) : List (List N) := if m.Stays then [] else m.moved.map m.dst

end Move

/-- No two of the files have a path in common, old or new. -/
structure Apart (moves : List (Move N)) : Prop where
  sources : (moves.flatMap Move.sources).Nodup
  targets : (moves.flatMap Move.targets).Nodup
  disjoint : (moves.flatMap Move.targets).Disjoint (moves.flatMap Move.sources)

/-! A list of lists without duplicates. -/

theorem flatMap_nodup_inj {α β : Type} {l : List α} {f : α → List β} (h : (l.flatMap f).Nodup)
    {k k' : ℕ} {a a' : α} {b : β} (ha : l[k]? = some a) (ha' : l[k']? = some a') (hb : b ∈ f a)
    (hb' : b ∈ f a') : k = k' := by
  have hpair := List.pairwise_iff_getElem.1 (List.nodup_flatMap.1 h).2
  obtain ⟨hk, rfl⟩ := List.getElem?_eq_some_iff.1 ha
  obtain ⟨hk', rfl⟩ := List.getElem?_eq_some_iff.1 ha'
  rcases Nat.lt_trichotomy k k' with hlt | heq | hlt
  · exact absurd hb' (hpair k k' hk hk' hlt hb)
  · exact heq
  · exact absurd hb (hpair k' k hk' hk hlt hb')

/-! The paths of one torrent. -/

/-- A torrent that does not stay, its paths apart. -/
structure Move.Leaves (m : Move N) : Prop where
  stays : ¬m.Stays
  nodup : m.moved.Nodup
  src_inj : ∀ fi ∈ m.moved, ∀ fi' ∈ m.moved, m.src fi = m.src fi' → fi = fi'
  dst_inj : ∀ fi ∈ m.moved, ∀ fi' ∈ m.moved, m.dst fi = m.dst fi' → fi = fi'
  dst_ne_src : ∀ fi ∈ m.moved, ∀ fi' ∈ m.moved, m.dst fi ≠ m.src fi'

variable {moves : List (Move N)} {m m' : Move N} {fi fi' : MovedFile N}

theorem Move.mem_targets (h : ¬m.Stays) (hfi : fi ∈ m.moved) : m.dst fi ∈ m.targets := by
  rw [targets, if_neg h]
  exact List.mem_map_of_mem hfi

omit [DecidableEq N] in
theorem Move.mem_sources (hfi : fi ∈ m.moved) : m.src fi ∈ m.sources := List.mem_map_of_mem hfi

theorem Apart.leaves (h : Apart moves) (hm : m ∈ moves) (hstays : ¬m.Stays) : m.Leaves where
  stays := hstays
  nodup := List.Nodup.of_map m.src ((List.nodup_flatMap.1 h.sources).1 m hm)
  src_inj fi hfi fi' hfi' := List.inj_on_of_nodup_map ((List.nodup_flatMap.1 h.sources).1 m hm) hfi hfi'
  dst_inj fi hfi fi' hfi' := by
    have hnodup := (List.nodup_flatMap.1 h.targets).1 m hm
    rw [Move.targets, if_neg hstays] at hnodup
    exact List.inj_on_of_nodup_map hnodup hfi hfi'
  dst_ne_src fi hfi fi' hfi' he := by
    have htarget := List.mem_flatMap.2 ⟨m, hm, Move.mem_targets hstays hfi⟩
    rw [he] at htarget
    exact h.disjoint htarget (List.mem_flatMap.2 ⟨m, hm, Move.mem_sources hfi'⟩)

/-- A path that two files may have is that of one file. -/
theorem Apart.meets (h : Apart moves) {k k' : ℕ} (hk : moves[k]? = some m)
    (hk' : moves[k']? = some m') (hfi : fi ∈ m.moved) (hfi' : fi' ∈ m'.moved) (hstays : ¬m.Stays)
    {p : List N} (hp : p = m.src fi ∨ p = m.dst fi)
    (hp' : p = m'.src fi' ∨ ¬m'.Stays ∧ p = m'.dst fi') : k = k' ∧ m = m' ∧ fi = fi' := by
  have hm := List.mem_of_getElem? hk
  have hm' := List.mem_of_getElem? hk'
  have hleaves := h.leaves hm hstays
  have hsources := List.mem_flatMap.2 ⟨m, hm, Move.mem_sources hfi⟩
  have htargets := List.mem_flatMap.2 ⟨m, hm, Move.mem_targets hstays hfi⟩
  have hmove (hkk : k = k') : m = m' := Option.some.inj (hk.symm.trans (hkk ▸ hk'))
  rcases hp with rfl | rfl <;> rcases hp' with he | ⟨hstays', he⟩
  · have hkk := flatMap_nodup_inj h.sources hk hk' (Move.mem_sources hfi)
      (he ▸ Move.mem_sources hfi')
    obtain rfl := hmove hkk
    exact ⟨hkk, rfl, hleaves.src_inj fi hfi fi' hfi' he⟩
  · have htarget' := List.mem_flatMap.2 ⟨m', hm', Move.mem_targets hstays' hfi'⟩
    exact absurd hsources (h.disjoint (he ▸ htarget'))
  · have hsource' := List.mem_flatMap.2 ⟨m', hm', Move.mem_sources hfi'⟩
    exact absurd (he ▸ hsource') (h.disjoint htargets)
  · have hkk := flatMap_nodup_inj h.targets hk hk' (Move.mem_targets hstays hfi)
      (he ▸ Move.mem_targets hstays' hfi')
    obtain rfl := hmove hkk
    exact ⟨hkk, rfl, hleaves.dst_inj fi hfi fi' hfi' he⟩

/-! How far a watcher is. -/

/-- All of the file is at the new path, and nothing is at the old one. -/
structure Moved (fs₀ fs : Files (List N)) (m : Move N) (fi : MovedFile N) : Prop where
  src : fs.names (m.src fi) = none
  dst : fs.read (m.dst fi) = fs₀.read (m.src fi)

/-- What a stage says of the files that are still to be moved. -/
def At (fs₀ fs : Files (List N)) (m : Move N) (done todo : List (MovedFile N)) : MoveStage N → Prop
  | .waiting => done = []
  | .createBase => done = [] ∧ ¬m.Stays
  | .createParent fi rest | .rename fi rest | .copy fi rest => todo = fi :: toMove rest ∧ ¬m.Stays
  | .copying fi rest source target copied =>
    todo = fi :: toMove rest ∧ ¬m.Stays ∧ fs.names (m.src fi) = some source ∧
      fs.names (m.dst fi) = some target ∧ copied ≤ (fs.data source).length ∧
      fs.data target = (fs.data source).take copied
  | .removeFile fi rest =>
    todo = fi :: toMove rest ∧ ¬m.Stays ∧ fs.read (m.dst fi) = fs₀.read (m.src fi)
  | .removeDir => todo = [] ∧ ¬m.Stays
  | .returned true => if m.Stays then done = [] else todo = []
  | .returned false => ¬m.Stays

structure Progress (fs₀ fs : Files (List N)) (m : Move N) (stage : MoveStage N)
    (done todo : List (MovedFile N)) : Prop where
  all : m.moved = done ++ todo
  moved : ∀ fi ∈ done, Moved fs₀ fs m fi
  pending : ∀ fi ∈ todo, fs.names (m.src fi) = fs₀.names (m.src fi)
  stage : At fs₀ fs m done todo stage

variable {fs₀ fs fs' : Files (List N)} {stage stage' : MoveStage N}
  {done todo files rest : List (MovedFile N)} {P : List N → Prop} {o : Outcome}

theorem Moved.frame (h : Moved fs₀ fs m fi) (hwf : fs.Wf) (hf : Files.Frame P fs fs')
    (hsrc : ¬P (m.src fi)) (hdst : ¬P (m.dst fi)) : Moved fs₀ fs' m fi where
  src := by rw [hf.names _ hsrc, h.src]
  dst := by rw [hf.read hwf hdst, h.dst]

theorem At.done_eq_nil (h : At fs₀ fs m done todo stage) (hstays : m.Stays) : done = [] := by
  cases stage with
  | waiting => exact h
  | createBase => exact h.1
  | createParent fi rest | rename fi rest | copy fi rest => exact absurd hstays h.2
  | copying fi rest source target copied | removeFile fi rest => exact absurd hstays h.2.1
  | removeDir => exact absurd hstays h.2
  | returned ok =>
    cases ok with
    | true => exact (if_pos hstays).mp h
    | false => exact absurd hstays h

/-- The steps of the others. -/
theorem Progress.frame (h : Progress fs₀ fs m stage done todo) (hwf : fs.Wf)
    (hf : Files.Frame P fs fs') (hsrc : ∀ fi ∈ m.moved, ¬P (m.src fi))
    (hdst : ¬m.Stays → ∀ fi ∈ m.moved, ¬P (m.dst fi)) : Progress fs₀ fs' m stage done todo := by
  have hdone : ∀ fi ∈ done, fi ∈ m.moved := fun fi hfi => h.all ▸ List.mem_append_left _ hfi
  have htodo : ∀ fi ∈ todo, fi ∈ m.moved := fun fi hfi => h.all ▸ List.mem_append_right _ hfi
  refine ⟨h.all, fun fi hfi => ?_, fun fi hfi => ?_, ?_⟩
  · have hfi' := hdone fi hfi
    refine (h.moved fi hfi).frame hwf hf (hsrc fi hfi') (hdst (fun hstays => ?_) fi hfi')
    rw [h.stage.done_eq_nil hstays] at hfi
    cases hfi
  · rw [hf.names _ (hsrc fi (htodo fi hfi)), h.pending fi hfi]
  · have hstage := h.stage
    cases stage with
    | waiting | createBase | createParent fi rest | rename fi rest | copy fi rest | removeDir =>
      exact hstage
    | returned ok => cases ok <;> exact hstage
    | copying fi rest source target copied =>
      obtain ⟨htodo', hstays, hs, ht, hle, hdata⟩ := hstage
      have hfi : fi ∈ m.moved := htodo fi (htodo' ▸ List.mem_cons_self)
      have hsource := hf.data_of_name hwf (hsrc fi hfi) hs
      refine ⟨htodo', hstays, ?_, ?_, ?_, ?_⟩
      · rw [hf.names _ (hsrc fi hfi), hs]
      · rw [hf.names _ (hdst hstays fi hfi), ht]
      · rw [hsource]
        exact hle
      · rw [hf.data_of_name hwf (hdst hstays fi hfi) ht, hsource, hdata]
    | removeFile fi rest =>
      obtain ⟨htodo', hstays, hread⟩ := hstage
      have hfi : fi ∈ m.moved := htodo fi (htodo' ▸ List.mem_cons_self)
      exact ⟨htodo', hstays, (hf.read hwf (hdst hstays fi hfi)).trans hread⟩

/-! A watcher's own step. -/

omit [DecidableEq N] in
theorem toMove_cons (fi : MovedFile N) (rest : List (MovedFile N)) :
    toMove (fi :: rest) = if fi.padding then toMove rest else fi :: toMove rest := by
  cases h : fi.padding <;> simp [toMove, h]

/-- At the head of the loop. -/
theorem at_nextFile (hstays : ¬m.Stays) (files : List (MovedFile N)) :
    At fs₀ fs m done (toMove files) (m.nextFile files) := by
  induction files with
  | nil =>
    rw [Move.nextFile, Move.cleanUp]
    split_ifs
    · exact (if_neg hstays).mpr rfl
    · exact ⟨rfl, hstays⟩
  | cons fi rest ih =>
    rw [toMove_cons, Move.nextFile]
    split_ifs
    · exact ih
    · exact ⟨rfl, hstays⟩

/-- What a step of a watcher touches: the two paths of a file that leaves, but not what is in it. -/
def Touches (fs₀ fs fs' : Files (List N)) (m : Move N) : Prop :=
  fs' = fs ∨ ∃ fi ∈ m.moved, ¬m.Stays ∧
    Files.Frame (fun p => p = m.src fi ∨ p = m.dst fi) fs fs' ∧
    ∀ i, fs₀.names (m.src fi) = some i → fs'.data i = fs.data i

theorem Progress.not_mem (h : Progress fs₀ fs m stage done (fi :: toMove rest)) (hm : m.Leaves) :
    fi ∈ m.moved ∧ fi ∉ done ∧ fi ∉ toMove rest := by
  have hnodup := hm.nodup
  rw [h.all, List.nodup_append] at hnodup
  refine ⟨h.all ▸ List.mem_append_right _ List.mem_cons_self, fun hd => ?_, ?_⟩
  · exact hnodup.2.2 fi hd fi List.mem_cons_self rfl
  · exact (List.nodup_cons.1 hnodup.2.1).1

/-- The other files of the torrent, while the first one that is left is moved. -/
theorem Progress.others (h : Progress fs₀ fs m stage done (fi :: toMove rest)) (hm : m.Leaves)
    (hwf : fs.Wf) (hf : Files.Frame (fun p => p = m.src fi ∨ p = m.dst fi) fs fs') :
    (∀ fi' ∈ done, Moved fs₀ fs' m fi') ∧
      ∀ fi' ∈ toMove rest, fs'.names (m.src fi') = fs₀.names (m.src fi') := by
  obtain ⟨hfi, hdone, hrest⟩ := h.not_mem hm
  have hsrc : ∀ fi' ∈ m.moved, fi' ≠ fi → ¬(m.src fi' = m.src fi ∨ m.src fi' = m.dst fi) := by
    rintro fi' hfi' hne (he | he)
    · exact hne (hm.src_inj fi' hfi' fi hfi he)
    · exact hm.dst_ne_src fi hfi fi' hfi' he.symm
  have hdst : ∀ fi' ∈ m.moved, fi' ≠ fi → ¬(m.dst fi' = m.src fi ∨ m.dst fi' = m.dst fi) := by
    rintro fi' hfi' hne (he | he)
    · exact hm.dst_ne_src fi' hfi' fi hfi he
    · exact hne (hm.dst_inj fi' hfi' fi hfi he)
  constructor
  · intro fi' hfi'
    have hin : fi' ∈ m.moved := h.all ▸ List.mem_append_left _ hfi'
    have hne : fi' ≠ fi := fun he => hdone (he ▸ hfi')
    exact (h.moved fi' hfi').frame hwf hf (hsrc fi' hin hne) (hdst fi' hin hne)
  · intro fi' hfi'
    have hin : fi' ∈ m.moved := h.all ▸ List.mem_append_right _ (List.mem_cons_of_mem _ hfi')
    have hne : fi' ≠ fi := fun he => hrest (he ▸ hfi')
    rw [hf.names _ (hsrc fi' hin hne)]
    exact h.pending fi' (List.mem_cons_of_mem _ hfi')

/-- The first file is at its new path. -/
theorem Progress.nextFile (h : Progress fs₀ fs m stage done (fi :: toMove rest)) (hm : m.Leaves)
    (hwf : fs.Wf) (hf : Files.Frame (fun p => p = m.src fi ∨ p = m.dst fi) fs fs')
    (hmoved : Moved fs₀ fs' m fi) :
    Progress fs₀ fs' m (m.nextFile rest) (done ++ [fi]) (toMove rest) := by
  obtain ⟨hdone, hrest⟩ := h.others hm hwf hf
  refine ⟨?_, fun fi' hfi' => ?_, hrest, at_nextFile hm.stays rest⟩
  · rw [h.all, List.append_assoc, List.singleton_append]
  · rcases List.mem_append.1 hfi' with hd | hone
    · exact hdone fi' hd
    · rw [List.mem_singleton.1 hone]
      exact hmoved

/-- The first file is still at its old path. -/
theorem Progress.goesOn (h : Progress fs₀ fs m stage done (fi :: toMove rest)) (hm : m.Leaves)
    (hwf : fs.Wf) (hf : Files.Frame (· = m.dst fi) fs fs')
    (hstage : At fs₀ fs' m done (fi :: toMove rest) stage') :
    Progress fs₀ fs' m stage' done (fi :: toMove rest) := by
  obtain ⟨hdone, hrest⟩ := h.others hm hwf (hf.mono fun p => Or.inr)
  have hfi := (h.not_mem hm).1
  refine ⟨h.all, hdone, fun fi' hfi' => ?_, hstage⟩
  rcases List.mem_cons.1 hfi' with rfl | hfi'
  · rw [hf.names _ (hm.dst_ne_src fi' hfi fi' hfi).symm]
    exact h.pending fi' List.mem_cons_self
  · exact hrest fi' hfi'

/-- Nothing has happened to what is in the files. -/
def Whole (fs₀ fs : Files (List N)) (m : Move N) : Prop :=
  ∀ fi ∈ m.moved, ∀ i, fs₀.names (m.src fi) = some i → fs.data i = fs₀.data i

theorem Progress.rename (h : Progress fs₀ fs m (.rename fi rest) done todo) (hm : m.Leaves)
    (hwf : fs.Wf) (hwhole : Whole fs₀ fs m)
    (hr : fs.rename (m.src fi) (m.dst fi) = some fs') :
    Progress fs₀ fs' m (m.nextFile rest) (done ++ [fi]) (toMove rest) ∧ Touches fs₀ fs fs' m := by
  obtain ⟨rfl, hstays⟩ := h.stage
  obtain ⟨i, hi, hinodes, hnames⟩ := Files.rename_eq_some hr
  have hfi := (h.not_mem hm).1
  have hne := hm.dst_ne_src fi hfi fi hfi
  have hf := Files.Frame.rename hr
  have hi₀ := (h.pending fi List.mem_cons_self).symm.trans hi
  have hdata (j : ℕ) : fs'.data j = fs.data j := by rw [Files.data, Files.data, hinodes]
  have hmoved : Moved fs₀ fs' m fi := by
    constructor
    case src => rw [hnames, Function.update_of_ne hne.symm, Function.update_self]
    case dst =>
      have hi' : fs'.names (m.dst fi) = some i := by rw [hnames, Function.update_self]
      rw [Files.read_eq hi', Files.read_eq hi₀, hdata, hwhole fi hfi i hi₀]
  exact ⟨h.nextFile hm hwf hf hmoved, Or.inr ⟨fi, hfi, hstays, hf, fun j _ => hdata j⟩⟩

theorem Progress.copy (h : Progress fs₀ fs m (.copy fi rest) done todo) (hm : m.Leaves)
    (hwf : fs.Wf) {source target : ℕ} (hsource : fs.names (m.src fi) = some source)
    (ho : fs.openTruncate (m.dst fi) = (target, fs')) :
    Progress fs₀ fs' m (.copying fi rest source target 0) done todo ∧ Touches fs₀ fs fs' m := by
  obtain ⟨rfl, hstays⟩ := h.stage
  have hfi := (h.not_mem hm).1
  have hne := hm.dst_ne_src fi hfi fi hfi
  have hf := Files.Frame.openTruncate ho
  obtain ⟨hempty, hdata⟩ := Files.data_openTruncate ho
  have hsource' : fs'.names (m.src fi) = some source := by rw [hf.names _ hne.symm, hsource]
  have hne' : source ≠ target := fun he => by
    rw [he] at hsource
    exact hwf.openTruncate_ne ho hne.symm hsource
  refine ⟨h.goesOn hm hwf hf ⟨rfl, hstays, hsource', (Files.names_openTruncate ho).1, Nat.zero_le _,
    hempty⟩, Or.inr ⟨fi, hfi, hstays, hf.mono fun p => Or.inr, fun i hi => ?_⟩⟩
  have hpending := h.pending fi List.mem_cons_self
  rw [hi, hsource, Option.some.injEq] at hpending
  rw [← hpending, hdata source hne']

/-- What has been read joins what was written. -/
theorem take_append_chunk (l : List UInt8) (copied n : ℕ) :
    l.take copied ++ (l.drop copied).take n = l.take (copied + ((l.drop copied).take n).length) := by
  have hchunk : (l.drop copied).take n = (l.drop copied).take ((l.drop copied).take n).length := by
    rw [List.length_take, List.take_eq_take_iff]
    omega
  rw [List.take_add, ← hchunk]

theorem Progress.copyChunk {source target copied n : ℕ}
    (h : Progress fs₀ fs m (.copying fi rest source target copied) done todo) (hm : m.Leaves)
    (hwf : fs.Wf) (hwhole : Whole fs₀ fs m) (hn : n ≠ 0)
    (hs : Move.copyChunk fs fi rest source target copied n = (fs', stage')) :
    Progress fs₀ fs' m stage' done todo ∧ fs'.Wf ∧ Touches fs₀ fs fs' m := by
  obtain ⟨rfl, hstays, hsource, htarget, hle, hdata⟩ := h.stage
  have hfi := (h.not_mem hm).1
  have hpending := h.pending fi List.mem_cons_self
  rw [hsource] at hpending
  rw [Move.copyChunk] at hs
  split at hs
  · -- the end of the source
    rename_i hend
    cases hs
    have hcopied : (fs.data source).take copied = fs.data source := by
      refine List.take_of_length_le ?_
      rw [List.take_eq_nil_iff, or_iff_right hn, List.drop_eq_nil_iff] at hend
      exact hend
    refine ⟨⟨h.all, h.moved, h.pending, rfl, hstays, ?_⟩, hwf, Or.inl rfl⟩
    rw [Files.read_eq htarget, Files.read_eq hpending.symm, hdata, hcopied,
      hwhole fi hfi source hpending.symm]
  · cases hs
    have hf : Files.Frame (· = m.dst fi) fs
        (fs.writeAt target copied (((fs.data source).drop copied).take n)) :=
      Files.Frame.writeAt htarget
    have hne : source ≠ target := fun he => by
      rw [he] at hsource
      exact hm.dst_ne_src fi hfi fi hfi (hwf.inj _ _ _ htarget hsource)
    have hlen : (fs.data target).length = copied := by rw [hdata, List.length_take_of_le hle]
    have hsame : ∀ bytes, (fs.writeAt target copied bytes).data source = fs.data source :=
      fun bytes => Files.data_writeAt_ne hne
    refine ⟨h.goesOn hm hwf hf ⟨rfl, hstays, hsource, htarget, ?_, ?_⟩, hwf.writeAt,
      Or.inr ⟨fi, hfi, hstays, hf.mono fun p => Or.inr, fun i hi => ?_⟩⟩
    · rw [hsame, List.length_take, List.length_drop]
      omega
    · rw [hsame, Files.data_writeAt_end (hwf.lt _ _ htarget) hlen, hdata, take_append_chunk]
    · rw [hi, Option.some.injEq] at hpending
      rw [← hpending, hsame]

theorem Progress.removeFile (h : Progress fs₀ fs m (.removeFile fi rest) done todo) (hm : m.Leaves)
    (hwf : fs.Wf) :
    Progress fs₀ (fs.remove (m.src fi)) m (m.nextFile rest) (done ++ [fi]) (toMove rest) ∧
      Touches fs₀ fs (fs.remove (m.src fi)) m := by
  obtain ⟨rfl, hstays, hread⟩ := h.stage
  have hfi := (h.not_mem hm).1
  have hf : Files.Frame (· = m.src fi) fs (fs.remove (m.src fi)) := Files.Frame.remove
  have hmoved : Moved fs₀ (fs.remove (m.src fi)) m fi := by
    constructor
    case src => exact Function.update_self ..
    case dst => exact (hf.read hwf (hm.dst_ne_src fi hfi fi hfi)).trans hread
  exact ⟨h.nextFile hm hwf (hf.mono fun p => Or.inl) hmoved,
    Or.inr ⟨fi, hfi, hstays, hf.mono fun p => Or.inl, fun _ _ => rfl⟩⟩

/-- A step that has to do with directories only, or that fails. -/
theorem Progress.same (h : Progress fs₀ fs m stage done todo)
    (hstage : At fs₀ fs m done todo stage') :
    (∃ done todo, Progress fs₀ fs m stage' done todo) ∧ Touches fs₀ fs fs m :=
  ⟨⟨done, todo, h.all, h.moved, h.pending, hstage⟩, Or.inl rfl⟩

theorem Progress.next (h : Progress fs₀ fs m stage done todo) (hm : ¬m.Stays → m.Leaves)
    (hwf : fs.Wf) (hwhole : Whole fs₀ fs m) (hs : m.next fs stage o = some (fs', stage')) :
    fs'.Wf ∧ (∃ done todo, Progress fs₀ fs' m stage' done todo) ∧ Touches fs₀ fs fs' m := by
  have hstage := h.stage
  unfold Move.next at hs
  split at hs
  · -- the torrent is complete
    cases hs
    refine ⟨hwf, h.same ?_⟩
    split_ifs with hstays
    · exact (if_pos hstays).mpr hstage
    · exact ⟨hstage, hstays⟩
  · -- `dest_base` is there
    cases hs
    obtain ⟨rfl, hstays⟩ := hstage
    obtain rfl : m.moved = todo := h.all
    exact ⟨hwf, h.same (at_nextFile hstays m.files)⟩
  · cases hs
    exact ⟨hwf, h.same hstage.2⟩
  · cases hs
    exact ⟨hwf, h.same hstage⟩
  · cases hs
    exact ⟨hwf, h.same hstage.2⟩
  · -- renamed
    obtain ⟨fs'', hr, he⟩ := Option.map_eq_some_iff.1 hs
    cases he
    obtain ⟨hprogress, htouches⟩ := h.rename (hm hstage.2) hwf hwhole hr
    exact ⟨hwf.rename hr, ⟨_, _, hprogress⟩, htouches⟩
  · cases hs
    exact ⟨hwf, h.same hstage⟩
  · -- both files are open
    obtain ⟨source, hsource, he⟩ := Option.map_eq_some_iff.1 hs
    cases he
    obtain ⟨hprogress, htouches⟩ := h.copy (hm hstage.2) hwf hsource rfl
    exact ⟨hwf.openTruncate rfl, ⟨_, _, hprogress⟩, htouches⟩
  · cases hs
    exact ⟨hwf, h.same hstage.2⟩
  · -- a chunk is copied
    split_ifs at hs with hn
    obtain ⟨hprogress, hwf', htouches⟩ :=
      h.copyChunk (hm hstage.2.1) hwf hwhole hn (Option.some.inj hs)
    exact ⟨hwf', ⟨_, _, hprogress⟩, htouches⟩
  · cases hs
    exact ⟨hwf, h.same hstage.2.1⟩
  · -- the old path is removed
    split_ifs at hs with hsome
    cases hs
    obtain ⟨hprogress, htouches⟩ := h.removeFile (hm hstage.2.1) hwf
    exact ⟨hwf.remove, ⟨_, _, hprogress⟩, htouches⟩
  · cases hs
    exact ⟨hwf, h.same hstage.2.1⟩
  · cases hs
    exact ⟨hwf, h.same ((if_neg hstage.2).mpr hstage.1)⟩
  · cases hs
    exact ⟨hwf, h.same ((if_neg hstage.2).mpr hstage.1)⟩
  · cases hs

/-! All the watchers. -/

variable {s s' : Moves N}

structure Inv (moves : List (Move N)) (fs₀ : Files (List N)) (s : Moves N) : Prop where
  wf : s.fs.Wf
  length : fs₀.inodes.length ≤ s.fs.inodes.length
  /-- What is in a file that is moved, and what it may be called. -/
  files : ∀ m ∈ moves, ∀ fi ∈ m.moved, ∀ i, fs₀.names (m.src fi) = some i →
    s.fs.data i = fs₀.data i ∧
      ∀ p, s.fs.names p = some i → p = m.src fi ∨ ¬m.Stays ∧ p = m.dst fi
  others : ∀ p, p ∉ moves.flatMap Move.sources → p ∉ moves.flatMap Move.targets →
    s.fs.names p = fs₀.names p ∧ s.fs.read p = fs₀.read p
  watchers : ∀ (k : ℕ) (m : Move N), moves[k]? = some m → ∃ stage done todo, s.stages[k]? = some stage ∧
    Progress fs₀ s.fs m stage done todo

theorem start_inv (hwf : fs₀.Wf) : Inv moves fs₀ (.start moves fs₀) where
  wf := hwf
  length := le_rfl
  files m _ fi _ i hi := ⟨rfl, fun p hp => Or.inl (hwf.inj p _ i hp hi)⟩
  others p _ _ := ⟨rfl, rfl⟩
  watchers k m hk := by
    refine ⟨.waiting, [], m.moved, ?_, rfl, nofun, fun fi _ => rfl, rfl⟩
    rw [Moves.start, List.getElem?_map, hk, Option.map_some]

/-- A step that touches one file. -/
theorem Inv.files_step (h : Inv moves fs₀ s) (hapart : Apart moves) (hwf : fs₀.Wf) {k : ℕ}
    (hk : moves[k]? = some m) (hfi : fi ∈ m.moved) (hstays : ¬m.Stays)
    (hf : Files.Frame (fun p => p = m.src fi ∨ p = m.dst fi) s.fs fs')
    (hown : ∀ i, fs₀.names (m.src fi) = some i → fs'.data i = s.fs.data i)
    (hm' : m' ∈ moves) (hfi' : fi' ∈ m'.moved) {i : ℕ} (hi : fs₀.names (m'.src fi') = some i) :
    fs'.data i = fs₀.data i ∧
      ∀ p, fs'.names p = some i → p = m'.src fi' ∨ ¬m'.Stays ∧ p = m'.dst fi' := by
  obtain ⟨k', hk'⟩ := List.mem_iff_getElem?.1 hm'
  obtain ⟨hdata, hnames⟩ := h.files m' hm' fi' hfi' i hi
  have hlt := (hwf.lt _ i hi).trans_le h.length
  by_cases hsame : k = k' ∧ m = m' ∧ fi = fi'
  · obtain ⟨-, rfl, rfl⟩ := hsame
    refine ⟨(hown i hi).trans hdata, fun p hp => ?_⟩
    by_cases hpath : p = m.src fi ∨ p = m.dst fi
    · exact hpath.imp_right fun he => ⟨hstays, he⟩
    · exact hnames p (hf.names p hpath ▸ hp)
  · have hnone : ∀ p, p = m.src fi ∨ p = m.dst fi → s.fs.names p ≠ some i := fun p hp hpi =>
      hsame (hapart.meets hk hk' hfi hfi' hstays hp (hnames p hpi))
    refine ⟨(hf.data i hlt hnone).trans hdata, fun p hp => ?_⟩
    by_cases hpath : p = m.src fi ∨ p = m.dst fi
    · rcases hf.old p i hpath hp with ⟨q, hq, hqi⟩ | hle
      · exact absurd hqi (hnone q hq)
      · omega
    · exact hnames p (hf.names p hpath ▸ hp)

theorem Inv.step (h : Inv moves fs₀ s) (hapart : Apart moves) (hwf : fs₀.Wf) {e : ℕ × Outcome}
    (hs : s.step moves e = some s') : Inv moves fs₀ s' := by
  obtain ⟨k, o⟩ := e
  unfold Moves.step at hs
  split at hs
  · rename_i m stage hk hstage
    obtain ⟨⟨fs', stage'⟩, hnext, rfl⟩ := Option.map_eq_some_iff.1 hs
    obtain ⟨stage₀, done, todo, hstage₀, hprogress⟩ := h.watchers k m hk
    obtain rfl := Option.some.inj (hstage.symm.trans hstage₀)
    have hm := List.mem_of_getElem? hk
    obtain ⟨hwf', ⟨done', todo', hprogress'⟩, htouches⟩ := hprogress.next (hapart.leaves hm) h.wf
      (fun fi hfi i hi => (h.files m hm fi hfi i hi).1) hnext
    have hown : (s.stages.set k stage')[k]? = some stage' :=
      List.getElem?_set_self (List.getElem?_eq_some_iff.1 hstage).1
    rcases htouches with rfl | ⟨fi, hfi, hstays, hf, hdata⟩
    · refine ⟨h.wf, h.length, h.files, h.others, fun k' m' hk' => ?_⟩
      by_cases hkk : k = k'
      · subst hkk
        obtain rfl := Option.some.inj (hk.symm.trans hk')
        exact ⟨stage', done', todo', hown, hprogress'⟩
      · obtain ⟨stage'', hwatcher⟩ := h.watchers k' m' hk'
        exact ⟨stage'', by rwa [List.getElem?_set_ne hkk]⟩
    · constructor
      case wf => exact hwf'
      case length => exact h.length.trans hf.length
      case files =>
        intro m' hm' fi' hfi' i hi
        exact h.files_step hapart hwf hk hfi hstays hf hdata hm' hfi' hi
      case others =>
        intro p hsource htarget
        obtain ⟨hnames, hread⟩ := h.others p hsource htarget
        have hpath : ¬(p = m.src fi ∨ p = m.dst fi) := by
          rintro (rfl | rfl)
          · exact hsource (List.mem_flatMap.2 ⟨m, hm, Move.mem_sources hfi⟩)
          · exact htarget (List.mem_flatMap.2 ⟨m, hm, Move.mem_targets hstays hfi⟩)
        exact ⟨(hf.names p hpath).trans hnames, (hf.read h.wf hpath).trans hread⟩
      case watchers =>
        intro k' m' hk'
        by_cases hkk : k = k'
        · subst hkk
          obtain rfl := Option.some.inj (hk.symm.trans hk')
          exact ⟨stage', done', todo', hown, hprogress'⟩
        · obtain ⟨stage'', done'', todo'', hstage'', hprogress''⟩ := h.watchers k' m' hk'
          refine ⟨stage'', done'', todo'', by rwa [List.getElem?_set_ne hkk], ?_⟩
          refine hprogress''.frame h.wf hf (fun fi' hfi' hp => hkk ?_) fun hstays' fi' hfi' hp => hkk ?_
          · exact (hapart.meets hk hk' hfi hfi' hstays hp (Or.inl rfl)).1
          · exact (hapart.meets hk hk' hfi hfi' hstays hp (Or.inr ⟨hstays', rfl⟩)).1
  · cases hs

/-! What is left of the files, wherever the program ends. -/

structure Kept (moves : List (Move N)) (fs₀ : Files (List N)) (s : Moves N) : Prop where
  /-- All of a file is at its old path or at its new one. -/
  whole : ∀ m ∈ moves, ∀ fi ∈ m.moved, s.fs.read (m.src fi) = fs₀.read (m.src fi) ∨
    ¬m.Stays ∧ s.fs.read (m.dst fi) = fs₀.read (m.src fi)
  /-- A torrent that has its files open finds in them what it did. -/
  opened : ∀ m ∈ moves, Whole fs₀ s.fs m
  returned : ∀ (k : ℕ) (m : Move N), moves[k]? = some m → s.stages[k]? = some (.returned true) →
    ∀ fi ∈ m.moved,
      if m.Stays then s.fs.read (m.src fi) = fs₀.read (m.src fi) else Moved fs₀ s.fs m fi
  /-- The files are moved in their order, up to where it failed. -/
  failed : ∀ (k : ℕ) (m : Move N), moves[k]? = some m → s.stages[k]? = some (.returned false) →
    ∃ done todo, m.moved = done ++ todo ∧ (∀ fi ∈ done, Moved fs₀ s.fs m fi) ∧
      ∀ fi ∈ todo, s.fs.read (m.src fi) = fs₀.read (m.src fi)
  others : ∀ p, p ∉ moves.flatMap Move.sources → p ∉ moves.flatMap Move.targets →
    s.fs.read p = fs₀.read p

/-- A file that is still to be moved. -/
theorem Progress.read_src (h : Progress fs₀ fs m stage done todo) (hwhole : Whole fs₀ fs m)
    (hfi : fi ∈ todo) : fs.read (m.src fi) = fs₀.read (m.src fi) := by
  have hin : fi ∈ m.moved := h.all ▸ List.mem_append_right _ hfi
  rw [Files.read, Files.read, h.pending fi hfi]
  cases hi : fs₀.names (m.src fi) with
  | none => rfl
  | some i => rw [Option.map_some, Option.map_some, hwhole fi hin i hi]

theorem Inv.kept (h : Inv moves fs₀ s) : Kept moves fs₀ s := by
  have hwhole : ∀ m ∈ moves, Whole fs₀ s.fs m := fun m hm fi hfi i hi => (h.files m hm fi hfi i hi).1
  constructor
  case whole =>
    intro m hm fi hfi
    obtain ⟨k, hk⟩ := List.mem_iff_getElem?.1 hm
    obtain ⟨stage, done, todo, -, hprogress⟩ := h.watchers k m hk
    rw [hprogress.all, List.mem_append] at hfi
    rcases hfi with hd | ht
    · refine Or.inr ⟨fun hstays => ?_, (hprogress.moved fi hd).dst⟩
      rw [hprogress.stage.done_eq_nil hstays] at hd
      cases hd
    · exact Or.inl (hprogress.read_src (hwhole m hm) ht)
  case opened => exact hwhole
  case returned =>
    intro k m hk hret fi hfi
    obtain ⟨stage, done, todo, hstage, hprogress⟩ := h.watchers k m hk
    obtain rfl := Option.some.inj (hret.symm.trans hstage)
    have hall := hprogress.all
    have hat := hprogress.stage
    rw [hall, List.mem_append] at hfi
    split_ifs with hstays
    · rw [(if_pos hstays).mp hat] at hfi
      exact hprogress.read_src (hwhole m (List.mem_of_getElem? hk)) (hfi.resolve_left List.not_mem_nil)
    · rw [(if_neg hstays).mp hat] at hfi
      exact hprogress.moved fi (hfi.resolve_right List.not_mem_nil)
  case failed =>
    intro k m hk hret
    obtain ⟨stage, done, todo, -, hprogress⟩ := h.watchers k m hk
    exact ⟨done, todo, hprogress.all, hprogress.moved, fun fi hfi =>
      hprogress.read_src (hwhole m (List.mem_of_getElem? hk)) hfi⟩
  case others => exact fun p hsource htarget => (h.others p hsource htarget).2

/-- A path in the output folder, in the completed folder instead. -/
def instead (outputFolder targetFolder p : List N) : List N :=
  targetFolder ++ p.drop outputFolder.length

theorem dst_eq_instead (h : m.outputFolder <+: m.currentOutput) (fi : MovedFile N) :
    m.dst fi = instead m.outputFolder m.targetFolder (m.src fi) := by
  obtain ⟨relative, hrelative⟩ := h
  have hpath : m.relativePath = relative := by
    have hdrop : m.currentOutput.dropPrefix? m.outputFolder = some relative :=
      List.dropPrefix?_eq_some_iff.2 ⟨m.outputFolder, hrelative.symm, beq_self_eq_true _⟩
    rw [Move.relativePath, hdrop, Option.getD_some]
  have hbase : m.destBase = m.targetFolder ++ relative := by
    rw [Move.destBase, hpath]
    split_ifs with hnil
    · rw [hnil, List.append_nil]
    · rfl
  rw [Move.dst, hbase, instead, Move.src, ← hrelative, List.append_assoc, List.append_assoc,
    List.drop_left]

theorem targets_sublist {outputFolder targetFolder : List N} (h : ∀ m ∈ moves,
      m.outputFolder = outputFolder ∧ m.targetFolder = targetFolder ∧
        outputFolder <+: m.currentOutput) :
    (moves.flatMap Move.targets).Sublist
      ((moves.flatMap Move.sources).map (instead outputFolder targetFolder)) := by
  induction moves with
  | nil => exact List.Sublist.refl _
  | cons m moves ih =>
    obtain ⟨rfl, rfl, hinside⟩ := h m List.mem_cons_self
    rw [List.flatMap_cons, List.flatMap_cons, List.map_append]
    refine List.Sublist.append ?_ (ih fun m' hm' => h m' (List.mem_cons_of_mem _ hm'))
    rw [Move.targets]
    split_ifs
    · exact List.nil_sublist _
    · rw [Move.sources, List.map_map]
      exact (List.map_congr_left fun fi _ => dst_eq_instead hinside fi) ▸ List.Sublist.refl _

/-- They stay apart in a completed folder that none of them is in. -/
theorem apart_of_inside (outputFolder targetFolder : List N) (h : ∀ m ∈ moves,
      m.outputFolder = outputFolder ∧ m.targetFolder = targetFolder ∧
        outputFolder <+: m.currentOutput)
    (hsources : (moves.flatMap Move.sources).Nodup)
    (houtside : ∀ p ∈ moves.flatMap Move.sources, ¬targetFolder <+: p) : Apart moves := by
  have hinside : ∀ p ∈ moves.flatMap Move.sources, outputFolder <+: p := by
    intro p hp
    obtain ⟨m, hm, hp⟩ := List.mem_flatMap.1 hp
    obtain ⟨fi, -, rfl⟩ := List.mem_map.1 hp
    exact (h m hm).2.2.trans (List.prefix_append _ _)
  have hinj : ∀ p ∈ moves.flatMap Move.sources, ∀ q ∈ moves.flatMap Move.sources,
      instead outputFolder targetFolder p = instead outputFolder targetFolder q → p = q := by
    intro p hp q hq he
    obtain ⟨r, rfl⟩ := hinside p hp
    obtain ⟨t, rfl⟩ := hinside q hq
    rw [instead, instead, List.drop_left, List.drop_left, List.append_cancel_left_eq] at he
    rw [he]
  refine ⟨hsources, (List.Nodup.map_on hinj hsources).sublist (targets_sublist h), ?_⟩
  intro p htarget hsource
  obtain ⟨q, -, rfl⟩ := List.mem_map.1 ((targets_sublist h).subset htarget)
  exact houtside _ hsource (List.prefix_append _ _)

/-! Two torrents, the second of them on another device. -/

def twoTorrents : List (Move ℕ) :=
  [⟨[0, 1], [9], [0], [⟨[5], false⟩, ⟨[6], true⟩]⟩, ⟨[0, 2], [9], [0], [⟨[5], false⟩]⟩]

def twoFiles : Files (List ℕ) where
  inodes := [[1, 2], [3, 4]]
  names p := if p = [0, 1, 5] then some 0 else if p = [0, 2, 5] then some 1 else none

theorem twoFiles_wf : twoFiles.Wf where
  lt p i hi := by
    simp only [twoFiles] at hi
    split_ifs at hi <;> cases hi <;> decide
  inj p q i hp hq := by
    simp only [twoFiles] at hp hq
    split_ifs at hp hq with hp0 hq0 hq1 hp1 hq0 hq1 <;> cases hp <;> cases hq
    · rw [hp0, hq0]
    · rw [hp1, hq1]

/-- The second file is half copied when the first torrent is done. -/
def halfCopied : List (ℕ × Outcome) :=
  [(0, .ok), (1, .ok), (0, .ok), (1, .ok), (1, .ok), (1, .failed), (0, .ok), (1, .ok), (0, .ok),
    (1, .copied 1), (0, .failed)]

end MoveCompleted

end Rtbit
