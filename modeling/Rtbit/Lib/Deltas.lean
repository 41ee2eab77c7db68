import Mathlib.Tactic

/-! A set that is told to a remote party by differences: each message lists elements that were
added and elements that were dropped, and the party replays the messages. -/

namespace Lib

variable {α : Type*} [DecidableEq α]

structure Delta (α : Type*) where
  added : List α
  dropped : List α
  deriving DecidableEq, Repr

namespace Delta

def apply (d : Delta α) (s : Finset α) : Finset α := (s ∪ d.added.toFinset) \ d.dropped.toFinset

/-- What a party knows that has received the messages. -/
def replay (ds : List (Delta α)) : Finset α := ds.foldl (fun s d => d.apply s) ∅

theorem replay_snoc (ds : List (Delta α)) (d : Delta α) : replay (ds ++ [d]) = d.apply (replay ds) := by
  rw [replay, List.foldl_append]
  rfl

theorem mem_apply {d : Delta α} {s : Finset α} {x : α} :
    x ∈ d.apply s ↔ (x ∈ s ∨ x ∈ d.added) ∧ x ∉ d.dropped := by
  simp [apply]

/-- An element that was added and is not known any more has been dropped since. -/
theorem dropped_of_not_mem {ds : List (Delta α)} (hdisj : ∀ d ∈ ds, List.Disjoint d.added d.dropped)
    {i : ℕ} {d : Delta α} {x : α} (hi : ds[i]? = some d) (hx : x ∈ d.added) (hn : x ∉ replay ds) :
    ∃ k e, i < k ∧ ds[k]? = some e ∧ x ∈ e.dropped := by
  induction ds using List.reverseRecOn with
  | nil => simp at hi
  | append_singleton ds e ih =>
    rw [replay_snoc, mem_apply] at hn
    have hdisj' : ∀ d ∈ ds, List.Disjoint d.added d.dropped :=
      fun d hd => hdisj d (List.mem_append_left _ hd)
    rcases Nat.lt_or_ge i ds.length with hlt | hge
    · rw [List.getElem?_append_left hlt] at hi
      by_cases hdrop : x ∈ e.dropped
      · exact ⟨ds.length, e, hlt, by simp, hdrop⟩
      · have hold : x ∉ replay ds := fun hmem => hn ⟨Or.inl hmem, hdrop⟩
        obtain ⟨k, f, hik, hk, hf⟩ := ih hdisj' hi hold
        have hkl : k < ds.length := (List.getElem?_eq_some_iff.1 hk).1
        exact ⟨k, f, hik, by rw [List.getElem?_append_left hkl]; exact hk, hf⟩
    · -- the element was added by the last message, which does not drop it
      rw [List.getElem?_append_right hge, List.getElem?_singleton] at hi
      split_ifs at hi
      obtain rfl := Option.some.inj hi
      have hnd := hdisj e (List.mem_append_right _ (List.mem_singleton_self e)) hx
      exact absurd ⟨Or.inr hx, hnd⟩ hn

/-- The messages only add what is not known. -/
def Fresh (ds : List (Delta α)) : Prop :=
  ∀ i d, ds[i]? = some d → ∀ x ∈ d.added, x ∉ replay (ds.take i)

theorem Fresh.snoc {ds : List (Delta α)} {d : Delta α} (h : Fresh ds)
    (hd : ∀ x ∈ d.added, x ∉ replay ds) : Fresh (ds ++ [d]) := by
  intro i e he x hx
  rcases Nat.lt_or_ge i ds.length with hlt | hge
  · rw [List.getElem?_append_left hlt] at he
    rw [List.take_append_of_le_length (Nat.le_of_lt hlt)]
    exact h i e he x hx
  · rw [List.getElem?_append_right hge, List.getElem?_singleton] at he
    split_ifs at he with hi
    obtain rfl := Option.some.inj he
    rw [List.take_append_of_le_length (by omega), List.take_of_length_le (by omega)]
    exact hd x hx

/-- Between two messages that add the same element there is one that drops it. -/
theorem Fresh.dropped_between {ds : List (Delta α)} (h : Fresh ds)
    (hdisj : ∀ d ∈ ds, List.Disjoint d.added d.dropped) {i j : ℕ} {d e : Delta α} {x : α}
    (hij : i < j) (hi : ds[i]? = some d) (hj : ds[j]? = some e) (hd : x ∈ d.added)
    (he : x ∈ e.added) : ∃ k f, i < k ∧ k < j ∧ ds[k]? = some f ∧ x ∈ f.dropped := by
  have htake (k : ℕ) (hk : k < j) : (ds.take j)[k]? = ds[k]? := List.getElem?_take_of_lt hk
  have hdisj' : ∀ d ∈ ds.take j, List.Disjoint d.added d.dropped := fun d hd =>
    hdisj d (List.mem_of_mem_take hd)
  obtain ⟨k, f, hik, hk, hf⟩ := dropped_of_not_mem hdisj' (by rw [htake i hij]; exact hi) hd
    (h j e hj x he)
  have hkj : k < j := by
    have hlen := (List.getElem?_eq_some_iff.1 hk).1
    rw [List.length_take] at hlen
    omega
  exact ⟨k, f, hik, hkj, by rw [← htake k hkj]; exact hk, hf⟩

end Delta

/-- At most `cap` elements of `xs` that are not in `s`. -/
def missing (cap : ℕ) (xs : List α) (s : Finset α) : List α := (xs.filter (· ∉ s)).take cap

theorem mem_missing {cap : ℕ} {xs : List α} {s : Finset α} {x : α} (h : x ∈ missing cap xs s) :
    x ∈ xs ∧ x ∉ s := by
  have hf := List.mem_of_mem_take h
  simpa using List.mem_filter.1 hf

theorem length_missing_le (cap : ℕ) (xs : List α) (s : Finset α) : (missing cap xs s).length ≤ cap := by
  rw [missing, List.length_take]
  exact Nat.min_le_left _ _

/-- Nothing is left out when there is room. -/
theorem missing_of_card_le {cap : ℕ} {xs : List α} {s : Finset α} (hnd : xs.Nodup)
    (h : (xs.toFinset \ s).card ≤ cap) {x : α} (hx : x ∈ xs) (hs : x ∉ s) : x ∈ missing cap xs s := by
  have hlen : (xs.filter (· ∉ s)).length = (xs.toFinset \ s).card := by
    rw [← List.toFinset_card_of_nodup (hnd.filter _)]
    congr 1
    ext y
    simp
  rw [missing, List.take_of_length_le (by omega)]
  exact List.mem_filter.2 ⟨hx, by simpa using hs⟩

end Lib
