import Mathlib.Data.List.AList
import Mathlib.Tactic

/-! A cache that keeps the entries that were used last. They stand in the order of their last use,
and what is behind the capacity is dropped. -/

namespace Lib

variable {κ α : Type*} [DecidableEq κ]

structure Lru (κ α : Type*) [DecidableEq κ] where
  cap : ℕ
  /-- The entry that was used last comes first. -/
  entries : AList fun _ : κ => α
  cap_pos : 0 < cap
  length_le : entries.entries.length ≤ cap

namespace Lru

def new (cap : ℕ) (h : 0 < cap) : Lru κ α := ⟨cap, ∅, h, Nat.zero_le cap⟩

def find (c : Lru κ α) (k : κ) : Option α := c.entries.lookup k

/-- Puts `a` under `k` in the first place; the last entry makes room for it. -/
def put (c : Lru κ α) (k : κ) (a : α) : Lru κ α where
  cap := c.cap
  entries := ⟨(c.entries.insert k a).entries.take c.cap,
    (c.entries.insert k a).nodupKeys.sublist (List.take_sublist _ _)⟩
  cap_pos := c.cap_pos
  length_le := List.length_take_le _ _

/-- The entry under `k`, which is used by that. -/
def get (c : Lru κ α) (k : κ) : Option α × Lru κ α :=
  match c.find k with
  | none => (none, c)
  | some a => (some a, c.put k a)

/-- The entry under `k`, or `init` as a new one, changed by `f`. -/
def getOrInsertMut (c : Lru κ α) (k : κ) (init : α) (f : α → α) : Lru κ α :=
  c.put k (f ((c.find k).getD init))

variable {c : Lru κ α} {j k : κ} {a b : α}

@[simp] theorem find_new (cap : ℕ) (h : 0 < cap) (k : κ) : (new cap h : Lru κ α).find k = none := rfl

@[simp] theorem find_put (c : Lru κ α) (k : κ) (a : α) : (c.put k a).find k = some a := by
  have hmem : Sigma.mk k a ∈ (c.put k a).entries.entries := by
    obtain ⟨n, hn⟩ := Nat.exists_eq_succ_of_ne_zero c.cap_pos.ne'
    simp only [put, AList.entries_insert, hn, List.take_succ_cons]
    exact List.mem_cons_self
  exact AList.mem_lookup_iff.2 hmem

/-- Another entry is as before, or dropped. -/
theorem find_of_put_ne (h : j ≠ k) (hf : (c.put k a).find j = some b) : c.find j = some b := by
  have hmem : Sigma.mk j b ∈ (c.put k a).entries.entries := AList.mem_lookup_iff.1 hf
  have hins : Sigma.mk j b ∈ (c.entries.insert k a).entries := List.mem_of_mem_take hmem
  have hlook : (c.entries.insert k a).lookup j = some b := AList.mem_lookup_iff.2 hins
  rwa [AList.lookup_insert_ne h] at hlook

/-- A use drops nothing that is looked up afterwards. -/
theorem find_of_get (hf : (c.get k).2.find j = some b) : c.find j = some b := by
  unfold get at hf
  cases hk : c.find k with
  | none =>
    rw [hk] at hf
    exact hf
  | some a =>
    rw [hk] at hf
    by_cases hj : j = k
    · subst hj
      rw [find_put] at hf
      rw [hk, hf]
    · exact find_of_put_ne hj hf

end Lru

end Lib
