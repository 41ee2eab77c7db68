import Mathlib.Tactic

/-! A sequence cut into blocks of `n`: every block is full but the last one, which is not
empty. The full blocks and the residue behind them can be kept up to date while the sequence
grows. -/

namespace Lib

variable {α : Type*}

/-- How many blocks `len` units make, as `div_ceil` counts them. -/
def blockCount (n len : ℕ) : ℕ := (len + n - 1) / n

/-- The block with number `i`. -/
def block (n : ℕ) (xs : List α) (i : ℕ) : List α := (xs.drop (i * n)).take n

def blocks (n : ℕ) (xs : List α) : List (List α) :=
  (List.range (blockCount n xs.length)).map (block n xs)

def fullBlocks (n : ℕ) (xs : List α) : List (List α) :=
  (List.range (xs.length / n)).map (block n xs)

/-- What stands behind the full blocks. -/
def residue (n : ℕ) (xs : List α) : List α := xs.drop (xs.length / n * n)

/-- Writes `data` over the block with number `i`, from its start on. -/
def setBlock (n : ℕ) (xs : List α) (i : ℕ) (data : List α) : List α :=
  xs.take (i * n) ++ data ++ xs.drop (i * n + data.length)

section

variable {n : ℕ} {xs ys : List α} {i j : ℕ}

theorem lt_blockCount {len : ℕ} (hn : 0 < n) : i < blockCount n len ↔ i * n < len := by
  rw [blockCount, Nat.lt_iff_add_one_le, Nat.le_div_iff_mul_le hn, Nat.add_mul, Nat.one_mul]
  omega

theorem blockCount_eq {len : ℕ} (hn : 0 < n) :
    blockCount n len = len / n + if len % n = 0 then 0 else 1 := by
  have hmod := Nat.mod_lt len hn
  have hdiv := Nat.div_add_mod len n
  rw [blockCount]
  split_ifs with h
  · rw [Nat.div_eq_iff hn, Nat.add_zero, Nat.mul_comm]
    omega
  · rw [Nat.div_eq_iff hn, Nat.add_mul, Nat.one_mul, Nat.mul_comm]
    omega

@[simp] theorem length_block : (block n xs i).length = min n (xs.length - i * n) := by
  simp [block]

theorem getElem?_block : (block n xs i)[j]? = if j < n then xs[i * n + j]? else none := by
  rw [block, List.getElem?_take, List.getElem?_drop]

theorem block_eq_nil (hn : 0 < n) : block n xs i = [] ↔ xs.length ≤ i * n := by
  rw [← List.length_eq_zero_iff, length_block]
  omega

/-- The first blocks make up the front of the sequence. -/
theorem flatMap_block (m : ℕ) : (List.range m).flatMap (block n xs) = xs.take (m * n) := by
  induction m with
  | zero => simp
  | succ m ih =>
    rw [List.range_succ, List.flatMap_append, ih, List.flatMap_singleton, Nat.add_mul, Nat.one_mul,
      List.take_add]
    rfl

/-- What is appended does not change a full block. -/
theorem block_append (h : (i + 1) * n ≤ xs.length) : block n (xs ++ ys) i = block n xs i := by
  rw [Nat.add_mul, Nat.one_mul] at h
  rw [block, block, List.drop_append_of_le_length (by omega),
    List.take_append_of_le_length (by rw [List.length_drop]; omega)]

theorem map_block_append {m : ℕ} (h : m * n ≤ xs.length) :
    (List.range m).map (block n (xs ++ ys)) = (List.range m).map (block n xs) := by
  refine List.map_congr_left ?_
  intro i hi
  exact block_append ((Nat.mul_le_mul_right n (List.mem_range.1 hi)).trans h)

/-- The last block is the residue, if it is not empty. -/
theorem block_last (hn : 0 < n) : block n xs (xs.length / n) = residue n xs := by
  have hdiv := Nat.div_add_mod xs.length n
  have hmod := Nat.mod_lt xs.length hn
  rw [Nat.mul_comm] at hdiv
  rw [block, residue, List.take_of_length_le]
  rw [List.length_drop]
  omega

@[simp] theorem length_residue : (residue n xs).length = xs.length % n := by
  have hdiv := Nat.div_add_mod xs.length n
  rw [Nat.mul_comm] at hdiv
  rw [residue, List.length_drop]
  omega

theorem residue_eq_nil : residue n xs = [] ↔ n ∣ xs.length := by
  rw [← List.length_eq_zero_iff, length_residue, Nat.dvd_iff_mod_eq_zero]

theorem blocks_eq (hn : 0 < n) :
    blocks n xs = fullBlocks n xs ++ if residue n xs = [] then [] else [residue n xs] := by
  rw [blocks, blockCount_eq hn, fullBlocks]
  simp only [residue_eq_nil, Nat.dvd_iff_mod_eq_zero]
  split_ifs with h
  · rw [Nat.add_zero, List.append_nil]
  · rw [List.range_succ, List.map_append, List.map_singleton, block_last hn]

/-! Appending to the sequence. -/

/-- The full blocks stay, and the residue grows by what is appended, as long as it does not
fill a block. -/
theorem append_short (hn : 0 < n) (h : (residue n xs).length + ys.length < n) :
    fullBlocks n (xs ++ ys) = fullBlocks n xs ∧ residue n (xs ++ ys) = residue n xs ++ ys := by
  have hdiv := Nat.div_add_mod xs.length n
  rw [length_residue] at h
  have hquot : (xs ++ ys).length / n = xs.length / n := by
    rw [List.length_append, Nat.div_eq_iff hn, Nat.mul_comm]
    omega
  constructor
  · rw [fullBlocks, fullBlocks, hquot, map_block_append (Nat.div_mul_le_self _ _)]
  · rw [residue, residue, hquot, List.drop_append_of_le_length (Nat.div_mul_le_self _ _)]

/-- A residue that is filled becomes the next full block. -/
theorem append_fill (hn : 0 < n) (h : (residue n xs).length + ys.length = n) :
    fullBlocks n (xs ++ ys) = fullBlocks n xs ++ [residue n xs ++ ys] ∧
      residue n (xs ++ ys) = [] := by
  have hdiv := Nat.div_add_mod xs.length n
  rw [Nat.mul_comm] at hdiv
  rw [length_residue] at h
  have hlen : (xs ++ ys).length = (xs.length / n + 1) * n := by
    rw [List.length_append, Nat.add_mul, Nat.one_mul]
    omega
  have hquot : (xs ++ ys).length / n = xs.length / n + 1 := by
    rw [hlen, Nat.mul_div_cancel _ hn]
  constructor
  · have hnext : block n (xs ++ ys) (xs.length / n) = residue n xs ++ ys := by
      rw [block, residue, List.drop_append_of_le_length (Nat.div_mul_le_self _ _),
        List.take_of_length_le]
      rw [List.length_append, List.length_drop]
      omega
    rw [fullBlocks, hquot, List.range_succ, List.map_append, List.map_singleton, hnext,
      map_block_append (Nat.div_mul_le_self _ _), fullBlocks]
  · rw [residue_eq_nil, hlen]
    exact Nat.dvd_mul_left n _

/-! Writing blocks. -/

/-- Data of the length of the block fits into it. -/
theorem fits_block {data : List α} (hi : i * n < xs.length)
    (h : data.length = min n (xs.length - i * n)) : i * n + data.length ≤ xs.length := by
  omega

theorem length_setBlock {data : List α} (hi : i * n + data.length ≤ xs.length) :
    (setBlock n xs i data).length = xs.length := by
  simp only [setBlock, List.length_append, List.length_take, List.length_drop]
  omega

theorem getElem?_setBlock {data : List α} (hi : i * n + data.length ≤ xs.length) (k : ℕ) :
    (setBlock n xs i data)[k]? =
      if i * n ≤ k ∧ k < i * n + data.length then data[k - i * n]? else xs[k]? := by
  have htake : (xs.take (i * n)).length = i * n := by
    rw [List.length_take]
    omega
  rw [setBlock, List.append_assoc]
  rcases Nat.lt_or_ge k (i * n) with hk | hk
  · rw [if_neg (by omega), List.getElem?_append_left (by omega), List.getElem?_take_of_lt hk]
  rw [List.getElem?_append_right (by omega), htake]
  rcases Nat.lt_or_ge k (i * n + data.length) with hd | hd
  · rw [if_pos ⟨hk, hd⟩, List.getElem?_append_left (by omega)]
  · rw [if_neg (by omega), List.getElem?_append_right (by omega), List.getElem?_drop]
    congr 1
    omega

theorem block_setBlock_self {data : List α} (hi : i * n < xs.length)
    (h : data.length = min n (xs.length - i * n)) : block n (setBlock n xs i data) i = data := by
  refine List.ext_getElem? ?_
  intro k
  rw [getElem?_block, getElem?_setBlock (fits_block hi h)]
  split_ifs with hk hd
  · rw [Nat.add_sub_cancel_left]
  · rw [List.getElem?_eq_none (by omega), List.getElem?_eq_none (by omega)]
  · rw [List.getElem?_eq_none (by omega)]

theorem block_setBlock_ne {data : List α} (hi : i * n < xs.length)
    (h : data.length = min n (xs.length - i * n)) (hij : j ≠ i) :
    block n (setBlock n xs i data) j = block n xs j := by
  refine List.ext_getElem? ?_
  intro k
  rw [getElem?_block, getElem?_block, getElem?_setBlock (fits_block hi h)]
  split_ifs with hk hd
  · -- two blocks have no unit in common
    exfalso
    rcases Nat.lt_or_gt_of_ne hij with hlt | hgt
    · have hle := Nat.mul_le_mul_right n (Nat.succ_le_of_lt hlt)
      rw [Nat.succ_mul] at hle
      omega
    · have hle := Nat.mul_le_mul_right n (Nat.succ_le_of_lt hgt)
      rw [Nat.succ_mul] at hle
      omega
  · rfl
  · rfl

/-- Sequences of one length with the same blocks are the same. -/
theorem ext_blocks (hn : 0 < n) (hlen : xs.length = ys.length)
    (h : ∀ i < blockCount n ys.length, block n xs i = block n ys i) : xs = ys := by
  refine List.ext_getElem? ?_
  intro k
  rcases Nat.lt_or_ge k ys.length with hk | hk
  · have hdiv := Nat.div_add_mod k n
    have hmod := Nat.mod_lt k hn
    rw [Nat.mul_comm] at hdiv
    have hblock := congrArg (·[k % n]?) (h (k / n) ((lt_blockCount hn).2 (by omega)))
    simpa only [getElem?_block, if_pos hmod, hdiv] using hblock
  · rw [List.getElem?_eq_none hk, List.getElem?_eq_none (by omega)]

end

end Lib
