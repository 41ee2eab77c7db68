import Mathlib.Tactic

/-! Natural numbers in decimal, as ASCII bytes. -/

namespace Lib

def isDigit (b : UInt8) : Bool := 0x30 ≤ b && b ≤ 0x39

/-- The number that a row of digits stands for. -/
def ofDecimal (digits : List UInt8) : ℕ := digits.foldl (fun n d => 10 * n + (d.toNat - 0x30)) 0

def decimal (n : ℕ) : List UInt8 := (Nat.toDigits 10 n).map fun c => c.toNat.toUInt8

variable {c : Char} {b : UInt8}

theorem toNat_digit (hc : c.isDigit) : 0x30 ≤ c.toNat ∧ c.toNat ≤ 0x39 := by
  rw [Char.isDigit, Bool.and_eq_true, decide_eq_true_eq, decide_eq_true_eq] at hc
  exact ⟨UInt32.le_iff_toNat_le.1 hc.1, UInt32.le_iff_toNat_le.1 hc.2⟩

theorem toNat_toUInt8_digit (hc : c.isDigit) : c.toNat.toUInt8.toNat = c.toNat := by
  have h := toNat_digit hc
  rw [Nat.toUInt8, UInt8.toNat_ofNat']
  omega

theorem decimal_ne_nil (n : ℕ) : decimal n ≠ [] := by
  simp [decimal, Nat.toDigits_ne_nil]

theorem isDigit_of_mem_decimal {n : ℕ} (h : b ∈ decimal n) : isDigit b := by
  obtain ⟨c, hc, rfl⟩ := List.mem_map.1 h
  have hdigit : c.isDigit := Nat.isDigit_of_mem_toDigits (by decide) (by decide) hc
  have hbounds := toNat_digit hdigit
  simp only [isDigit, Bool.and_eq_true, decide_eq_true_eq, UInt8.le_iff_toNat_le,
    toNat_toUInt8_digit hdigit]
  exact hbounds

theorem ofDecimal_decimal (n : ℕ) : ofDecimal (decimal n) = n := by
  have hdigits : ∀ c ∈ Nat.toDigits 10 n, c.isDigit := fun c hc =>
    Nat.isDigit_of_mem_toDigits (by decide) (by decide) hc
  calc ofDecimal (decimal n)
      = (Nat.toDigits 10 n).foldl (fun m c => 10 * m + (c.toNat - 0x30)) 0 := by
        rw [ofDecimal, decimal, List.foldl_map]
        refine List.foldl_ext _ _ _ fun m c hc => ?_
        rw [toNat_toUInt8_digit (hdigits c hc)]
    _ = n := (Nat.ofDigitChars_eq_foldl).symm.trans Nat.ofDigitChars_ten_toDigits

end Lib
