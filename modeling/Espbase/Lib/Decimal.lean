import Espbase.Lib.Bytes
import Mathlib.Tactic.IntervalCases

namespace Espbase.Lib

/-- The character of a decimal digit. -/
def digit (d : Nat) : UInt8 := (48 + d).toUInt8

/-- Canonical decimal text of a natural number. -/
def decimal (n : Nat) : Bytes := (Nat.toDigits 10 n).map ch

/-- Canonical decimal text of an integer: a minus sign for negatives only. -/
def signedDecimal (z : Int) : Bytes :=
  if z < 0 then ch '-' :: decimal z.natAbs else decimal z.natAbs

theorem ch_digitChar (d : Nat) (h : d < 10) : ch d.digitChar = digit d := by
  interval_cases d <;> decide

theorem decimal_of_lt (n : Nat) (h : n < 10) : decimal n = [digit n] := by
  simp [decimal, Nat.toDigits_of_lt_base h, ch_digitChar n h]

theorem decimal_step (n : Nat) (h : 10 ≤ n) :
    decimal n = decimal (n / 10) ++ [digit (n % 10)] := by
  rw [decimal, Nat.toDigits_of_base_le (by decide) h, List.map_append, decimal, List.map_singleton,
    ch_digitChar _ (Nat.mod_lt n (by decide))]

theorem decimal_length_pos (n : Nat) : 0 < (decimal n).length := by
  simpa [decimal] using Nat.length_toDigits_pos

theorem decimal_length_le_iff (n k : Nat) (hk : 0 < k) : (decimal n).length ≤ k ↔ n < 10 ^ k := by
  simpa [decimal] using Nat.length_toDigits_le_iff (by decide) hk

/-- The number of digits is fixed by the two powers of ten around the number. -/
theorem decimal_length_eq (n k : Nat) (hlo : 10 ^ k ≤ n) (hhi : n < 10 ^ (k + 1)) :
    (decimal n).length = k + 1 := by
  have h1 := (decimal_length_le_iff n (k + 1) (by omega)).mpr hhi
  have h2 : ¬ (decimal n).length ≤ k := by
    rcases Nat.eq_zero_or_pos k with rfl | hk
    · have := decimal_length_pos n
      omega
    · rw [decimal_length_le_iff n k hk]
      omega
  omega

theorem digit_toNat (d : Nat) (h : d < 10) : (digit d).toNat = 48 + d := by
  interval_cases d <;> decide

/-- A decimal digit by its character code. -/
def IsDigit (c : UInt8) : Prop := 48 ≤ c.toNat ∧ c.toNat ≤ 57

instance (c : UInt8) : Decidable (IsDigit c) := inferInstanceAs (Decidable (_ ∧ _))

theorem decimal_isDigit (n : Nat) : ∀ c ∈ decimal n, IsDigit c := by
  induction n using Nat.strong_induction_on with
  | _ n ih =>
    intro c hc
    by_cases h : n < 10
    · rw [decimal_of_lt n h, List.mem_singleton] at hc
      have := digit_toNat n h
      exact ⟨by rw [hc]; omega, by rw [hc]; omega⟩
    · rw [decimal_step n (by omega), List.mem_append, List.mem_singleton] at hc
      rcases hc with hc | hc
      · exact ih (n / 10) (by omega) c hc
      · have := digit_toNat (n % 10) (by omega)
        exact ⟨by rw [hc]; omega, by rw [hc]; omega⟩

/-- The number that a list of digit characters denotes, after the value `acc` read so far. -/
def ofDecimal (acc : Nat) (s : Bytes) : Nat := s.foldl (fun a c => 10 * a + (c.toNat - 48)) acc

theorem ofDecimal_decimal (n : Nat) : ofDecimal 0 (decimal n) = n := by
  induction n using Nat.strong_induction_on with
  | _ n ih =>
    by_cases h : n < 10
    · simp [decimal_of_lt n h, ofDecimal, digit_toNat n h]
    · have hd := digit_toNat (n % 10) (by omega)
      have hq := ih (n / 10) (by omega)
      rw [ofDecimal] at hq ⊢
      rw [decimal_step n (by omega), List.foldl_append, hq]
      simp only [List.foldl_cons, List.foldl_nil, hd]
      omega

/-- Decimal digits without leading zeros that denote `n`. -/
structure Canonical (s : Bytes) (n : Nat) : Prop where
  nonempty : s ≠ []
  digits : ∀ c ∈ s, IsDigit c
  lead : s.head? = some (ch '0') → s = [ch '0']
  value : ofDecimal 0 s = n

theorem decimal_lead (n : Nat) (h : (decimal n).head? = some (ch '0')) : decimal n = [ch '0'] := by
  induction n using Nat.strong_induction_on with
  | _ n ih =>
    by_cases hn : n < 10
    · rw [decimal_of_lt n hn] at h ⊢
      rw [Option.some.inj h]
    · have hne : decimal (n / 10) ≠ [] := List.ne_nil_of_length_pos (decimal_length_pos _)
      rw [decimal_step n (by omega), List.head?_append_of_ne_nil _ hne] at h
      have hval := ofDecimal_decimal (n / 10)
      rw [ih (n / 10) (by omega) h] at hval
      have hzero : ofDecimal 0 [ch '0'] = 0 := by decide
      omega

theorem decimal_canonical (n : Nat) : Canonical (decimal n) n :=
  ⟨List.ne_nil_of_length_pos (decimal_length_pos n), decimal_isDigit n, decimal_lead n,
    ofDecimal_decimal n⟩

end Espbase.Lib
