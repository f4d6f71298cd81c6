import Espbase.StackJson.StackBuffer
import Espbase.Lib.Decimal

namespace Espbase.StackJson

open Espbase.Lib

inductive Width | w8 | w16 | w32 | w64
  deriving DecidableEq

def Width.bits : Width → Nat
  | .w8 => 8
  | .w16 => 16
  | .w32 => 32
  | .w64 => 64

/-- An integer type; `long` is one of 32 or 64 bits, by platform. -/
structure IntType where
  width : Width
  signed : Bool
  deriving DecidableEq

def IntType.min (t : IntType) : Int := if t.signed then -2 ^ (t.width.bits - 1) else 0

def IntType.max (t : IntType) : Int :=
  if t.signed then 2 ^ (t.width.bits - 1) - 1 else 2 ^ t.width.bits - 1

/-- A value of an integer type. -/
structure Integer where
  type : IntType
  val : Int
  ge : type.min ≤ val
  le : val ≤ type.max

def numDigitsU32 (x : Nat) : Nat :=
  if x < 10 then 1
  else if x < 100 then 2
  else if x < 1000 then 3
  else if x < 10000 then 4
  else if x < 100000 then 5
  else if x < 1000000 then 6
  else if x < 10000000 then 7
  else if x < 100000000 then 8
  else if x < 1000000000 then 9
  else 10

def numDigitsU64 (x : Nat) : Nat :=
  if x ≤ 0xFFFFFFFF then numDigitsU32 (x % 2 ^ 32)
  else if x < 10000000000 then 10
  else if x < 100000000000 then 11
  else if x < 1000000000000 then 12
  else if x < 10000000000000 then 13
  else if x < 100000000000000 then 14
  else if x < 1000000000000000 then 15
  else if x < 10000000000000000 then 16
  else if x < 100000000000000000 then 17
  else if x < 1000000000000000000 then 18
  else if x < 10000000000000000000 then 19
  else 20

def numDigits (w : Width) (x : Nat) : Nat :=
  match w with
  | .w64 => numDigitsU64 x
  | _ => numDigitsU32 (x % 2 ^ 32)

section write
variable {σ : Type} [Buffer σ]

/-- The digit loop; the first argument is the distance of `p` from the start of the span. -/
def writeDigits (buf : σ) : Nat → Nat → Option σ
  | 0, _ => none
  | p + 1, value => do
    let buf ← Buffer.store buf p [digit (value % 10)]
    if value / 10 > 0 then writeDigits buf p (value / 10) else some buf

def writeUnsigned (buf : σ) (w : Width) (value : Nat) : Option σ :=
  if Buffer.bad buf then some buf
  else
    let (buf, span) := Buffer.getWriteSpan buf
    let len := numDigits w value
    if len > span then some (Buffer.fail buf)
    else do
      let buf ← writeDigits buf len value
      Buffer.commit buf len

/-- `static_cast` of a signed value to the unsigned type of the same width. -/
def toUnsigned (w : Width) (value : Int) : Nat := (value % 2 ^ w.bits).toNat

def writeSign (buf : σ) (neg : Bool) : Option σ :=
  if neg then Buffer.store buf 0 [ch '-'] else some buf

def writeSigned (buf : σ) (w : Width) (value : Int) : Option σ :=
  if Buffer.bad buf then some buf
  else
    let (buf, span) := Buffer.getWriteSpan buf
    let neg := decide (value < 0)
    let uval := if neg then (2 ^ w.bits - toUnsigned w value) % 2 ^ w.bits else toUnsigned w value
    let len := numDigits w uval + (if neg then 1 else 0)
    if len > span then some (Buffer.fail buf)
    else do
      let buf ← writeDigits buf len uval
      let buf ← writeSign buf neg
      Buffer.commit buf len

/-- The integer overloads of `write_json_value`; the 8-bit ones go through `int`. -/
def writeInteger (buf : σ) (n : Integer) : Option σ :=
  let w := if n.type.width = .w8 then .w32 else n.type.width
  if n.type.signed then writeSigned buf w n.val else writeUnsigned buf w n.val.toNat

end write

/-- One comparison of the cascade: it either settles the count or raises the lower bound. -/
theorem cascade_step (x k rest : Nat) (hlo : 10 ^ k ≤ x)
    (h : 10 ^ (k + 1) ≤ x → rest = (decimal x).length) :
    (if x < 10 ^ (k + 1) then k + 1 else rest) = (decimal x).length := by
  split
  · next hhi => exact (decimal_length_eq x k hlo hhi).symm
  · next hhi => exact h (Nat.le_of_not_lt hhi)

theorem numDigitsU32_eq (x : Nat) (h : x < 2 ^ 32) : numDigitsU32 x = (decimal x).length := by
  rcases Nat.lt_or_ge x 10 with h1 | h1
  · rw [numDigitsU32, if_pos h1, decimal_of_lt x h1]
    rfl
  · rw [numDigitsU32, if_neg (Nat.not_lt.mpr h1)]
    exact cascade_step x 1 _ h1 fun h2 => cascade_step x 2 _ h2 fun h3 =>
      cascade_step x 3 _ h3 fun h4 => cascade_step x 4 _ h4 fun h5 =>
      cascade_step x 5 _ h5 fun h6 => cascade_step x 6 _ h6 fun h7 =>
      cascade_step x 7 _ h7 fun h8 => cascade_step x 8 _ h8 fun h9 =>
      (decimal_length_eq x 9 h9 (by omega)).symm

theorem numDigitsU64_eq (x : Nat) (h : x < 2 ^ 64) : numDigitsU64 x = (decimal x).length := by
  rcases Nat.lt_or_ge 0xFFFFFFFF x with h1 | h1
  · rw [numDigitsU64, if_neg (Nat.not_le.mpr h1)]
    exact cascade_step x 9 _ (by omega) fun h2 => cascade_step x 10 _ h2 fun h3 =>
      cascade_step x 11 _ h3 fun h4 => cascade_step x 12 _ h4 fun h5 =>
      cascade_step x 13 _ h5 fun h6 => cascade_step x 14 _ h6 fun h7 =>
      cascade_step x 15 _ h7 fun h8 => cascade_step x 16 _ h8 fun h9 =>
      cascade_step x 17 _ h9 fun h10 => cascade_step x 18 _ h10 fun h11 =>
      (decimal_length_eq x 19 h11 (by omega)).symm
  · rw [numDigitsU64, if_pos h1, Nat.mod_eq_of_lt (by omega), numDigitsU32_eq x (by omega)]

/-- The digit count is the length of the decimal text, on every value of the type. -/
theorem numDigits_eq (w : Width) (x : Nat) (h : x < 2 ^ w.bits) :
    numDigits w x = (decimal x).length := by
  cases w with
  | w64 => exact numDigitsU64_eq x h
  | w8 | w16 | w32 =>
    have h32 : x < 2 ^ 32 := h.trans_le (Nat.pow_le_pow_right (by decide) (by decide))
    change numDigitsU32 (x % 2 ^ 32) = _
    rw [Nat.mod_eq_of_lt h32, numDigitsU32_eq x h32]

/-- Negation in the unsigned type is the absolute value, the minimum included. -/
theorem negate_toUnsigned (w : Width) (value : Int) (hlo : -2 ^ (w.bits - 1) ≤ value)
    (hneg : value < 0) :
    (2 ^ w.bits - toUnsigned w value) % 2 ^ w.bits = value.natAbs := by
  have hp : (2 : Int) ^ w.bits = 2 * 2 ^ (w.bits - 1) := by
    cases w <;> decide
  have hmod : value % 2 ^ w.bits = value + 2 ^ w.bits := by
    rw [← Int.add_emod_right]
    exact Int.emod_eq_of_lt (by omega) (by omega)
  have hnat : ((2 ^ w.bits : Nat) : Int) = 2 ^ w.bits := by simp
  have hsub : 2 ^ w.bits - toUnsigned w value = value.natAbs := by
    rw [toUnsigned, hmod]
    omega
  rw [hsub]
  exact Nat.mod_eq_of_lt (by omega)

theorem toUnsigned_nonneg (w : Width) (value : Int) (h0 : 0 ≤ value)
    (hhi : value < 2 ^ w.bits) : toUnsigned w value = value.natAbs := by
  rw [toUnsigned, Int.emod_eq_of_lt h0 hhi]
  omega

end Espbase.StackJson
