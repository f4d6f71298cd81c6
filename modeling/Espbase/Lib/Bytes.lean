import Mathlib.Algebra.Ring.Nat
import Mathlib.Data.List.Basic
import Mathlib.Data.List.TakeDrop

namespace Espbase.Lib

abbrev Bytes := List UInt8

/-- The byte of an ASCII character. -/
def ch (c : Char) : UInt8 := c.toNat.toUInt8

/-- The bytes of an ASCII text. -/
def bytes (s : String) : Bytes := s.toList.map ch

/-- A statement about every byte is decided by its 256 cases. -/
instance decidableForallByte (p : UInt8 → Prop) [DecidablePred p] : Decidable (∀ c, p c) :=
  decidable_of_iff (∀ n : Fin 256, p (UInt8.ofFin n))
    ⟨fun h c => by simpa using h c.toFin, fun h n => h _⟩

/-- Writes `new` over the cells of `mem` that start at index `i`. -/
def overwrite (mem : Bytes) (i : Nat) (new : Bytes) : Bytes :=
  mem.take i ++ new ++ mem.drop (i + new.length)

theorem overwrite_length (mem new : Bytes) (i : Nat) (h : i + new.length ≤ mem.length) :
    (overwrite mem i new).length = mem.length := by
  simp [overwrite]
  omega

theorem take_overwrite (mem new : Bytes) (i : Nat) (h : i ≤ mem.length) :
    (overwrite mem i new).take i = mem.take i := by
  have hl : (mem.take i).length = i := by simp [h]
  rw [overwrite, List.append_assoc, List.take_append_of_le_length (by omega), List.take_take,
    Nat.min_self]

/-- Cells below the first written one are dropped on both sides alike. -/
theorem drop_overwrite (mem new : Bytes) (i j : Nat) (h : i + j ≤ mem.length) :
    (overwrite mem (i + j) new).drop i = overwrite (mem.drop i) j new := by
  have hl : i ≤ (mem.take (i + j)).length := by simp; omega
  rw [overwrite, overwrite, List.append_assoc, List.drop_append_of_le_length hl, List.drop_take,
    List.drop_drop, List.append_assoc]
  simp [Nat.add_assoc]

theorem take_overwrite_zero (mem new : Bytes) : (overwrite mem 0 new).take new.length = new := by
  simp [overwrite]

/-- Two adjacent blocks written one after the other are one block. -/
theorem overwrite_overwrite (mem a b : Bytes) (i : Nat) (h : i + a.length ≤ mem.length) :
    overwrite (overwrite mem i a) (i + a.length) b = overwrite mem i (a ++ b) := by
  have hl : (mem.take i ++ a).length = i + a.length := by simp; omega
  have ht : (overwrite mem i a).take (i + a.length) = mem.take i ++ a := by
    rw [overwrite, List.take_append_of_le_length (by omega), List.take_of_length_le (by omega)]
  have hd : (overwrite mem i a).drop (i + a.length + b.length) =
      mem.drop (i + (a ++ b).length) := by
    rw [overwrite, ← hl, ← List.drop_drop, List.drop_left, List.drop_drop, hl]
    simp [Nat.add_assoc]
  rw [overwrite, ht, hd, overwrite]
  simp

/-- The same when the later block comes first in memory. -/
theorem overwrite_overwrite_before (mem a b : Bytes) (i : Nat)
    (h : i + a.length + b.length ≤ mem.length) :
    overwrite (overwrite mem (i + a.length) b) i a = overwrite mem i (a ++ b) := by
  have hl : (mem.take (i + a.length)).length = i + a.length := by simp; omega
  have ht : (overwrite mem (i + a.length) b).take i = mem.take i := by
    rw [overwrite, List.append_assoc, List.take_append_of_le_length (by omega), List.take_take,
      Nat.min_eq_left (by omega)]
  have hd : (overwrite mem (i + a.length) b).drop (i + a.length) =
      b ++ mem.drop (i + (a ++ b).length) := by
    rw [overwrite, List.append_assoc, List.drop_append_of_le_length (by omega),
      List.drop_eq_nil_of_le (by omega)]
    simp [Nat.add_assoc]
  rw [overwrite, ht, hd, overwrite]
  simp

end Espbase.Lib
