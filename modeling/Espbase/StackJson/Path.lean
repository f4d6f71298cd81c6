import Espbase.Lib.Bytes

namespace Espbase.StackJson

open Espbase.Lib

/-- The elements of a path; a `PathView` is a path cut to its first elements. -/
abbrev PathBase := List Bytes

namespace PathBase

def depth (p : PathBase) : Nat := p.length

def getElement (p : PathBase) (index : Nat) : Option Bytes := p[index]?

def view (orig : PathBase) (limit : Nat) : PathBase := orig.take limit

def matchesParent (p parent : PathBase) : Bool :=
  if p.depth < parent.depth then false
  else (List.range parent.depth).all fun i => p.getElement i == parent.getElement i

theorem matchesParent_iff (p parent : PathBase) : p.matchesParent parent = true ↔ parent <+: p := by
  unfold matchesParent depth getElement
  constructor
  · intro h
    split_ifs at h with hlen
    rw [List.prefix_iff_eq_take]
    apply List.ext_getElem?
    intro i
    by_cases hi : i < parent.length
    · have := List.all_eq_true.mp h i (List.mem_range.mpr hi)
      rw [List.getElem?_take_of_lt hi]
      exact (beq_iff_eq.mp this).symm
    · rw [List.getElem?_eq_none (by omega), List.getElem?_eq_none]
      rw [List.length_take]
      omega
  · rintro ⟨rest, rfl⟩
    rw [if_neg (by simp)]
    simp only [List.all_eq_true, List.mem_range, beq_iff_eq]
    exact fun i hi => List.getElem?_append_left hi

end PathBase

end Espbase.StackJson
