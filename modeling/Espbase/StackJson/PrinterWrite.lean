import Espbase.StackJson.SpanBuffer
import Espbase.StackJson.StackBuffer

namespace Espbase.StackJson

open Espbase.Lib

namespace StackBuffer
variable {maxSize : Nat}

/-- The cells of the write span; the one behind it is for the terminator of `c_str()`. -/
def spanCells (b : StackBuffer maxSize) : Bytes := b.cells.take (maxSize - b.head)

theorem spanCells_length (b : StackBuffer maxSize) : b.spanCells.length = maxSize - b.head := by
  rw [spanCells, List.length_take, b.cells_length]
  omega

theorem take_overwrite_fit (mem w : Bytes) (i n : Nat) (h : i + w.length ≤ n) (hn : n ≤ mem.length) :
    (overwrite mem i w).take n = overwrite (mem.take n) i w := by
  unfold overwrite
  rw [List.take_append, List.take_append, List.take_take, List.drop_take]
  have hi : (mem.take i).length = i := by
    rw [List.length_take]
    omega
  simp only [hi, List.length_append]
  rw [Nat.min_comm, List.take_take, List.take_of_length_le (by omega : w.length ≤ n - i),
    Nat.sub_add_eq]

section span
variable (b : StackBuffer maxSize)

theorem load_spanCells (i : Nat) : b.load i = b.spanCells[i]? := by
  rw [load, getWriteSpan_eq, spanCells, cells]
  split_ifs with hi
  · rw [List.getElem?_take_of_lt hi, List.getElem?_drop]
  · rw [List.getElem?_take_eq_none (Nat.le_of_not_lt hi)]

theorem store_spanCells (i : Nat) (w : Bytes) (h : b.Within) (hfit : i + w.length ≤ b.spanCells.length) :
    ∃ b', b.store i w = some b' ∧ b'.Within ∧ b'.bad = b.bad ∧ b'.view = b.view ∧
      b'.spanCells = overwrite b.spanCells i w := by
  rw [spanCells_length] at hfit
  obtain ⟨b', e, hh, hg, hv, hc⟩ := store_spec b i w (by simp only [Within] at h; omega)
  refine ⟨b', e, ?_, hg, hv, ?_⟩
  · rw [Within, hh]
    exact h
  · rw [spanCells, spanCells, hh, hc]
    exact take_overwrite_fit _ _ _ _ hfit (by rw [b.cells_length]; omega)

theorem commit_spanCells (k : Nat) (h : b.Within) (hfit : k ≤ b.spanCells.length) :
    ∃ b', b.commit k = some b' ∧ b'.Within ∧ b'.bad = b.bad ∧
      b'.view = b.view ++ b.spanCells.take k ∧ b'.spanCells = b.spanCells.drop k := by
  rw [spanCells_length] at hfit
  simp only [Within] at h
  have hk : b.head + k ≤ maxSize := by omega
  refine ⟨{ b with head := b.head + k }, if_pos hk, hk, rfl, ?_, ?_⟩
  · show b.buffer.take (b.head + k) = _
    rw [List.take_add, spanCells, List.take_take, Nat.min_eq_left hfit]
    rfl
  · show (b.buffer.drop (b.head + k)).take (maxSize - (b.head + k)) = _
    rw [spanCells, cells, List.drop_take, List.drop_drop, Nat.sub_add_eq]

theorem span_spanCells : b.spanCells.length = (Buffer.getWriteSpan b).2 :=
  (spanCells_length b).trans b.getWriteSpan_eq.symm

end span

instance : SpanBuffer (StackBuffer maxSize) where
  Valid := Within
  view := view
  cells := spanCells
  load_eq b i _ := load_spanCells b i
  store_ok := store_spanCells
  commit_ok := commit_spanCells
  span_ok b h := ⟨h, rfl, rfl, span_spanCells b, Nat.le_of_eq (span_spanCells b)⟩
  fail_ok _ h := ⟨h, rfl, rfl⟩

/-- Escaped printing either appends the JSON escape of the text, or fails and appends nothing; it
fails only when the escape would leave no room for one more byte. -/
theorem vprint_spec (b : StackBuffer maxSize) (t : Bytes) (hw : b.Within) (hg : b.bad = false) :
    ∃ b' n, vprint true (some t) b = some (b', n) ∧
      (Appended b (escape t) b' ∨
        (b'.Within ∧ b'.view = b.view ∧ b'.bad = true ∧
          maxSize ≤ b.head + (escape t).length)) := by
  have hspan : (Buffer.getWriteSpan b).2 = maxSize - b.head := b.getWriteSpan_eq
  by_cases h : t.length < maxSize - b.head ∧ (escape t).length ≤ maxSize - b.head
  · rw [← hspan] at h
    obtain ⟨b', he, ha, -⟩ := vprint_fits t b hw hg h.1 h.2
    exact ⟨b', _, he, .inl ⟨ha.valid, ha.view, ha.bad⟩⟩
  · have hge := escape_length_ge t
    have hfull : maxSize ≤ b.head + (escape t).length := by omega
    rw [← hspan] at h
    obtain ⟨b', he, hr⟩ := vprint_misfit t b hw hg h
    exact ⟨b', 0, he, .inr ⟨hr.valid, hr.view, hr.bad, hfull⟩⟩

theorem vprint_bad (b : StackBuffer maxSize) (t : Bytes) (hg : b.bad = true) :
    vprint true (some t) b = some (b, 0) := if_pos hg

end StackBuffer

end Espbase.StackJson
