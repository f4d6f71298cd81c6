import Espbase.StackJson.Buffer
import Espbase.Lib.Chunks

namespace Espbase.StackJson

open Espbase.Lib

namespace StackBuffer
variable {maxSize : Nat}

/-- `head_` has not passed the capacity. -/
def Within (b : StackBuffer maxSize) : Prop := b.head ≤ maxSize

/-- The free cells behind `head_`. -/
def cells (b : StackBuffer maxSize) : Bytes := b.buffer.drop b.head

theorem view_length (b : StackBuffer maxSize) (h : b.Within) : b.view.length = b.head := by
  have := b.size
  simp only [Within] at h
  simp only [view, List.length_take]
  omega

theorem cells_length (b : StackBuffer maxSize) : b.cells.length = maxSize + 1 - b.head := by
  simp [cells, b.size]

theorem getWriteSpan_eq (b : StackBuffer maxSize) : b.getWriteSpan = maxSize - b.head := by
  unfold getWriteSpan
  split_ifs <;> omega

@[simp] theorem fail_head (b : StackBuffer maxSize) : b.fail.head = b.head := rfl
@[simp] theorem fail_bad (b : StackBuffer maxSize) : b.fail.bad = true := rfl
@[simp] theorem fail_view (b : StackBuffer maxSize) : b.fail.view = b.view := rfl

/-- `b'` holds what `b` holds followed by `w`, and is in the same failure state. -/
structure Appended (b : StackBuffer maxSize) (w : Bytes) (b' : StackBuffer maxSize) : Prop where
  within : b'.Within
  view : b'.view = b.view ++ w
  bad : b'.bad = b.bad

theorem Appended.head {b b' : StackBuffer maxSize} {w : Bytes} (h : Appended b w b')
    (hw : b.Within) : b'.head = b.head + w.length := by
  have := congrArg List.length h.view
  rwa [List.length_append, view_length b hw, view_length b' h.within] at this

theorem Appended.nil (b : StackBuffer maxSize) (h : b.Within) : Appended b [] b :=
  ⟨h, by simp, rfl⟩

theorem Appended.trans {a b c : StackBuffer maxSize} {u w : Bytes} (h : Appended a u b)
    (k : Appended b w c) : Appended a (u ++ w) c :=
  ⟨k.within, by rw [k.view, h.view, List.append_assoc], k.bad.trans h.bad⟩

/-- `b'` holds at least what `b` holds, and a failure is not forgotten. -/
structure Grows (b b' : StackBuffer maxSize) : Prop where
  within : b'.Within
  view : b.view <+: b'.view
  bad : b.bad = true → b'.bad = true

theorem Grows.refl (b : StackBuffer maxSize) (h : b.Within) : Grows b b :=
  ⟨h, List.prefix_rfl, id⟩

theorem Grows.trans {a b c : StackBuffer maxSize} (h : Grows a b) (k : Grows b c) : Grows a c :=
  ⟨k.within, h.view.trans k.view, fun hb => k.bad (h.bad hb)⟩

theorem Grows.head {b b' : StackBuffer maxSize} (h : Grows b b') (hw : b.Within) :
    b.head ≤ b'.head := by
  rw [← view_length b hw, ← view_length b' h.within]
  exact h.view.length_le

theorem Appended.grows {b b' : StackBuffer maxSize} {w : Bytes} (h : Appended b w b') :
    Grows b b' :=
  ⟨h.within, by rw [h.view]; exact List.prefix_append _ _, fun hb => by rw [h.bad, hb]⟩

theorem copyTo_spec (b : StackBuffer maxSize) (i : Nat) (w : Bytes)
    (h : b.head + i + w.length ≤ maxSize + 1) :
    ∃ b', b.copyTo (b.head + i) w = some b' ∧ b'.head = b.head ∧ b'.bad = b.bad ∧
      b'.view = b.view ∧ b'.cells = overwrite b.cells i w := by
  have hs := b.size
  refine ⟨_, dif_pos h, rfl, rfl, ?_, ?_⟩
  · have hle : (overwrite b.buffer (b.head + i) w).take b.head =
        ((overwrite b.buffer (b.head + i) w).take (b.head + i)).take b.head := by
      rw [List.take_take, Nat.min_eq_left (by omega)]
    change (overwrite b.buffer (b.head + i) w).take b.head = b.buffer.take b.head
    rw [hle, take_overwrite _ _ _ (by omega), List.take_take, Nat.min_eq_left (by omega)]
  · exact drop_overwrite b.buffer w b.head i (by omega)

theorem commit_spec (b : StackBuffer maxSize) (k : Nat) (h : b.head + k ≤ maxSize) :
    ∃ b', Buffer.commit b k = some b' ∧ Appended b (b.cells.take k) b' := by
  refine ⟨_, if_pos h, h, ?_, rfl⟩
  exact List.take_add

theorem store_spec (b : StackBuffer maxSize) (i : Nat) (w : Bytes)
    (h : b.head + i + w.length ≤ maxSize) :
    ∃ b', Buffer.store b i w = some b' ∧ b'.head = b.head ∧ b'.bad = b.bad ∧
      b'.view = b.view ∧ b'.cells = overwrite b.cells i w := by
  obtain ⟨b', hc, hrest⟩ := copyTo_spec b i w (by omega)
  refine ⟨b', ?_, hrest⟩
  change b.store i w = some b'
  rw [store, getWriteSpan_eq, if_pos (by omega), hc]

theorem write_fits (b : StackBuffer maxSize) (w : Bytes) (h : b.head + w.length ≤ maxSize) :
    ∃ b', Buffer.write b w = some (b', w.length) ∧ Appended b w b' := by
  obtain ⟨b1, h1, hh, hb, hv, hc⟩ := copyTo_spec b 0 w (by omega)
  have hk : b1.head + w.length ≤ maxSize := by omega
  refine ⟨{ b1 with head := b1.head + w.length }, ?_, hk, ?_, hb⟩
  · change b.write w = _
    rw [write, if_neg (by omega), show b.copyTo b.head w = some b1 from h1]
    rfl
  · have ht : b1.cells.take w.length = w := by rw [hc, take_overwrite_zero]
    calc ({ b1 with head := b1.head + w.length } : StackBuffer maxSize).view
        = b1.view ++ b1.cells.take w.length := List.take_add
      _ = b.view ++ w := by rw [hv, ht]

theorem write_misfit (b : StackBuffer maxSize) (w : Bytes) (h : maxSize < b.head + w.length) :
    Buffer.write b w = some (b.fail, 0) := if_pos h

/-- The state after a span of `total` cells was filled with `w` and committed. -/
theorem commit_filled (b b' : StackBuffer maxSize) (w rest : Bytes)
    (hfit : b.head + w.length ≤ maxSize) (hh : b'.head = b.head) (hb : b'.bad = b.bad)
    (hv : b'.view = b.view) (hc : b'.cells = w ++ rest) :
    ∃ b'', Buffer.commit b' w.length = some b'' ∧ Appended b w b'' := by
  obtain ⟨b'', he, ha⟩ := commit_spec b' w.length (by omega)
  refine ⟨b'', he, ha.within, ?_, ha.bad.trans hb⟩
  rw [ha.view, hv, hc, List.take_left]

end StackBuffer

end Espbase.StackJson
