import Espbase.StackJson.EscapedWrite

namespace Espbase.StackJson

open Espbase.Lib

/-- A buffer whose container grows; `get_write_span` keeps at least `expandSize` cells free. -/
structure DynamicBuffer (expandSize : Nat) where
  buffer : Bytes
  head : Nat
  bad : Bool

namespace DynamicBuffer
variable {expandSize : Nat}

def empty (expandSize : Nat) : DynamicBuffer expandSize :=
  ⟨List.replicate expandSize 0, 0, false⟩

/-- `buffer_.resize(size)`. -/
def resize (b : DynamicBuffer expandSize) (size : Nat) : DynamicBuffer expandSize :=
  { b with buffer := b.buffer.take size ++ List.replicate (size - b.buffer.length) 0 }

def copyTo (b : DynamicBuffer expandSize) (pos : Nat) (str : Bytes) :
    Option (DynamicBuffer expandSize) :=
  if pos + str.length ≤ b.buffer.length then
    some { b with buffer := overwrite b.buffer pos str }
  else none

/-- Grows the container when there is not enough room. -/
def grow (b : DynamicBuffer expandSize) (count : Nat) : DynamicBuffer expandSize :=
  if b.head + count > b.buffer.length then b.resize (b.head + count + expandSize) else b

def write (b : DynamicBuffer expandSize) (str : Bytes) :
    Option (DynamicBuffer expandSize × Nat) := do
  let b ← (b.grow str.length).copyTo b.head str
  some ({ b with head := b.head + str.length }, str.length)

/-- The container with the free span behind `head_`. -/
def getWriteSpan (b : DynamicBuffer expandSize) : DynamicBuffer expandSize :=
  if b.buffer.length - b.head < expandSize then b.resize (b.head + expandSize) else b

def load (b : DynamicBuffer expandSize) (i : Nat) : Option UInt8 := b.buffer[b.head + i]?

def store (b : DynamicBuffer expandSize) (i : Nat) (str : Bytes) :
    Option (DynamicBuffer expandSize) := b.copyTo (b.head + i) str

/-- `head_ += count`, checked: `head_` must not pass the end of the container. -/
def commit (b : DynamicBuffer expandSize) (count : Nat) : Option (DynamicBuffer expandSize) :=
  if b.head + count ≤ b.buffer.length then some { b with head := b.head + count } else none

def view (b : DynamicBuffer expandSize) : Bytes := b.buffer.take b.head

instance : Buffer (DynamicBuffer expandSize) where
  write := write
  getWriteSpan b := (b.getWriteSpan, b.getWriteSpan.buffer.length - b.getWriteSpan.head)
  load := load
  store := store
  commit := commit
  length b := b.head
  bad b := b.bad
  fail b := { b with bad := true }

def Within (b : DynamicBuffer expandSize) : Prop := b.head ≤ b.buffer.length

/-- `b'` holds what `b` holds followed by `w`, and is in the same failure state. -/
structure Appended (b : DynamicBuffer expandSize) (w : Bytes) (b' : DynamicBuffer expandSize) :
    Prop where
  within : b'.Within
  view : b'.view = b.view ++ w
  bad : b'.bad = b.bad

theorem Appended.trans {a b c : DynamicBuffer expandSize} {u w : Bytes} (h : Appended a u b)
    (k : Appended b w c) : Appended a (u ++ w) c :=
  ⟨k.within, by rw [k.view, h.view, List.append_assoc], k.bad.trans h.bad⟩

theorem view_length (b : DynamicBuffer expandSize) (h : b.Within) : b.view.length = b.head := by
  simp only [Within] at h
  simp [view, h]

theorem Appended.head {b b' : DynamicBuffer expandSize} {w : Bytes} (h : Appended b w b')
    (hw : b.Within) : b'.head = b.head + w.length := by
  have := congrArg List.length h.view
  rwa [List.length_append, view_length b hw, view_length b' h.within] at this

theorem resize_length (b : DynamicBuffer expandSize) (size : Nat) :
    (b.resize size).buffer.length = size := by
  simp only [resize, List.length_append, List.length_take, List.length_replicate]
  omega

theorem resize_view (b : DynamicBuffer expandSize) (size : Nat) (hw : b.Within)
    (h : b.head ≤ size) : (b.resize size).view = b.view := by
  have hl : b.head ≤ (b.buffer.take size).length := by
    simp only [Within] at hw
    simp only [List.length_take]
    omega
  simp only [view, resize]
  rw [List.take_append_of_le_length hl, List.take_take, Nat.min_eq_left h]

/-- Growing leaves the content and makes room for `count` bytes. -/
theorem grow_spec (b : DynamicBuffer expandSize) (count : Nat) (hw : b.Within) :
    (b.grow count).head = b.head ∧ (b.grow count).bad = b.bad ∧ (b.grow count).view = b.view ∧
      b.head + count ≤ (b.grow count).buffer.length := by
  unfold grow
  split_ifs with h
  · refine ⟨rfl, rfl, resize_view b _ hw (by omega), ?_⟩
    rw [resize_length]
    omega
  · exact ⟨rfl, rfl, rfl, by omega⟩

theorem getWriteSpan_spec (b : DynamicBuffer expandSize) (hw : b.Within) :
    b.getWriteSpan.head = b.head ∧ b.getWriteSpan.bad = b.bad ∧ b.getWriteSpan.view = b.view ∧
      b.getWriteSpan.Within ∧ b.head + expandSize ≤ b.getWriteSpan.buffer.length := by
  simp only [Within] at hw ⊢
  unfold getWriteSpan
  split_ifs with h
  · refine ⟨rfl, rfl, resize_view b _ hw (by omega), ?_, ?_⟩
    · rw [resize_length]
      exact Nat.le_add_right _ _
    · exact Nat.le_of_eq (resize_length b _).symm
  · exact ⟨rfl, rfl, rfl, hw, by omega⟩

/-- Storing over free cells leaves the content. -/
theorem store_spec (b : DynamicBuffer expandSize) (i : Nat) (w : Bytes)
    (h : b.head + i + w.length ≤ b.buffer.length) :
    ∃ b', Buffer.store b i w = some b' ∧ b'.head = b.head ∧ b'.bad = b.bad ∧ b'.view = b.view ∧
      b'.buffer.length = b.buffer.length ∧
      b'.buffer.drop b.head = overwrite (b.buffer.drop b.head) i w := by
  refine ⟨_, if_pos h, rfl, rfl, ?_, overwrite_length _ _ _ h, ?_⟩
  · have hle : (overwrite b.buffer (b.head + i) w).take b.head =
        ((overwrite b.buffer (b.head + i) w).take (b.head + i)).take b.head := by
      rw [List.take_take, Nat.min_eq_left (by omega)]
    change (overwrite b.buffer (b.head + i) w).take b.head = b.buffer.take b.head
    rw [hle, take_overwrite _ _ _ (by omega), List.take_take, Nat.min_eq_left (by omega)]
  · exact drop_overwrite b.buffer w b.head i (by omega)

/-- Committing a span whose first cells hold `w`. -/
theorem commit_spec (b : DynamicBuffer expandSize) (w rest : Bytes) (hw : b.Within)
    (hc : b.buffer.drop b.head = w ++ rest) :
    ∃ b', Buffer.commit b w.length = some b' ∧ Appended b w b' := by
  have hl := congrArg List.length hc
  simp only [Within] at hw
  simp only [List.length_drop, List.length_append] at hl
  have hk : b.head + w.length ≤ b.buffer.length := by omega
  refine ⟨_, if_pos hk, hk, ?_, rfl⟩
  change b.buffer.take (b.head + w.length) = b.buffer.take b.head ++ w
  rw [List.take_add, hc, List.take_left]

theorem write_appends (b : DynamicBuffer expandSize) (w : Bytes) (hw : b.Within) :
    ∃ b', Buffer.write b w = some (b', w.length) ∧ Appended b w b' := by
  obtain ⟨hh, hb, hv, hroom⟩ := grow_spec b w.length hw
  have hwg : (b.grow w.length).Within := by
    simp only [Within]
    omega
  obtain ⟨b1, h1, hh1, hb1, hv1, hl1, hc1⟩ := store_spec (b.grow w.length) 0 w (by omega)
  have h1 : (b.grow w.length).copyTo b.head w = some b1 := by
    rw [← h1, ← hh]
    rfl
  rw [← hh1] at hc1
  obtain ⟨b2, h2, ha⟩ := commit_spec b1 w _ (by simp only [Within] at hwg ⊢; omega) hc1
  change b1.commit w.length = some b2 at h2
  unfold commit at h2
  split_ifs at h2
  cases h2
  refine ⟨_, ?_, ha.within, by rw [ha.view, hv1, hv], ha.bad.trans (hb1.trans hb)⟩
  change b.write w = _
  simp [write, h1]

theorem flush_appends (b : DynamicBuffer expandSize) (run : Bytes) (hw : b.Within) :
    ∃ b', flush b run = some (b', true) ∧ Appended b run b' := by
  unfold flush
  split_ifs with h
  · exact ⟨b, rfl, hw, by simp [h], rfl⟩
  · obtain ⟨b', he, ha⟩ := write_appends b run hw
    have hpos := List.length_pos_iff.mpr h
    exact ⟨b', by simp [he, h], ha⟩

theorem escapeLoop_appends (str : Bytes) (b : DynamicBuffer expandSize) (run : Bytes)
    (hw : b.Within) :
    ∃ b', escapeLoop b run str = some (b', true) ∧ Appended b (run ++ escape str) b' := by
  induction str generalizing b run with
  | nil =>
    rw [escapeLoop, escape_nil, List.append_nil]
    exact flush_appends b run hw
  | cons c str ih =>
    rw [escapeLoop]
    split_ifs with hc
    · obtain ⟨b1, h1, ha1⟩ := flush_appends b run hw
      obtain ⟨b2, h2, ha2⟩ := write_appends b1 (escapeSequence c) ha1.within
      obtain ⟨b3, h3, ha3⟩ := ih b2 [] ha2.within
      have hne : (escapeSequence c).length ≠ 0 := by simp [escapeSequence_ne_nil]
      refine ⟨b3, by simp [h1, h2, h3, escapeSequence_ne_nil], ?_⟩
      have hs := escapeSequence_eq c ((needsEscaping_iff c).mp hc)
      have := (ha1.trans ha2).trans ha3
      simpa [escape_cons, hs] using this
    · obtain ⟨b1, h1, ha1⟩ := ih b (run ++ [c]) hw
      have hplain : escapeByte c = [c] :=
        escapeByte_plain c fun hs => hc ((needsEscaping_iff c).mpr hs)
      refine ⟨b1, h1, ?_⟩
      simpa [escape_cons, hplain] using ha1

theorem writeQuoted_appends (b : DynamicBuffer expandSize) (str : Bytes) (hw : b.Within) :
    ∃ b' n, writeQuoted b str b.head = some (b', n) ∧ n ≠ 0 ∧
      Appended b (stringLiteral str) b' := by
  obtain ⟨b1, h1, ha1⟩ := write_appends b [ch '"'] hw
  obtain ⟨b2, h2, ha2⟩ := escapeLoop_appends str b1 [] ha1.within
  obtain ⟨b3, h3, ha3⟩ := write_appends b2 [ch '"'] ha2.within
  have ha : Appended b (stringLiteral str) b3 := by
    simpa [stringLiteral] using (ha1.trans ha2).trans ha3
  refine ⟨b3, b3.head - b.head, ?_, ?_, ha⟩
  · simp only [writeQuoted, h1, h2, h3, List.length_singleton, Option.bind_eq_bind,
      Option.bind_some, if_true, Nat.one_ne_zero, if_false]
    rfl
  · rw [ha.head hw]
    simp [stringLiteral]

/-- The one-shot path fills the span from the left and commits it once. -/
theorem writeOneShot_appends (b : DynamicBuffer expandSize) (str : Bytes) (hw : b.Within)
    (h : b.head + str.length + 2 ≤ b.buffer.length) :
    ∃ b', writeOneShot b str = some (b', str.length + 2) ∧
      Appended b ([ch '"'] ++ str ++ [ch '"']) b' := by
  have hdl : (b.buffer.drop b.head).length = b.buffer.length - b.head := List.length_drop
  simp only [Within] at hw
  obtain ⟨b1, e1, h1, g1, v1, l1, c1⟩ := store_spec b 0 [ch '"'] (by simp; omega)
  obtain ⟨b2, e2, h2, g2, v2, l2, c2⟩ : ∃ b2, copyContent b1 str = some b2 ∧
      b2.head = b.head ∧ b2.bad = b.bad ∧ b2.view = b.view ∧
      b2.buffer.length = b.buffer.length ∧
      b2.buffer.drop b.head = overwrite (b.buffer.drop b.head) 0 ([ch '"'] ++ str) := by
    unfold copyContent
    split_ifs with hs
    · exact ⟨b1, rfl, h1, g1, v1, l1, by simpa [hs] using c1⟩
    · obtain ⟨b2, e2, h2, g2, v2, l2, c2⟩ := store_spec b1 1 str (by omega)
      refine ⟨b2, e2, h2.trans h1, g2.trans g1, v2.trans v1, l2.trans l1, ?_⟩
      rw [← h1, c2, h1, c1]
      exact overwrite_overwrite _ [ch '"'] str 0 (by simp; omega)
  obtain ⟨b3, e3, h3, g3, v3, l3, c3⟩ :=
    store_spec b2 (str.length + 1) [ch '"'] (by simp; omega)
  have hc : b3.buffer.drop b3.head =
      ([ch '"'] ++ str ++ [ch '"']) ++ (b.buffer.drop b.head).drop (str.length + 2) := by
    have hl : 0 + ([ch '"'] ++ str).length = str.length + 1 := by simp
    rw [h3, c3, h2, c2, ← hl, overwrite_overwrite _ _ _ _ (by simp; omega), overwrite]
    simp
  have hlen : ([ch '"'] ++ str ++ [ch '"']).length = str.length + 2 := by simp
  obtain ⟨b4, e4, ha⟩ := commit_spec b3 _ _ (by simp only [Within]; omega) hc
  refine ⟨b4, ?_, ha.within, by rw [ha.view, v3, v2], ha.bad.trans (g3.trans g2)⟩
  rw [hlen] at e4
  simp [writeOneShot, e1, e2, e3, e4]

theorem writeEscaped_appends (b : DynamicBuffer expandSize) (str : Bytes) (hw : b.Within)
    (hg : b.bad = false) :
    ∃ b' n, writeEscaped b str = some (b', n) ∧ n ≠ 0 ∧
      Appended b (stringLiteral str) b' := by
  have hbad : Buffer.bad b = false := hg
  unfold writeEscaped
  simp only [hbad, Bool.false_eq_true, if_false]
  by_cases hs : str.any needsEscaping
  · rw [if_pos hs]
    exact writeQuoted_appends b str hw
  · rw [if_neg hs]
    obtain ⟨hh, hb, hv, hws, -⟩ := getWriteSpan_spec b hw
    have regrown (w : Bytes) (b' : DynamicBuffer expandSize) (h : Appended b.getWriteSpan w b') :
        Appended b w b' := ⟨h.within, by rw [h.view, hv], h.bad.trans hb⟩
    change ∃ b' n, (if str.length + 2 ≤ b.getWriteSpan.buffer.length - b.getWriteSpan.head then
      writeOneShot b.getWriteSpan str else writeQuoted b.getWriteSpan str b.head) = some (b', n) ∧ _
    split_ifs with hf
    · have hplain : escape str = str := by
        apply escape_plain
        intro c hc hsp
        exact hs (List.any_eq_true.mpr ⟨c, hc, (needsEscaping_iff c).mpr hsp⟩)
      have htext : stringLiteral str = [ch '"'] ++ str ++ [ch '"'] := by
        rw [stringLiteral, hplain]
        rfl
      obtain ⟨b', he, ha⟩ := writeOneShot_appends b.getWriteSpan str hws (by omega)
      exact ⟨b', str.length + 2, he, by omega, by rw [htext]; exact regrown _ _ ha⟩
    · obtain ⟨b', n, he, hn, ha⟩ := writeQuoted_appends b.getWriteSpan str hws
      rw [hh] at he
      exact ⟨b', n, he, hn, regrown _ _ ha⟩

end DynamicBuffer

end Espbase.StackJson
