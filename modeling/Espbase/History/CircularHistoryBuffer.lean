import Espbase.Lib.Ring

namespace Espbase.History

open Espbase.Lib

/-- `size_` is the `size_t` of a 32-bit target; the counters are 64 bits wide. -/
structure CircularHistoryBuffer where
  buffer : Bytes
  size : UInt32
  totalWritten : UInt64
  listeners : List (Option Nat)
  allocated : buffer.length = size.toNat

namespace CircularHistoryBuffer

/-- The buffer after `init(size, caps)`, with whatever the allocated memory held before. -/
def init (mem : Bytes) (size : UInt32) (h : mem.length = size.toNat) : CircularHistoryBuffer :=
  ⟨mem, size, 0, List.replicate 4 none, h⟩

/-- Stores `task` in the first free slot, if there is one. -/
def storeListener (task : Nat) : List (Option Nat) → List (Option Nat)
  | [] => []
  | none :: rest => some task :: rest
  | some t :: rest => some t :: storeListener task rest

def registerListener (b : CircularHistoryBuffer) (task : Nat) : CircularHistoryBuffer :=
  { b with listeners := storeListener task b.listeners }

def removeListener (b : CircularHistoryBuffer) (task : Nat) : CircularHistoryBuffer :=
  { b with listeners := b.listeners.map fun l => if l = some task then none else l }

/-- `position % size_`, which faults for a size of zero. -/
def offset (b : CircularHistoryBuffer) (position : UInt64) : Option Nat :=
  if b.size = 0 then none else some (position % b.size.toUInt64).toNat

/-- `memcpy(buffer_ + i, data, data.size)`, which must stay inside the allocation. -/
def copyIn (b : CircularHistoryBuffer) (i : Nat) (data : Bytes) : Option CircularHistoryBuffer :=
  if h : i + data.length ≤ b.buffer.length then
    some { b with
      buffer := overwrite b.buffer i data
      allocated := (overwrite_length b.buffer data i h).trans b.allocated }
  else none

/-- `memcpy(out, buffer_ + i, n)`, which must stay inside the allocation. -/
def copyOut (b : CircularHistoryBuffer) (i n : Nat) : Option Bytes :=
  if i + n ≤ b.buffer.length then some ((b.buffer.drop i).take n) else none

/-- The copy of `write`, in two parts where the ring ends. -/
def fill (b : CircularHistoryBuffer) (offset : Nat) (data : Bytes) :
    Option CircularHistoryBuffer :=
  let spaceUntilWrap := b.size.toNat - offset
  if data.length ≤ spaceUntilWrap then b.copyIn offset data
  else do
    let b ← b.copyIn offset (data.take spaceUntilWrap)
    b.copyIn 0 (data.drop spaceUntilWrap)

/-- The copy of `read_next`, in two parts where the ring ends. -/
def fetch (b : CircularHistoryBuffer) (offset toRead : Nat) : Option Bytes :=
  let spaceUntilWrap := b.size.toNat - offset
  if toRead ≤ spaceUntilWrap then b.copyOut offset toRead
  else do
    let head ← b.copyOut offset spaceUntilWrap
    let tail ← b.copyOut 0 (toRead - spaceUntilWrap)
    some (head ++ tail)

/-- What `write` keeps of `data`: at most its last `size` bytes. -/
def kept (size : Nat) (data : Bytes) : Bytes :=
  if size < data.length then data.drop (data.length - size) else data

/-- The buffer after a write, and the tasks it wakes. -/
def write (b : CircularHistoryBuffer) (data : Bytes) :
    Option (CircularHistoryBuffer × List Nat) := do
  let data := kept b.size.toNat data
  let offset ← b.offset b.totalWritten
  let b ← b.fill offset data
  some ({ b with totalWritten := b.totalWritten + UInt64.ofNat data.length },
    b.listeners.filterMap id)

/-- A first call starts at the oldest byte, a reader the writer has lapped is moved forward. -/
def snapCursor (b : CircularHistoryBuffer) (cursor : UInt64) : UInt64 :=
  let size := b.size.toUInt64
  let cursor :=
    if cursor = 0 ∧ 0 < b.totalWritten then
      if size < b.totalWritten then b.totalWritten - size else 0
    else cursor
  if size < b.totalWritten ∧ cursor < b.totalWritten - size then b.totalWritten - size else cursor

/-- `size_t available`, cut to 32 bits. -/
def available (b : CircularHistoryBuffer) (cursor : UInt64) : UInt32 :=
  (b.totalWritten - cursor).toUInt32

/-- The bytes written to `out_buf` and the new cursor. -/
def readNext (b : CircularHistoryBuffer) (cursor : UInt64) (maxLen : UInt32) :
    Option (Bytes × UInt64) :=
  let cursor := b.snapCursor cursor
  let toRead := min (b.available cursor) maxLen
  if 0 < toRead then do
    let offset ← b.offset cursor
    let out ← b.fetch offset toRead.toNat
    some (out, cursor + toRead.toUInt64)
  else some ([], cursor)

/-- The state after `stream` was accepted: the counter counts it and the ring holds its end. -/
structure Holds (b : CircularHistoryBuffer) (stream : Bytes) : Prop where
  pos : 0 < b.size.toNat
  total : b.totalWritten.toNat = stream.length
  recent : Recent b.buffer stream

theorem kept_length (size : Nat) (data : Bytes) : (kept size data).length ≤ size := by
  unfold kept
  split_ifs
  · rw [List.length_drop]
    omega
  · omega

theorem init_holds (mem : Bytes) (size : UInt32) (h : mem.length = size.toNat)
    (hs : 0 < size.toNat) : (init mem size h).Holds [] :=
  ⟨hs, rfl, fun _ hj => absurd hj (Nat.not_lt_zero _)⟩

section specs
variable (b : CircularHistoryBuffer)

theorem offset_eq (hs : 0 < b.size.toNat) (position : UInt64) :
    b.offset position = some (position.toNat % b.buffer.length) := by
  have hz : b.size ≠ 0 := by
    intro hz
    rw [hz] at hs
    exact absurd hs (by decide)
  rw [offset, if_neg hz, b.allocated]
  simp

theorem fill_eq (offset : Nat) (data : Bytes) (ho : offset < b.buffer.length)
    (hd : data.length ≤ b.buffer.length) :
    ∃ h, b.fill offset data = some { b with buffer := ringPut b.buffer offset data, allocated := h } := by
  have ha := b.allocated
  refine ⟨(ringPut_length _ _ _ ho hd).trans ha, ?_⟩
  unfold fill ringPut
  simp only [ha]
  split_ifs with hf
  · rw [copyIn, dif_pos (by omega)]
  · have hl : (data.take (b.size.toNat - offset)).length = b.size.toNat - offset := by simp; omega
    rw [copyIn, dif_pos (by omega)]
    have hr := overwrite_length b.buffer (data.take (b.size.toNat - offset)) offset (by omega)
    change copyIn _ 0 _ = _
    rw [copyIn, dif_pos (by simp only [hr, List.length_drop]; omega)]

theorem fetch_eq (offset toRead : Nat) (ho : offset < b.buffer.length)
    (hn : toRead ≤ b.buffer.length) : b.fetch offset toRead = some (ringGet b.buffer offset toRead) := by
  have ha := b.allocated
  unfold fetch ringGet
  simp only [ha]
  split_ifs with hf
  · rw [copyOut, if_pos (by omega)]
  · rw [copyOut, if_pos (by omega), copyOut, if_pos (by omega)]
    rfl

/-- A write never leaves the allocation; it changes the ring and the counter only. -/
theorem write_eq (hs : 0 < b.size.toNat) (data : Bytes) :
    ∃ h, b.write data = some ({ b with
      buffer := ringPut b.buffer (b.totalWritten.toNat % b.buffer.length) (kept b.size.toNat data)
      totalWritten := b.totalWritten + UInt64.ofNat (kept b.size.toNat data).length
      allocated := h }, b.listeners.filterMap id) := by
  have ha := b.allocated
  have hk := kept_length b.size.toNat data
  obtain ⟨h, hf⟩ := b.fill_eq (b.totalWritten.toNat % b.buffer.length) (kept b.size.toNat data)
    (Nat.mod_lt _ (by omega)) (by omega)
  refine ⟨h, ?_⟩
  rw [write, b.offset_eq hs]
  change (b.fill _ _).bind _ = _
  rw [hf]
  rfl

/-- The stream grows by the kept bytes, as long as the counter does not wrap. -/
theorem Holds.write (stream : Bytes) (h : b.Holds stream) (data : Bytes)
    (hb : (stream ++ kept b.size.toNat data).length < 2 ^ 64) :
    ∃ b', b.write data = some (b', b.listeners.filterMap id) ∧ b'.size = b.size ∧
      b'.listeners = b.listeners ∧ b'.Holds (stream ++ kept b.size.toNat data) := by
  have ha := b.allocated
  have hp := h.pos
  have hk := kept_length b.size.toNat data
  obtain ⟨hl, hw⟩ := b.write_eq hp data
  rw [List.length_append] at hb
  refine ⟨_, hw, rfl, rfl, hp, ?_, ?_⟩
  · change (b.totalWritten + _).toNat = _
    rw [UInt64.toNat_add, UInt64.toNat_ofNat_of_lt' (show _ < 2 ^ 64 by omega), h.total, Nat.mod_eq_of_lt hb,
      List.length_append]
  · have hr := h.recent.put _ _ (kept b.size.toNat data) (by omega) (by omega)
    rwa [← h.total] at hr

theorem snapCursor_toNat (cursor : UInt64) :
    (b.snapCursor cursor).toNat = max cursor.toNat (b.totalWritten.toNat - b.size.toNat) := by
  have hsub (h : b.size.toUInt64 < b.totalWritten) :
      (b.totalWritten - b.size.toUInt64).toNat = b.totalWritten.toNat - b.size.toNat := by
    rw [UInt64.toNat_sub_of_le _ _ (UInt64.le_of_lt h), UInt32.toNat_toUInt64]
  have hlt : b.size.toUInt64 < b.totalWritten ↔ b.size.toNat < b.totalWritten.toNat := by
    rw [UInt64.lt_iff_toNat_lt, UInt32.toNat_toUInt64]
  have hz : cursor = 0 → cursor.toNat = 0 := fun h => by rw [h]; rfl
  have hp : 0 < b.totalWritten ↔ 0 < b.totalWritten.toNat := by
    rw [UInt64.lt_iff_toNat_lt]; rfl
  unfold snapCursor
  by_cases hl : b.size.toUInt64 < b.totalWritten
  · have h1 := hsub hl
    have h2 := hlt.mp hl
    simp only [hl, true_and, if_true, UInt64.lt_iff_toNat_lt, h1]
    split_ifs <;> simp_all
    all_goals omega
  · have h2 := mt hlt.mpr hl
    simp only [hl, false_and, if_false]
    split_ifs with h
    · have := hz h.1
      show 0 = _
      omega
    · omega

/-- Nothing is cut off where the available bytes are counted. -/
theorem available_toNat (cursor : UInt64) (hc : cursor.toNat ≤ b.totalWritten.toNat) :
    (b.available (b.snapCursor cursor)).toNat =
      b.totalWritten.toNat - (b.snapCursor cursor).toNat := by
  have hs := b.size.toNat_lt
  have hn := b.snapCursor_toNat cursor
  have hle : b.snapCursor cursor ≤ b.totalWritten := by
    rw [UInt64.le_iff_toNat_le]
    omega
  rw [available, UInt64.toNat_toUInt32, UInt64.toNat_sub_of_le _ _ hle]
  exact Nat.mod_eq_of_lt (by omega)

/-- A call returns the bytes of the stream from the reader's position on, or from the oldest byte
still held. -/
theorem Holds.readNext (stream : Bytes) (h : b.Holds stream) (cursor : UInt64) (maxLen : UInt32)
    (hc : cursor.toNat ≤ stream.length) :
    let start := max cursor.toNat (stream.length - b.size.toNat)
    let n := min (stream.length - start) maxLen.toNat
    ∃ cursor', b.readNext cursor maxLen = some ((stream.drop start).take n, cursor') ∧
      cursor'.toNat = start + n := by
  have ha := b.allocated
  have hp := h.pos
  have ht := b.totalWritten.toNat_lt
  have hn := b.snapCursor_toNat cursor
  have hav := b.available_toNat cursor (by rw [h.total]; exact hc)
  rw [h.total] at hn hav ht
  have hmin : (min (b.available (b.snapCursor cursor)) maxLen).toNat =
      min (stream.length - (b.snapCursor cursor).toNat) maxLen.toNat := by
    rw [UInt32.toNat_min, hav]
  intro start n
  change (b.snapCursor cursor).toNat = start at hn
  rw [hn] at hmin
  change (min (b.available (b.snapCursor cursor)) maxLen).toNat = n at hmin
  unfold CircularHistoryBuffer.readNext
  simp only [UInt32.lt_iff_toNat_lt, hmin, b.offset_eq hp, hn]
  split_ifs with h0
  · have hg := h.recent.get _ _ (by omega) start n (by omega) (by omega)
    refine ⟨b.snapCursor cursor + (min (b.available (b.snapCursor cursor)) maxLen).toUInt64, ?_, ?_⟩
    · change (b.fetch _ _).bind _ = _
      rw [b.fetch_eq _ _ (Nat.mod_lt _ (by omega)) (by omega), hg]
      rfl
    · rw [UInt64.toNat_add, UInt32.toNat_toUInt64, hn, hmin]
      exact Nat.mod_eq_of_lt (by omega)
  · have hz : n = 0 := Nat.eq_zero_of_not_pos h0
    exact ⟨_, by rw [hz, List.take_zero], by omega⟩

end specs

end CircularHistoryBuffer

end Espbase.History
