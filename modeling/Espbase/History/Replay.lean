import Espbase.History.CircularHistoryBuffer
import Espbase.Lib.Loop
import Mathlib.Data.List.Induction

namespace Espbase.History

open Espbase.Lib

/-- The last `size` elements of a list, or all of it. -/
def latest {α : Type} (size : Nat) (xs : List α) : List α := xs.drop (xs.length - size)

section latest
variable {α : Type} (size : Nat)

theorem latest_length (xs : List α) : (latest size xs).length = min xs.length size := by
  rw [latest, List.length_drop]
  omega

/-- Older elements do not matter for what is latest. -/
theorem latest_append_right (xs ys : List α) (h : size ≤ ys.length) : latest size (xs ++ ys) = latest size ys := by
  have hlen : (xs ++ ys).length - size = xs.length + (ys.length - size) := by
    rw [List.length_append]
    omega
  rw [latest, hlen, List.drop_length_add_append, latest]

theorem latest_latest_append (xs ys : List α) : latest size (latest size xs ++ ys) = latest size (xs ++ ys) := by
  by_cases h : size ≤ xs.length
  · have hsplit : xs ++ ys = xs.take (xs.length - size) ++ (latest size xs ++ ys) := by
      rw [latest, ← List.append_assoc, List.take_append_drop]
    have hlong : size ≤ (latest size xs ++ ys).length := by
      rw [List.length_append, latest_length]
      omega
    rw [hsplit, latest_append_right size _ _ hlong]
  · have hall : latest size xs = xs := by
      rw [latest, Nat.sub_eq_zero_of_le (by omega), List.drop_zero]
    rw [hall]

theorem latest_kept (xs : Bytes) (data : Bytes) :
    latest size (xs ++ CircularHistoryBuffer.kept size data) = latest size (xs ++ data) := by
  unfold CircularHistoryBuffer.kept
  split_ifs with h
  · have hlen := latest_length size data
    change latest size (xs ++ latest size data) = _
    rw [latest_append_right size xs data (by omega), latest_append_right size xs (latest size data) (by omega),
      latest, hlen, Nat.min_eq_right (by omega), Nat.sub_self, List.drop_zero]
  · rfl

/-- What the writes keep ends like what was given to them. -/
theorem latest_flatMap_kept (writes : List Bytes) :
    latest size (writes.flatMap (CircularHistoryBuffer.kept size)) = latest size writes.flatten := by
  induction writes using List.reverseRecOn with
  | nil => rfl
  | append_singleton writes data ih =>
    rw [List.flatMap_append, List.flatten_append, List.flatMap_singleton, List.flatten_singleton,
      latest_kept, ← latest_latest_append, ih, latest_latest_append]

end latest

namespace CircularHistoryBuffer

/-- A sequence of writes. -/
def writeAll (b : CircularHistoryBuffer) : List Bytes → Option CircularHistoryBuffer
  | [] => some b
  | data :: writes => do
    let (b, _) ← b.write data
    writeAll b writes

/-- A call of `read_next` with the next chunk size, on the number of calls so far, the cursor and what has
been received; a reader stops at the first call that returns 0. -/
def replayTurn (b : CircularHistoryBuffer) (maxLen : Nat → UInt32) (st : Nat × UInt64 × Bytes) :
    Option (Turn (Nat × UInt64 × Bytes) Bytes) := do
  let (calls, cursor, received) := st
  let (out, cursor) ← b.readNext cursor (maxLen calls)
  if out.length = 0 then some (.done received)
  else some (.next (calls + 1, cursor, received ++ out))

/-- What a reader receives that starts with a cursor of 0; `calls` bounds the number of its calls. -/
def replay (b : CircularHistoryBuffer) (maxLen : Nat → UInt32) (calls : Nat) : Option Bytes :=
  iterate (b.replayTurn maxLen) calls (0, 0, [])

theorem writeAll_append (b : CircularHistoryBuffer) (ws vs : List Bytes) :
    b.writeAll (ws ++ vs) = (b.writeAll ws).bind fun b => b.writeAll vs := by
  induction ws generalizing b with
  | nil => rfl
  | cons data ws ih =>
    rw [List.cons_append, writeAll, writeAll]
    cases b.write data with
    | none => rfl
    | some r => exact ih r.1

/-- The ring holds the stream of the kept bytes. -/
theorem Holds.writeAll (b : CircularHistoryBuffer) (stream : Bytes) (h : b.Holds stream)
    (writes : List Bytes) (hb : (stream ++ writes.flatMap (kept b.size.toNat)).length < 2 ^ 64) :
    ∃ b', b.writeAll writes = some b' ∧ b'.size = b.size ∧
      b'.Holds (stream ++ writes.flatMap (kept b.size.toNat)) := by
  induction writes generalizing b stream with
  | nil => exact ⟨b, rfl, rfl, by simpa using h⟩
  | cons data writes ih =>
    rw [List.flatMap_cons, ← List.append_assoc] at hb ⊢
    obtain ⟨b1, h1, hs1, -, hh1⟩ := h.write b stream data (by
      rw [List.length_append] at hb
      omega)
    rw [← hs1] at hb hh1 ⊢
    obtain ⟨b2, h2, hs2, hh2⟩ := ih b1 _ hh1 hb
    refine ⟨b2, ?_, hs2, hh2⟩
    rw [CircularHistoryBuffer.writeAll, h1]
    exact h2

/-- One call of the reader: it receives the next bytes from its position on, or there are none left. -/
theorem Holds.replayTurn (b : CircularHistoryBuffer) (stream : Bytes) (h : b.Holds stream)
    (maxLen : Nat → UInt32) (hm : ∀ i, 0 < (maxLen i).toNat) (st : Nat × UInt64 × Bytes)
    (hst : st.2.1.toNat ≤ stream.length) :
    Advances (b.replayTurn maxLen)
      (fun st => stream.length - max st.2.1.toNat (stream.length - b.size.toNat))
      (fun st => st.2.1.toNat ≤ stream.length)
      (fun st received => received =
        st.2.2 ++ stream.drop (max st.2.1.toNat (stream.length - b.size.toNat))) st := by
  obtain ⟨calls, cursor, received⟩ := st
  dsimp only at hst
  obtain ⟨cursor', hr, hc⟩ := h.readNext b stream cursor (maxLen calls) hst
  have hpos := hm calls
  generalize hstart : max cursor.toNat (stream.length - b.size.toNat) = start at hr hc
  generalize hn : min (stream.length - start) (maxLen calls).toNat = n at hr hc
  have hlen : ((stream.drop start).take n).length = n := by
    rw [List.length_take, List.length_drop]
    omega
  have hcall : b.replayTurn maxLen (calls, cursor, received) =
      if n = 0 then some (.done received)
      else some (.next (calls + 1, cursor', received ++ (stream.drop start).take n)) := by
    simp only [CircularHistoryBuffer.replayTurn, hr, Option.bind_eq_bind, Option.bind_some, hlen]
  by_cases hz : n = 0
  · refine .inl ⟨received, by rw [hcall, if_pos hz], ?_⟩
    dsimp only
    rw [hstart, List.drop_eq_nil_of_le (by omega), List.append_nil]
  · refine .inr ⟨_, by rw [hcall, if_neg hz], ?_, ?_, ?_⟩
    · dsimp only
      omega
    · dsimp only
      omega
    · intro r hpost
      dsimp only at hpost ⊢
      have hnext : max cursor'.toNat (stream.length - b.size.toNat) = start + n := by omega
      rw [hpost, hnext, hstart, List.append_assoc, ← List.drop_drop, List.take_append_drop]

/-- A reader that reads on until nothing is returned receives the newest bytes of the stream. -/
theorem Holds.replay (b : CircularHistoryBuffer) (stream : Bytes) (h : b.Holds stream)
    (maxLen : Nat → UInt32) (hm : ∀ i, 0 < (maxLen i).toNat) :
    b.replay maxLen (b.size.toNat + 1) = some (latest b.size.toNat stream) := by
  obtain ⟨received, hr, hpost⟩ := iterate_spec (b.replayTurn maxLen) _ _ _
    (h.replayTurn b stream maxLen hm) (b.size.toNat + 1) (0, 0, []) (Nat.zero_le _) (by
      dsimp only
      rw [show (0 : UInt64).toNat = 0 from rfl]
      omega)
  dsimp only at hpost
  rw [show (0 : UInt64).toNat = 0 from rfl, Nat.zero_max, List.nil_append] at hpost
  rw [CircularHistoryBuffer.replay, hr, hpost, latest]

/-- With a ring of one byte every write of one byte is kept. -/
theorem flatMap_kept_replicate (n : Nat) :
    (List.replicate n [(7 : UInt8)]).flatMap (kept 1) = List.replicate n 7 := by
  induction n with
  | zero => rfl
  | succ n ih =>
    rw [List.replicate_succ, List.flatMap_cons, ih]
    rfl

/-- A write that takes the counter past its last value sets it to 0 again. -/
theorem write_wraps (b : CircularHistoryBuffer) (hs : b.size.toNat = 1)
    (ht : b.totalWritten.toNat = 2 ^ 64 - 1) :
    ∃ b', b.write [7] = some (b', b.listeners.filterMap id) ∧ b'.totalWritten = 0 := by
  obtain ⟨h, hw⟩ := b.write_eq (by omega) [7]
  refine ⟨_, hw, ?_⟩
  rw [← UInt64.toNat_inj]
  change (b.totalWritten + UInt64.ofNat (kept b.size.toNat [7]).length).toNat = 0
  rw [hs, UInt64.toNat_add, ht]
  rfl

/-- A reader that starts while the counter is 0 receives nothing. -/
theorem replay_zero (b : CircularHistoryBuffer) (ht : b.totalWritten = 0) (maxLen : Nat → UInt32) (calls : Nat) :
    b.replay maxLen (calls + 1) = some [] := by
  have hsnap : b.snapCursor 0 = 0 := by
    rw [← UInt64.toNat_inj, snapCursor_toNat, ht]
    simp
  have hread : b.readNext 0 (maxLen 0) = some ([], 0) := by
    simp only [readNext, hsnap, available, ht]
    rfl
  rw [replay, iterate, replayTurn, hread]
  rfl

end CircularHistoryBuffer

open CircularHistoryBuffer

/-- As long as the counter does not wrap, a replay of the history gives exactly the last bytes of everything
that was written. -/
theorem replay_exact (mem : Bytes) (size : UInt32) (hmem : mem.length = size.toNat) (hs : 0 < size.toNat)
    (writes : List Bytes) (hb : (writes.flatMap (kept size.toNat)).length < 2 ^ 64)
    (maxLen : Nat → UInt32) (hm : ∀ i, 0 < (maxLen i).toNat) :
    ∃ b, (init mem size hmem).writeAll writes = some b ∧
      b.replay maxLen (size.toNat + 1) = some (latest size.toNat writes.flatten) := by
  obtain ⟨b, hw, hsize, hholds⟩ := (init_holds mem size hmem hs).writeAll _ [] writes hb
  refine ⟨b, hw, ?_⟩
  have hr := hholds.replay b _ maxLen hm
  rw [hsize, List.nil_append] at hr
  change b.replay maxLen (size.toNat + 1) = some (latest size.toNat (writes.flatMap (kept size.toNat))) at hr
  rw [hr, latest_flatMap_kept]

/-- A ring of three bytes after a write that wraps, an empty one and an oversize one. -/
theorem replay_exact_oversize :
    ∃ b, (init [9, 9, 9] 3 rfl).writeAll [[1, 2], [3, 4], [], [5, 6, 7, 8], [9]] = some b ∧
      b.replay (fun _ => 2) 4 = some [7, 8, 9] :=
  replay_exact [9, 9, 9] 3 rfl (by decide) _ (by decide) (fun _ => 2) fun _ => by decide

/-- After 2^64 bytes the counter is back at 0, and a new reader takes the ring for an empty one. -/
theorem replay_wraps :
    ∃ b, (init [0] 1 rfl).writeAll (List.replicate (2 ^ 64) [7]) = some b ∧
      b.replay (fun _ => 1) 2 = some [] ∧
      (latest 1 (List.replicate (2 ^ 64) [(7 : UInt8)]).flatten).length = 1 := by
  generalize hn : 2 ^ 64 - 1 = n
  have hsucc : 2 ^ 64 = n + 1 := by omega
  have hkept := flatMap_kept_replicate n
  obtain ⟨b, hw, hsize, hholds⟩ := (init_holds [0] 1 rfl (by decide)).writeAll _ []
    (List.replicate n [7]) (by
      change ([] ++ (List.replicate n [(7 : UInt8)]).flatMap (kept 1)).length < _
      rw [hkept, List.nil_append, List.length_replicate]
      omega)
  have ht : b.totalWritten.toNat = n := by
    rw [hholds.total]
    change ([] ++ (List.replicate n [(7 : UInt8)]).flatMap (kept 1)).length = n
    rw [hkept, List.nil_append, List.length_replicate]
  obtain ⟨b', hw', hz⟩ := write_wraps b (by rw [hsize]; rfl) (by rw [ht, hn])
  refine ⟨b', ?_, replay_zero b' hz _ 1, ?_⟩
  · rw [hsucc, List.replicate_succ', writeAll_append, hw, Option.bind_some, writeAll, hw']
    rfl
  · rw [latest_length, List.flatten_replicate_singleton, List.length_replicate, hsucc]
    simp

end Espbase.History
