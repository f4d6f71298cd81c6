import Espbase.History.CircularHistoryBuffer
import Espbase.Lib.Interleaving

namespace Espbase.History

open Espbase.Lib

/-- One `read_next` of a reader: the counter it saw and what it got. -/
structure Call where
  totalWritten : UInt64
  chunk : Bytes

/-- The buffer, and for each reader its cursor and the calls it has made. -/
structure System where
  buffer : CircularHistoryBuffer
  cursors : Nat → UInt64
  calls : Nat → List Call

inductive Event where
  | write (data : Bytes)
  | readNext (reader : Nat) (maxLen : UInt32)
  | registerListener (task : Nat)
  | removeListener (task : Nat)

namespace System

/-- Every reader starts with a cursor of 0. -/
def start (mem : Bytes) (size : UInt32) (h : mem.length = size.toNat) : System :=
  ⟨.init mem size h, fun _ => 0, fun _ => []⟩

/-- Each call holds the lock from its start to its end, so it is one step. -/
def step (s : System) : Event → Option System
  | .write data => do
    let (buffer, _) ← s.buffer.write data
    some { s with buffer }
  | .readNext reader maxLen => do
    let (chunk, cursor) ← s.buffer.readNext (s.cursors reader) maxLen
    let call : Call := ⟨s.buffer.totalWritten, chunk⟩
    some { s with
      cursors := Function.update s.cursors reader cursor
      calls := Function.update s.calls reader (s.calls reader ++ [call]) }
  | .registerListener task => some { s with buffer := s.buffer.registerListener task }
  | .removeListener task => some { s with buffer := s.buffer.removeListener task }

end System

/-- The stream accepted by the writes of a schedule. -/
def accepted (size : Nat) (events : List Event) : Bytes :=
  events.flatMap fun
    | .write data => CircularHistoryBuffer.kept size data
    | _ => []

/-- The calls of one reader that stood at position `p`, and now stands at `q`: each chunk is the
segment of the stream at a position not before the reader's own, and what lies between was
overtaken by at least `size` further bytes. -/
def Streamed (stream : Bytes) (size : Nat) : Nat → List Call → Nat → Prop
  | p, [], q => p = q
  | p, call :: calls, q =>
    ∃ start, p ≤ start ∧ start + call.chunk.length ≤ call.totalWritten.toNat ∧
      call.totalWritten.toNat ≤ stream.length ∧
      call.chunk = (stream.drop start).take call.chunk.length ∧
      (∀ i, p ≤ i → i < start → i + 1 + size ≤ call.totalWritten.toNat) ∧
      Streamed stream size (start + call.chunk.length) calls q

theorem Streamed.append (stream more : Bytes) (size p q : Nat) (calls : List Call)
    (h : Streamed stream size p calls q) : Streamed (stream ++ more) size p calls q := by
  induction calls generalizing p with
  | nil => exact h
  | cons call calls ih =>
    obtain ⟨start, hp, hn, ht, hc, hs, hr⟩ := h
    refine ⟨start, hp, hn, ?_, ?_, hs, ih _ hr⟩
    · rw [List.length_append]
      omega
    · rw [List.drop_append_of_le_length (by omega),
        List.take_append_of_le_length (by rw [List.length_drop]; omega)]
      exact hc

theorem Streamed.concat (stream : Bytes) (size p q r : Nat) (calls : List Call) (call : Call)
    (h : Streamed stream size p calls q) (hl : Streamed stream size q [call] r) :
    Streamed stream size p (calls ++ [call]) r := by
  induction calls generalizing p with
  | nil =>
    obtain rfl : p = q := h
    exact hl
  | cons c calls ih =>
    obtain ⟨start, hp, hn, ht, hc, hs, hr⟩ := h
    exact ⟨start, hp, hn, ht, hc, hs, ih _ hr⟩

/-- What holds after the stream was accepted, whatever the readers have done. -/
structure Served (s : System) (size : UInt32) (stream : Bytes) : Prop where
  holds : s.buffer.Holds stream
  size_eq : s.buffer.size = size
  cursor : ∀ r, (s.cursors r).toNat ≤ stream.length
  streamed : ∀ r, Streamed stream size.toNat 0 (s.calls r) (s.cursors r).toNat

theorem served_write (s : System) (size : UInt32) (stream data : Bytes) (h : Served s size stream)
    (hb : (stream ++ CircularHistoryBuffer.kept size.toNat data).length < 2 ^ 64) :
    ∃ s', s.step (.write data) = some s' ∧
      Served s' size (stream ++ CircularHistoryBuffer.kept size.toNat data) := by
  have hz := h.size_eq
  obtain ⟨b, hw, hs, -, hh⟩ := h.holds.write s.buffer stream data (by rw [hz]; exact hb)
  rw [hz] at hh
  refine ⟨{ s with buffer := b }, ?_, hh, hs.trans hz, ?_, ?_⟩
  · simp [System.step, hw]
  · intro r
    have := h.cursor r
    rw [List.length_append]
    exact Nat.le_add_right_of_le this
  · intro r
    exact (h.streamed r).append stream _ _ _ _ _

theorem served_readNext (s : System) (size : UInt32) (stream : Bytes) (h : Served s size stream)
    (reader : Nat) (maxLen : UInt32) :
    ∃ s', s.step (.readNext reader maxLen) = some s' ∧ Served s' size stream := by
  have hz := h.size_eq
  have hc := h.cursor reader
  obtain ⟨cursor, hr, hn⟩ := h.holds.readNext s.buffer stream (s.cursors reader) maxLen hc
  have ht := h.holds.total
  rw [hz] at hr hn
  generalize hstart : max (s.cursors reader).toNat (stream.length - size.toNat) = start at hr hn
  generalize hlen : min (stream.length - start) maxLen.toNat = n at hr hn
  have hl : ((stream.drop start).take n).length = n := by simp; omega
  have hone : Streamed stream size.toNat (s.cursors reader).toNat
      [⟨s.buffer.totalWritten, (stream.drop start).take n⟩] cursor.toNat := by
    refine ⟨start, by omega, ?_, Nat.le_of_eq ht, by rw [hl], ?_, ?_⟩
    · rw [hl, ht]
      omega
    · intro i _ hi
      rw [ht]
      omega
    · rw [hl]
      exact hn.symm
  refine ⟨⟨s.buffer, Function.update s.cursors reader cursor, Function.update s.calls reader
      (s.calls reader ++ [⟨s.buffer.totalWritten, (stream.drop start).take n⟩])⟩,
    by rw [System.step, hr]; rfl, h.holds, hz, fun r => ?_, fun r => ?_⟩
  all_goals by_cases hrr : r = reader
  · subst hrr
    simp only [Function.update_self]
    omega
  · simp only [Function.update_of_ne hrr]
    exact h.cursor r
  · subst hrr
    simp only [Function.update_self]
    exact (h.streamed r).concat stream _ _ _ _ _ _ hone
  · simp only [Function.update_of_ne hrr]
    exact h.streamed r

theorem served_exec (mem : Bytes) (size : UInt32) (hm : mem.length = size.toNat)
    (hs : 0 < size.toNat) (events : List Event)
    (hb : (accepted size.toNat events).length < 2 ^ 64) :
    ∃ s, exec System.step (.start mem size hm) events = some s ∧
      Served s size (accepted size.toNat events) := by
  induction events using List.reverseRecOn with
  | nil =>
    exact ⟨_, rfl, CircularHistoryBuffer.init_holds mem size hm hs, rfl, fun _ => Nat.zero_le _,
      fun _ => rfl⟩
  | append_singleton events event ih =>
    have ha : accepted size.toNat (events ++ [event]) =
        accepted size.toNat events ++ accepted size.toNat [event] := List.flatMap_append
    rw [ha] at hb ⊢
    obtain ⟨s, he, h⟩ := ih (by rw [List.length_append] at hb; omega)
    rw [exec_concat _ _ _ _ _ he]
    cases event with
    | write data =>
      have hk : accepted size.toNat [.write data] = CircularHistoryBuffer.kept size.toNat data := by
        simp [accepted]
      rw [hk] at hb ⊢
      exact served_write s size _ data h hb
    | readNext reader maxLen =>
      rw [show accepted size.toNat [.readNext reader maxLen] = [] from rfl, List.append_nil]
      exact served_readNext s size _ h reader maxLen
    | registerListener task =>
      rw [show accepted size.toNat [.registerListener task] = [] from rfl, List.append_nil]
      exact ⟨_, rfl, ⟨h.holds.pos, h.holds.total, h.holds.recent⟩, h.size_eq, h.cursor, h.streamed⟩
    | removeListener task =>
      rw [show accepted size.toNat [.removeListener task] = [] from rfl, List.append_nil]
      exact ⟨_, rfl, ⟨h.holds.pos, h.holds.total, h.holds.recent⟩, h.size_eq, h.cursor, h.streamed⟩

/-- In every schedule whose writes are counted without a wrap of the counter, each reader gets
segments of the accepted stream, in order, and never runs ahead of the writers. -/
theorem history_streaming (mem : Bytes) (size : UInt32) (hm : mem.length = size.toNat)
    (hs : 0 < size.toNat) (events : List Event)
    (hb : (accepted size.toNat events).length < 2 ^ 64) :
    ∃ s, exec System.step (.start mem size hm) events = some s ∧
      s.buffer.totalWritten.toNat = (accepted size.toNat events).length ∧
      ∀ r, Streamed (accepted size.toNat events) size.toNat 0 (s.calls r) (s.cursors r).toNat ∧
        s.cursors r ≤ s.buffer.totalWritten ∧
        s.buffer.snapCursor (s.cursors r) ≤ s.buffer.totalWritten ∧
        (s.buffer.available (s.buffer.snapCursor (s.cursors r))).toNat =
          s.buffer.totalWritten.toNat - (s.buffer.snapCursor (s.cursors r)).toNat ∧
        s.buffer.available (s.buffer.snapCursor (s.cursors r)) ≤ size := by
  obtain ⟨s, he, h⟩ := served_exec mem size hm hs events hb
  refine ⟨s, he, h.holds.total, ?_⟩
  intro r
  have hc := h.cursor r
  rw [← h.holds.total] at hc
  have hn := s.buffer.snapCursor_toNat (s.cursors r)
  have ha := s.buffer.available_toNat (s.cursors r) hc
  rw [h.size_eq] at hn
  refine ⟨h.streamed r, UInt64.le_iff_toNat_le.mpr hc, UInt64.le_iff_toNat_le.mpr (by omega), ha,
    UInt32.le_iff_toNat_le.mpr (by omega)⟩

theorem history_streaming_wrapped_read :
    (accepted 2 [.write [1, 2, 3], .readNext 0 1, .write [4], .readNext 0 9]).length < 2 ^ 64 ∧
    ∃ s, exec System.step (.start [0, 0] 2 rfl)
        [.write [1, 2, 3], .readNext 0 1, .write [4], .readNext 0 9] = some s ∧
      Streamed [2, 3, 4] 2 0 (s.calls 0) (s.cursors 0).toNat := by
  have hb : (accepted 2 [.write [1, 2, 3], .readNext 0 1, .write [4], .readNext 0 9]).length
      < 2 ^ 64 := by decide
  refine ⟨hb, ?_⟩
  obtain ⟨s, he, -, h⟩ := history_streaming [0, 0] 2 rfl (by decide) _ hb
  exact ⟨s, he, (h 0).1⟩

theorem accepted_replicate (n : Nat) :
    (accepted 1 (List.replicate n (.write [0]))).length = n := by
  induction n with
  | zero => rfl
  | succ n ih =>
    rw [List.replicate_succ]
    change (_ :: accepted 1 (List.replicate n (.write [0]))).length = _
    rw [List.length_cons, ih]

/-- With a ring of one byte a reader that reads one byte has caught up. -/
theorem caught_up (s : System) (stream : Bytes) (h : Served s 1 stream) :
    ∃ s', exec System.step s [.readNext 0 1, .write [0]] = some s' ∧
      (s'.cursors 0).toNat = stream.length ∧
      s'.buffer.totalWritten = s.buffer.totalWritten + 1 := by
  have hz := h.size_eq
  have hc := h.cursor 0
  obtain ⟨cursor, hr, hn⟩ := h.holds.readNext s.buffer stream (s.cursors 0) 1 hc
  obtain ⟨ha, hw⟩ := s.buffer.write_eq h.holds.pos [0]
  have hk : CircularHistoryBuffer.kept s.buffer.size.toNat [0] = [0] := by rw [hz]; rfl
  simp only [exec, System.step, hr, Option.bind_eq_bind, Option.bind_some, hw]
  refine ⟨_, rfl, ?_, ?_⟩
  · rw [hz, show (1 : UInt32).toNat = 1 from rfl] at hn
    change (Function.update s.cursors 0 cursor 0).toNat = _
    rw [Function.update_self]
    omega
  · change s.buffer.totalWritten + UInt64.ofNat (CircularHistoryBuffer.kept _ [0]).length = _
    rw [hk]
    rfl

/-- After 2^64 bytes the counter is back at 0, and behind the cursor of a reader that kept up. -/
theorem counter_wraps :
    ∃ s, exec System.step (.start [0] 1 rfl)
        (List.replicate (2 ^ 64 - 1) (.write [0]) ++ [.readNext 0 1, .write [0]]) = some s ∧
      s.buffer.totalWritten < s.cursors 0 := by
  generalize hN : 2 ^ 64 - 1 = N
  have hlen := accepted_replicate N
  obtain ⟨s, he, h⟩ := served_exec [0] 1 rfl (by decide) (List.replicate N (.write [0]))
    (by rw [show (1 : UInt32).toNat = 1 from rfl, hlen]; omega)
  rw [show (1 : UInt32).toNat = 1 from rfl] at h
  obtain ⟨s', he', hc, ht⟩ := caught_up s _ h
  refine ⟨s', by rw [exec_append, he]; exact he', ?_⟩
  have htot := h.holds.total
  have hone : (1 : UInt64).toNat = 1 := rfl
  rw [UInt64.lt_iff_toNat_lt, hc, ht, UInt64.toNat_add, htot, hlen, hone]
  omega

end Espbase.History
