import Espbase.History.CircularHistoryBuffer
import Espbase.Lib.Interleaving

namespace Espbase.History

open Espbase.Lib

/-- Where `stream_log_handler` stands. -/
inductive HandlerPc where
  | register
  | readNext
  /-- `httpd_resp_send_chunk(req, chunk, bytes)` -/
  | send (chunk : Bytes)
  /-- `ulTaskNotifyTake(pdTRUE, pdMS_TO_TICKS(2000))` -/
  | take
  /-- `httpd_resp_send_chunk(req, "\n", 1)` -/
  | heartbeat
  | remove
  /-- `httpd_resp_send_chunk(req, nullptr, 0)` -/
  | close
  | finished
  deriving DecidableEq

/-- The buffer, a handler that streams it, and the writers. -/
structure LogStream where
  buffer : CircularHistoryBuffer
  handler : HandlerPc
  cursor : UInt64
  /-- the notification value of the handler's task -/
  notified : Nat
  /-- for each writer behind its critical section, the tasks it is still to notify -/
  writers : List (List Nat)

namespace LogStream

/-- One step of the handler. `ok`: the chunk is sent. A wait without a notification ends by its timeout. -/
def handle (s : LogStream) (task : Nat) (ok : Bool) : Option LogStream :=
  match s.handler with
  | .register => some { s with buffer := s.buffer.registerListener task, handler := .readNext }
  | .readNext => do
    let (chunk, cursor) ← s.buffer.readNext s.cursor 512
    some { s with cursor, handler := if chunk = [] then .take else .send chunk }
  | .send _ => some { s with handler := if ok then .readNext else .remove }
  | .take =>
    some (if 0 < s.notified then { s with notified := 0, handler := .readNext }
      else { s with handler := .heartbeat })
  | .heartbeat => some { s with handler := if ok then .readNext else .remove }
  | .remove => some { s with buffer := s.buffer.removeListener task, handler := .close }
  | .close => some { s with handler := .finished }
  | .finished => none

/-- A writer that is still to notify these tasks, if there are any. -/
def pending (toNotify : List Nat) : Option (List Nat) := if toNotify = [] then none else some toNotify

inductive Label where
  /-- the critical section of a `write` -/
  | write (data : Bytes)
  /-- the next `xTaskNotifyGive` of the `i`th writer -/
  | notify (i : Nat)
  | handler (ok : Bool)
  /-- another task registers or removes itself -/
  | register (t : Nat)
  | remove (t : Nat)

def next (task : Nat) (s : LogStream) : Label → Option LogStream
  | .write data => do
    let (buffer, toNotify) ← s.buffer.write data
    some { s with buffer, writers := s.writers ++ (pending toNotify).toList }
  | .notify i => do
    let toNotify ← s.writers[i]?
    let t ← toNotify.head?
    some { s with
      notified := if t = task then s.notified + 1 else s.notified
      writers := s.writers.take i ++ (pending toNotify.tail).toList ++ s.writers.drop (i + 1) }
  | .handler ok => s.handle task ok
  | .register t => if t = task then none else some { s with buffer := s.buffer.registerListener t }
  | .remove t => if t = task then none else some { s with buffer := s.buffer.removeListener t }

/-- The handler is called on a new buffer. -/
def start (mem : Bytes) (size : UInt32) (h : mem.length = size.toNat) : LogStream :=
  ⟨.init mem size h, .register, 0, 0, []⟩

/-- The handler is called; any writers may be under way. -/
structure AtStart (s : LogStream) : Prop where
  handler : s.handler = .register
  cursor : s.cursor = 0

/-- The handler finds a free slot, and the counter does not wrap. -/
def Allowed (s : LogStream) : Label → Prop
  | .write data =>
    s.buffer.totalWritten.toNat + (CircularHistoryBuffer.kept s.buffer.size.toNat data).length < 2 ^ 64
  | .handler _ => s.handler = .register → none ∈ s.buffer.listeners
  | _ => True

instance (s : LogStream) : (l : Label) → Decidable (s.Allowed l)
  | .write _ => inferInstanceAs (Decidable (_ < _))
  | .handler _ => inferInstanceAs (Decidable (_ → _))
  | .notify _ => .isTrue trivial
  | .register _ => .isTrue trivial
  | .remove _ => .isTrue trivial

end LogStream

namespace CircularHistoryBuffer

theorem storeListener_mem (t : Nat) (l : List (Option Nat)) (h : none ∈ l) : some t ∈ storeListener t l := by
  induction l with
  | nil => cases h
  | cons o rest ih =>
    cases o with
    | none => exact List.mem_cons_self
    | some t' =>
      apply List.mem_cons_of_mem
      exact ih ((List.mem_cons.mp h).resolve_left nofun)

theorem storeListener_keep (t t' : Nat) (l : List (Option Nat)) (h : some t ∈ l) :
    some t ∈ storeListener t' l := by
  induction l with
  | nil => cases h
  | cons o rest ih =>
    cases o with
    | none => exact List.mem_cons_of_mem _ ((List.mem_cons.mp h).resolve_left nofun)
    | some u =>
      rcases List.mem_cons.mp h with h | h
      · rw [h]
        exact List.mem_cons_self
      · exact List.mem_cons_of_mem _ (ih h)

section specs
variable (b : CircularHistoryBuffer)

theorem removeListener_keep (t t' : Nat) (hne : t' ≠ t) (h : some t ∈ b.listeners) :
    some t ∈ (b.removeListener t').listeners := by
  apply List.mem_map.mpr
  refine ⟨some t, h, if_neg fun he => hne (Option.some.inj he).symm⟩

/-- A write takes over the listeners as they are. -/
theorem write_spec (data : Bytes) (b' : CircularHistoryBuffer) (toNotify : List Nat)
    (h : b.write data = some (b', toNotify)) : b'.listeners = b.listeners ∧
      b'.totalWritten = b.totalWritten + UInt64.ofNat (kept b.size.toNat data).length ∧
      toNotify = b.listeners.filterMap id := by
  have hs : 0 < b.size.toNat := by
    apply Nat.pos_of_ne_zero
    intro hz
    have hzero : b.size = 0 := UInt32.toNat_inj.mp hz
    rw [write, offset, if_pos hzero] at h
    cases h
  obtain ⟨hb, hw⟩ := b.write_eq hs data
  obtain ⟨rfl, rfl⟩ := Prod.mk.inj (Option.some.inj (hw.symm.trans h))
  exact ⟨rfl, rfl, rfl⟩

theorem copyOut_length (i n : Nat) (out : Bytes) (h : b.copyOut i n = some out) : out.length = n := by
  unfold copyOut at h
  split at h
  · rw [← Option.some.inj h, List.length_take, List.length_drop]
    omega
  · cases h

theorem fetch_length (offset toRead : Nat) (out : Bytes) (h : b.fetch offset toRead = some out) :
    out.length = toRead := by
  unfold fetch at h
  dsimp only at h
  split at h
  · exact b.copyOut_length offset toRead out h
  · simp only [Option.bind_eq_bind, Option.bind_eq_some_iff, Option.some.injEq] at h
    obtain ⟨head, hh, tail, ht, rfl⟩ := h
    rw [List.length_append, b.copyOut_length _ _ head hh, b.copyOut_length _ _ tail ht]
    omega

/-- A read does not pass the writers; it returns nothing when it has caught up with them. -/
theorem readNext_cursor (cursor cursor' : UInt64) (maxLen : UInt32) (chunk : Bytes) (hmax : 0 < maxLen)
    (hc : cursor.toNat ≤ b.totalWritten.toNat) (h : b.readNext cursor maxLen = some (chunk, cursor')) :
    cursor'.toNat ≤ b.totalWritten.toNat ∧ (chunk = [] → cursor' = b.totalWritten) := by
  have hsnap : (b.snapCursor cursor).toNat ≤ b.totalWritten.toNat := by
    rw [b.snapCursor_toNat]
    omega
  have hav := b.available_toNat cursor hc
  have ht := b.totalWritten.toNat_lt
  have hmin : (min (b.available (b.snapCursor cursor)) maxLen).toNat =
      min (b.totalWritten.toNat - (b.snapCursor cursor).toNat) maxLen.toNat := by
    rw [UInt32.toNat_min, hav]
  unfold readNext at h
  dsimp only at h
  split at h
  · rename_i hpos
    simp only [Option.bind_eq_bind, Option.bind_eq_some_iff, Option.some.injEq, Prod.mk.injEq] at h
    obtain ⟨offset, -, out, hout, rfl, rfl⟩ := h
    have hlen := b.fetch_length _ _ out hout
    refine ⟨?_, ?_⟩
    · rw [UInt64.toNat_add, UInt32.toNat_toUInt64, hmin]
      omega
    · intro hnil
      rw [hnil, List.length_nil] at hlen
      rw [UInt32.lt_iff_toNat_lt, ← hlen] at hpos
      cases hpos
  · rename_i hpos
    obtain ⟨rfl, rfl⟩ := Prod.mk.inj (Option.some.inj h)
    refine ⟨hsnap, ?_⟩
    intro _
    rw [UInt32.lt_iff_toNat_lt, hmin] at hpos
    have hmax' := UInt32.lt_iff_toNat_lt.mp hmax
    apply UInt64.toNat_inj.mp
    have hzero : (0 : UInt32).toNat = 0 := rfl
    omega

end specs

end CircularHistoryBuffer

/-- The handler has registered itself and is still to remove itself. -/
def HandlerPc.Listening : HandlerPc → Prop
  | .register => False
  | .close => False
  | .finished => False
  | _ => True

namespace LogStream

structure Awake (task : Nat) (s : LogStream) : Prop where
  listening : s.handler.Listening → some task ∈ s.buffer.listeners
  cursor : s.cursor.toNat ≤ s.buffer.totalWritten.toNat
  waiting : s.handler = .take → s.notified = 0 →
    s.cursor = s.buffer.totalWritten ∨ ∃ w ∈ s.writers, task ∈ w

theorem mem_pending (t : Nat) (toNotify : List Nat) (h : t ∈ toNotify) :
    toNotify ∈ (pending toNotify).toList := by
  unfold pending
  rw [if_neg (List.ne_nil_of_mem h)]
  exact List.mem_singleton_self _

section steps
variable (task : Nat) (s s' : LogStream)

/-- A writer behind its critical section notifies the handler, which was listening then. -/
theorem awake_write (data : Bytes) (h : s.Awake task) (hl : s.Allowed (.write data))
    (hn : s.next task (.write data) = some s') : s'.Awake task := by
  simp only [next, Option.bind_eq_bind, Option.bind_eq_some_iff, Option.some.injEq] at hn
  obtain ⟨⟨buffer, toNotify⟩, hw, rfl⟩ := hn
  obtain ⟨hlisteners, htotal, htasks⟩ := s.buffer.write_spec data buffer toNotify hw
  have hlt : s.buffer.totalWritten.toNat +
    (CircularHistoryBuffer.kept s.buffer.size.toNat data).length < 2 ^ 64 := hl
  have hgrown : s.buffer.totalWritten.toNat ≤ buffer.totalWritten.toNat := by
    rw [htotal, UInt64.toNat_add, UInt64.toNat_ofNat_of_lt' (show _ < 2 ^ 64 by omega),
      Nat.mod_eq_of_lt hlt]
    omega
  refine ⟨?_, Nat.le_trans h.cursor hgrown, ?_⟩
  · intro hp
    rw [hlisteners]
    exact h.listening hp
  · intro htake _
    right
    have hlistens : some task ∈ s.buffer.listeners := by
      apply h.listening
      rw [show s.handler = .take from htake]
      trivial
    have hmem : task ∈ toNotify := by
      rw [htasks]
      exact List.mem_filterMap.mpr ⟨some task, hlistens, rfl⟩
    exact ⟨toNotify, List.mem_append_right _ (mem_pending task toNotify hmem), hmem⟩

theorem awake_notify (i : Nat) (h : s.Awake task) (hn : s.next task (.notify i) = some s') :
    s'.Awake task := by
  simp only [next, Option.bind_eq_bind, Option.bind_eq_some_iff, Option.some.injEq] at hn
  obtain ⟨toNotify, hw, t, ht, rfl⟩ := hn
  obtain ⟨before, after, hsplit, hnew⟩ := pool_split s.writers i toNotify hw (pending toNotify.tail)
  refine ⟨h.listening, h.cursor, ?_⟩
  intro htake hnone
  dsimp only at hnone ⊢
  have hne : t ≠ task := by
    intro he
    rw [if_pos he] at hnone
    cases hnone
  rw [if_neg hne] at hnone
  rcases h.waiting htake hnone with hc | ⟨w, hm, hmem⟩
  · exact .inl hc
  · right
    rw [hnew]
    rw [hsplit] at hm
    rcases List.mem_append.mp hm with hm | hm
    · exact ⟨w, List.mem_append_left _ (List.mem_append_left _ hm), hmem⟩
    · rcases List.mem_cons.mp hm with rfl | hm
      · have htail : task ∈ w.tail := by
          cases w with
          | nil => cases hmem
          | cons u rest =>
            rw [Option.some.inj ht] at hmem
            exact (List.mem_cons.mp hmem).resolve_left hne.symm
        exact ⟨w.tail, List.mem_append_left _ (List.mem_append_right _ (mem_pending task w.tail htail)),
          htail⟩
      · exact ⟨w, List.mem_append_right _ hm, hmem⟩

/-- The handler waits when it has just found nothing to read. -/
theorem awake_handler (ok : Bool) (h : s.Awake task) (hl : s.Allowed (.handler ok))
    (hn : s.next task (.handler ok) = some s') : s'.Awake task := by
  have hn : s.handle task ok = some s' := hn
  have hgo (pc : HandlerPc) (hpc : pc ≠ .take) (hp : s.handler.Listening) (n : Nat) :
      Awake task { s with handler := pc, notified := n } :=
    ⟨fun _ => h.listening hp, h.cursor, fun htake => absurd htake hpc⟩
  unfold handle at hn
  split at hn
  · rename_i hpc
    rw [← Option.some.inj hn]
    refine ⟨?_, h.cursor, nofun⟩
    intro _
    exact CircularHistoryBuffer.storeListener_mem task s.buffer.listeners (hl hpc)
  · rename_i hpc
    have hp : some task ∈ s.buffer.listeners := h.listening (by rw [hpc]; trivial)
    simp only [Option.bind_eq_bind, Option.bind_eq_some_iff, Option.some.injEq] at hn
    obtain ⟨⟨chunk, cursor⟩, hr, rfl⟩ := hn
    obtain ⟨hcursor, hnil⟩ := s.buffer.readNext_cursor s.cursor cursor 512 chunk (by decide) h.cursor hr
    refine ⟨fun _ => hp, hcursor, fun htake _ => .inl (hnil ?_)⟩
    dsimp only at htake
    split at htake
    · assumption
    · cases htake
  · rename_i chunk hpc
    rw [← Option.some.inj hn]
    exact hgo _ (by split <;> nofun) (by rw [hpc]; trivial) s.notified
  · rename_i hpc
    rw [← Option.some.inj hn]
    split
    · exact hgo .readNext nofun (by rw [hpc]; trivial) 0
    · exact hgo .heartbeat nofun (by rw [hpc]; trivial) s.notified
  · rename_i hpc
    rw [← Option.some.inj hn]
    exact hgo _ (by split <;> nofun) (by rw [hpc]; trivial) s.notified
  · rw [← Option.some.inj hn]
    exact ⟨nofun, h.cursor, nofun⟩
  · rw [← Option.some.inj hn]
    exact ⟨nofun, h.cursor, nofun⟩
  · cases hn

theorem awake_next (l : Label) (h : s.Awake task) (hl : s.Allowed l) (hn : s.next task l = some s') :
    s'.Awake task := by
  cases l with
  | write data => exact awake_write task s s' data h hl hn
  | notify i => exact awake_notify task s s' i h hn
  | handler ok => exact awake_handler task s s' ok h hl hn
  | register t =>
    simp only [next] at hn
    split at hn
    · cases hn
    · rw [← Option.some.inj hn]
      refine ⟨?_, h.cursor, h.waiting⟩
      intro hp
      exact CircularHistoryBuffer.storeListener_keep task t _ (h.listening hp)
  | remove t =>
    simp only [next] at hn
    split at hn
    · cases hn
    · rename_i hne
      rw [← Option.some.inj hn]
      refine ⟨?_, h.cursor, h.waiting⟩
      intro hp
      exact s.buffer.removeListener_keep task t hne (h.listening hp)

/-- While the handler waits and no notification is pending, it has read everything, or a writer is still
to notify it. -/
theorem log_wakeup (hs : s.AtStart) (run : Steps (next task) Allowed s s') (hw : s'.handler = .take)
    (hn : s'.notified = 0) :
    s'.cursor = s'.buffer.totalWritten ∨ ∃ w ∈ s'.writers, task ∈ w := by
  have hstart : s.Awake task := by
    refine ⟨?_, ?_, ?_⟩
    · intro hp
      rw [hs.handler] at hp
      exact hp.elim
    · rw [hs.cursor]
      exact Nat.zero_le _
    · intro htake
      cases hs.handler.symm.trans htake
  have h : s'.Awake task := run.invariant _ _ (Awake task) _ _ hstart
    fun t l t' ht hl hn => awake_next task t t' l ht hl hn
  exact h.waiting hw hn

end steps

/-- Two writes meet the waiting handler; the second is still to notify it. -/
def streaming : List Label :=
  [.handler true, .handler true, .write [5], .write [6], .notify 0] ++ List.replicate 4 (.handler true)

theorem log_wakeup_streaming :
    ∃ s', exec (guarded (next 7) Allowed) (start [0, 0] 2 rfl) streaming = some s' ∧
      s'.handler = .take ∧ s'.notified = 0 ∧
      (s'.cursor = s'.buffer.totalWritten ∨ ∃ w ∈ s'.writers, 7 ∈ w) := by
  have hrun : (exec (guarded (next 7) Allowed) (start [0, 0] 2 rfl) streaming).any
      (fun s' => s'.handler = .take ∧ s'.notified = 0) = true := by decide
  obtain ⟨s', hs, hp⟩ := (Option.any_eq_true _ _).mp hrun
  obtain ⟨hw, hn⟩ := of_decide_eq_true hp
  exact ⟨s', hs, hw, hn,
    log_wakeup 7 (start [0, 0] 2 rfl) s' ⟨rfl, rfl⟩ (steps_of_guarded _ _ _ _ _ hs) hw hn⟩

section wrap

/-- A ring of one byte. -/
def oneByte (total : UInt64) (listeners : List (Option Nat)) : CircularHistoryBuffer :=
  ⟨[0], 1, total, listeners, rfl⟩

theorem oneByte_write (total : UInt64) (listeners : List (Option Nat)) :
    (oneByte total listeners).write [0] = some (oneByte (total + 1) listeners, listeners.filterMap id) := by
  have hpos : 0 < (oneByte total listeners).size.toNat := Nat.one_pos
  obtain ⟨h, hw⟩ := (oneByte total listeners).write_eq hpos [0]
  have hput : ringPut [0] (total.toNat % 1) [0] = ([0] : Bytes) := by
    rw [Nat.mod_one]
    rfl
  have hbuffer : ringPut (oneByte total listeners).buffer
      ((oneByte total listeners).totalWritten.toNat % (oneByte total listeners).buffer.length)
      (CircularHistoryBuffer.kept (oneByte total listeners).size.toNat [0]) = [0] := hput
  rw [hw]
  simp only [hbuffer]
  rfl

theorem add_succ_ofNat (total : UInt64) (n : Nat) :
    total + 1 + UInt64.ofNat n = total + UInt64.ofNat (n + 1) := by
  rw [UInt64.ofNat_add, UInt64.add_assoc, UInt64.add_comm 1]
  rfl

/-- The writes before anybody listens. -/
theorem exec_unheard (n : Nat) (total : UInt64) :
    exec (next 7) ⟨oneByte total (List.replicate 4 none), .register, 0, 0, []⟩
        (List.replicate n (.write [0])) =
      some ⟨oneByte (total + UInt64.ofNat n) (List.replicate 4 none), .register, 0, 0, []⟩ := by
  induction n generalizing total with
  | zero =>
    rw [show total + UInt64.ofNat 0 = total from UInt64.add_zero total]
    rfl
  | succ n ih =>
    have hstep : next 7 ⟨oneByte total (List.replicate 4 none), .register, 0, 0, []⟩ (.write [0]) =
        some ⟨oneByte (total + 1) (List.replicate 4 none), .register, 0, 0, []⟩ := by
      simp only [next, oneByte_write]
      rfl
    have hlabels : List.replicate (n + 1) (Label.write [0]) =
        .write [0] :: List.replicate n (.write [0]) := rfl
    rw [hlabels, exec_cons, hstep, Option.bind_some, ih, add_succ_ofNat]

/-- Writes, each of which notifies the handler before the next. -/
def heard (n : Nat) : List Label := (List.replicate n [.write [0], .notify 0]).flatten

theorem exec_heard (n : Nat) (total cursor : UInt64) (notified : Nat) :
    exec (next 7) ⟨oneByte total [some 7, none, none, none], .send [0], cursor, notified, []⟩ (heard n) =
      some ⟨oneByte (total + UInt64.ofNat n) [some 7, none, none, none], .send [0], cursor,
        notified + n, []⟩ := by
  induction n generalizing total notified with
  | zero =>
    rw [show total + UInt64.ofNat 0 = total from UInt64.add_zero total]
    rfl
  | succ n ih =>
    have hwrite : next 7 ⟨oneByte total [some 7, none, none, none], .send [0], cursor, notified, []⟩
        (.write [0]) = some ⟨oneByte (total + 1) [some 7, none, none, none], .send [0], cursor,
          notified, [[7]]⟩ := by
      simp only [next, oneByte_write]
      rfl
    have hnotify : next 7 ⟨oneByte (total + 1) [some 7, none, none, none], .send [0], cursor, notified,
        [[7]]⟩ (.notify 0) = some ⟨oneByte (total + 1) [some 7, none, none, none], .send [0], cursor,
          notified + 1, []⟩ := rfl
    have hlabels : heard (n + 1) = .write [0] :: .notify 0 :: heard n := rfl
    rw [hlabels, exec_cons, hwrite, Option.bind_some, exec_cons, hnotify, Option.bind_some, ih, add_succ_ofNat,
      Nat.add_right_comm, Nat.add_assoc]

/-- A handler that has read 2^64 - 1 bytes does not see the next 2^32 ones: the counter has wrapped, and
their number, cut to 32 bits, is 0. -/
theorem wakeup_wraps :
    ∃ s, exec (next 7) (start [0] 1 rfl) (List.replicate (2 ^ 64 - 1) (.write [0]) ++
        ([.handler true, .handler true] ++ (heard (2 ^ 32) ++ List.replicate 4 (.handler true)))) = some s ∧
      s.handler = .take ∧ s.notified = 0 ∧ s.cursor ≠ s.buffer.totalWritten ∧ s.writers = [] := by
  have hread : exec (next 7) ⟨oneByte 18446744073709551615 (List.replicate 4 none), .register, 0, 0, []⟩
      [.handler true, .handler true] = some ⟨oneByte 18446744073709551615 [some 7, none, none, none],
        .send [0], 18446744073709551615, 0, []⟩ := rfl
  have hblocked : exec (next 7) ⟨oneByte 4294967295 [some 7, none, none, none], .send [0],
      18446744073709551615, 4294967296, []⟩ (List.replicate 4 (.handler true)) =
        some ⟨oneByte 4294967295 [some 7, none, none, none], .take, 18446744073709551615, 0, []⟩ := rfl
  have hstart : start [0] 1 rfl = ⟨oneByte 0 (List.replicate 4 none), .register, 0, 0, []⟩ := rfl
  have htotal : (0 : UInt64) + UInt64.ofNat (2 ^ 64 - 1) = 18446744073709551615 := by decide
  have hwrapped : (18446744073709551615 : UInt64) + UInt64.ofNat (2 ^ 32) = 4294967295 := by decide
  have hnotified : 0 + 2 ^ 32 = 4294967296 := by decide
  rw [hstart, exec_append, exec_unheard, htotal, Option.bind_some, exec_append, hread, Option.bind_some,
    exec_append, exec_heard, hwrapped, hnotified, Option.bind_some, hblocked]
  exact ⟨_, rfl, rfl, rfl, by decide, rfl⟩

end wrap

end LogStream

end Espbase.History
