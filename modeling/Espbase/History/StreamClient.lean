import Espbase.History.LogStream
import Espbase.History.NetworkLogger
import Espbase.History.Streaming

namespace Espbase.History

open Espbase.Lib

/-- What the client of `stream_log_handler` has received. -/
inductive Sent where
  | chunk (bytes : Bytes)
  /-- `"\n"`, sent when nothing has happened for two seconds -/
  | heartbeat
  deriving DecidableEq

def Sent.logged : Sent → Option Bytes
  | .chunk bytes => some bytes
  | .heartbeat => none

/-- One client of the log: the handler that serves it, and what has passed through it. -/
structure Session where
  stream : LogStream
  /-- the bytes that `write` has accepted -/
  accepted : Bytes
  /-- the calls of `read_next` that have returned something -/
  reads : List Call
  sent : List Sent

namespace Session

/-- A read that gives the handler something to send. -/
def readBy (s t : LogStream) : List Call :=
  match s.handler, t.handler with
  | .readNext, .send chunk => [⟨s.buffer.totalWritten, chunk⟩]
  | _, _ => []

/-- What the client receives of a step of the handler. -/
def sentBy (s : LogStream) (ok : Bool) : List Sent :=
  match s.handler with
  | .send chunk => if ok then [.chunk chunk] else []
  | .heartbeat => if ok then [.heartbeat] else []
  | _ => []

/-- A line that is logged, and the tasks that its writer is to notify. -/
def log (s : Session) (buf text : Bytes) : Option Session := do
  let (buffer, toNotify) ← logHook s.stream.buffer buf text
  some { s with
    stream.buffer := buffer
    stream.writers := s.stream.writers ++ (LogStream.pending toNotify).toList
    accepted := s.accepted ++ CircularHistoryBuffer.kept s.stream.buffer.size.toNat (recorded text) }

def handle (s : Session) (task : Nat) (ok : Bool) : Option Session := do
  let stream ← s.stream.handle task ok
  some { s with stream, reads := s.reads ++ readBy s.stream stream, sent := s.sent ++ sentBy s.stream ok }

inductive Label where
  /-- another task logs a line; `buf` is what its stack holds -/
  | log (buf text : Bytes)
  /-- the next `xTaskNotifyGive` of the `i`th writer -/
  | notify (i : Nat)
  | handler (ok : Bool)
  /-- the handler of another client registers or removes itself -/
  | register (t : Nat)
  | remove (t : Nat)

def next (task : Nat) (s : Session) : Label → Option Session
  | .log buf text => s.log buf text
  | .notify i => (s.stream.next task (.notify i)).map fun stream => { s with stream }
  | .handler ok => s.handle task ok
  | .register t => (s.stream.next task (.register t)).map fun stream => { s with stream }
  | .remove t => (s.stream.next task (.remove t)).map fun stream => { s with stream }

/-- A client connects to a new history. -/
def start (mem : Bytes) (size : UInt32) (h : mem.length = size.toNat) : Session :=
  ⟨.start mem size h, [], [], []⟩

/-- The counter of the history does not wrap. -/
def Allowed (s : Session) : Label → Prop
  | .log buf text => buf.length = 256 ∧ s.accepted.length + (recorded text).length < 2 ^ 64
  | _ => True

instance (s : Session) : (l : Label) → Decidable (s.Allowed l)
  | .log _ _ => inferInstanceAs (Decidable (_ ∧ _))
  | .notify _ => .isTrue trivial
  | .handler _ => .isTrue trivial
  | .register _ => .isTrue trivial
  | .remove _ => .isTrue trivial

/-- The chunks the client has received. -/
def chunks (s : Session) : List Bytes := s.sent.filterMap Sent.logged

/-- The chunks received are those that were read, up to the one under way or the one that failed. -/
def Delivered : HandlerPc → List Bytes → List Bytes → Prop
  | .send chunk, read, chunks => read = chunks ++ [chunk]
  | .remove, read, chunks => read = chunks ∨ ∃ chunk, read = chunks ++ [chunk]
  | .close, read, chunks => read = chunks ∨ ∃ chunk, read = chunks ++ [chunk]
  | .finished, read, chunks => read = chunks ∨ ∃ chunk, read = chunks ++ [chunk]
  | _, read, chunks => read = chunks

theorem Delivered.or_last (pc : HandlerPc) (read chunks : List Bytes) (h : Delivered pc read chunks) :
    read = chunks ∨ ∃ chunk, read = chunks ++ [chunk] := by
  cases pc with
  | register => exact .inl h
  | readNext => exact .inl h
  | send chunk => exact .inr ⟨chunk, h⟩
  | take => exact .inl h
  | heartbeat => exact .inl h
  | remove => exact h
  | close => exact h
  | finished => exact h

/-- What holds of a session whenever it is looked at. -/
structure Following (task : Nat) (size : UInt32) (s : Session) : Prop where
  holds : s.stream.buffer.Holds s.accepted
  size_eq : s.stream.buffer.size = size
  cursor : s.stream.cursor.toNat ≤ s.accepted.length
  streamed : Streamed s.accepted size.toNat 0 s.reads s.stream.cursor.toNat
  delivered : Delivered s.stream.handler (s.reads.map Call.chunk) s.chunks
  listed : some task ∈ s.stream.buffer.listeners → s.stream.handler.Listening

theorem following_start (task : Nat) (mem : Bytes) (size : UInt32) (h : mem.length = size.toNat)
    (hs : 0 < size.toNat) : (start mem size h).Following task size := by
  refine ⟨CircularHistoryBuffer.init_holds mem size h hs, rfl, Nat.le_refl _, rfl, rfl, ?_⟩
  intro hmem
  have hlisteners : (start mem size h).stream.buffer.listeners = List.replicate 4 none := rfl
  rw [hlisteners] at hmem
  cases List.eq_of_mem_replicate hmem

section steps
variable (task : Nat) (size : UInt32) (s : Session)

theorem following_log (buf text : Bytes) (h : s.Following task size) (hl : s.Allowed (.log buf text))
    (s' : Session) (hn : s.log buf text = some s') : s'.Following task size := by
  obtain ⟨hbuf, hb⟩ := hl
  obtain ⟨⟨buffer, toNotify⟩, hhook, hn⟩ := Option.bind_eq_some_iff.mp hn
  rw [← Option.some.inj hn]
  have hkept : (CircularHistoryBuffer.kept s.stream.buffer.size.toNat (recorded text)).length ≤
      (recorded text).length := by
    have hone := flatMap_kept_length s.stream.buffer.size.toNat [recorded text]
    rwa [List.flatMap_singleton, List.flatten_singleton] at hone
  rw [logHook_eq _ _ _ hbuf] at hhook
  split at hhook
  · cases hhook
  · split at hhook
    · rename_i hnil
      obtain ⟨rfl, -⟩ := Prod.mk.inj (Option.some.inj hhook)
      have hsame : s.accepted ++ CircularHistoryBuffer.kept s.stream.buffer.size.toNat (recorded text) =
          s.accepted := by
        rw [hnil] at hkept ⊢
        rw [List.length_eq_zero_iff.mp (Nat.le_zero.mp hkept), List.append_nil]
      refine ⟨?_, h.size_eq, ?_, ?_, h.delivered, h.listed⟩
      all_goals dsimp only
      all_goals rw [hsame]
      · exact h.holds
      · exact h.cursor
      · exact h.streamed
    · obtain ⟨b, hw, hsize, hlisteners, hholds⟩ := h.holds.write s.stream.buffer s.accepted (recorded text) (by
        rw [List.length_append]
        omega)
      obtain ⟨rfl, -⟩ := Prod.mk.inj (Option.some.inj (hw.symm.trans hhook))
      refine ⟨hholds, hsize.trans h.size_eq, ?_, h.streamed.append _ _ _ _ _ _, h.delivered, ?_⟩
      · dsimp only
        rw [List.length_append]
        exact Nat.le_add_right_of_le h.cursor
      · intro hmem
        exact h.listed (hlisteners ▸ hmem)

/-- A step of the stream that only concerns its listeners and writers. -/
theorem following_aside (h : s.Following task size) (buffer : CircularHistoryBuffer) (notified : Nat)
    (writers : List (List Nat)) (hring : buffer.buffer = s.stream.buffer.buffer)
    (hsize : buffer.size = s.stream.buffer.size) (htotal : buffer.totalWritten = s.stream.buffer.totalWritten)
    (hlisted : some task ∈ buffer.listeners → s.stream.handler.Listening) :
    Following task size { s with stream := ⟨buffer, s.stream.handler, s.stream.cursor, notified, writers⟩ } := by
  refine ⟨⟨?_, ?_, ?_⟩, hsize.trans h.size_eq, h.cursor, h.streamed, h.delivered, hlisted⟩
  · rw [hsize]
    exact h.holds.pos
  · rw [htotal]
    exact h.holds.total
  · rw [hring]
    exact h.holds.recent

theorem storeListener_other (t t' : Nat) (hne : t' ≠ t) (l : List (Option Nat))
    (h : some t ∈ CircularHistoryBuffer.storeListener t' l) : some t ∈ l := by
  induction l with
  | nil => cases h
  | cons o rest ih =>
    cases o with
    | none =>
      rcases List.mem_cons.mp h with h | h
      · exact absurd (Option.some.inj h).symm hne
      · exact List.mem_cons_of_mem _ h
    | some u =>
      rcases List.mem_cons.mp h with h | h
      · rw [h]
        exact List.mem_cons_self
      · exact List.mem_cons_of_mem _ (ih h)

theorem removeListener_gone (b : CircularHistoryBuffer) (t : Nat) : some t ∉ (b.removeListener t).listeners := by
  intro h
  obtain ⟨o, -, ho⟩ := List.mem_map.mp h
  split at ho
  · cases ho
  · rename_i hne
    exact hne ho

theorem removeListener_other (b : CircularHistoryBuffer) (t t' : Nat)
    (h : some t ∈ (b.removeListener t').listeners) : some t ∈ b.listeners := by
  obtain ⟨o, hmem, ho⟩ := List.mem_map.mp h
  split at ho
  · cases ho
  · rwa [ho] at hmem

/-- The next chunk starts at the reader's position, or at the oldest byte still held. -/
theorem handle_readNext (h : s.Following task size) (hpc : s.stream.handler = .readNext) (ok : Bool) :
    let start := max s.stream.cursor.toNat (s.accepted.length - size.toNat)
    let n := min (s.accepted.length - start) 512
    ∃ s', s.handle task ok = some s' ∧ s'.Following task size ∧ s'.accepted = s.accepted ∧
      s'.stream.cursor.toNat = start + n ∧
      s'.stream.handler = if n = 0 then .take else .send ((s.accepted.drop start).take n) := by
  intro start n
  obtain ⟨cursor, hread, hcursor⟩ := h.holds.readNext s.stream.buffer s.accepted s.stream.cursor 512 h.cursor
  rw [h.size_eq] at hread hcursor
  change s.stream.buffer.readNext s.stream.cursor 512 = some ((s.accepted.drop start).take n, cursor) at hread
  change cursor.toNat = start + n at hcursor
  have hle : start ≤ s.accepted.length := Nat.max_le.mpr ⟨h.cursor, Nat.sub_le _ _⟩
  have hlen : ((s.accepted.drop start).take n).length = n := by
    rw [List.length_take, List.length_drop]
    exact Nat.min_eq_left (Nat.min_le_left _ _)
  have hnil : (s.accepted.drop start).take n = [] ↔ n = 0 := by
    rw [← List.length_eq_zero_iff, hlen]
  have hstream : s.stream.handle task ok = some { s.stream with
      cursor, handler := if n = 0 then .take else .send ((s.accepted.drop start).take n) } := by
    simp only [LogStream.handle, hpc, hread, Option.bind_eq_bind, Option.bind_some, hnil]
  have hsent : sentBy s.stream ok = [] := by
    rw [sentBy, hpc]
  have hdelivered : s.reads.map Call.chunk = s.chunks := by
    have hd := h.delivered
    rw [hpc] at hd
    exact hd
  have hbound : cursor.toNat ≤ s.accepted.length := by omega
  by_cases hz : n = 0
  · rw [if_pos hz] at hstream
    have hreads : readBy s.stream { s.stream with cursor, handler := .take } = [] := by
      simp only [readBy, hpc]
    refine ⟨{ s with stream := { s.stream with cursor, handler := .take } }, ?_,
      ⟨h.holds, h.size_eq, ?_, ?_, hdelivered, fun _ => trivial⟩, rfl, hcursor, (if_pos hz).symm⟩
    · rw [handle, hstream, Option.bind_eq_bind, Option.bind_some, hreads, hsent, List.append_nil, List.append_nil]
    · exact hbound
    · have hpos := h.holds.pos
      rw [h.size_eq] at hpos
      have hcaught : cursor.toNat = s.stream.cursor.toNat := by omega
      dsimp only
      rw [hcaught]
      exact h.streamed
  · rw [if_neg hz] at hstream
    have hreads : readBy s.stream { s.stream with
        cursor, handler := .send ((s.accepted.drop start).take n) } =
        [⟨s.stream.buffer.totalWritten, (s.accepted.drop start).take n⟩] := by
      simp only [readBy, hpc]
    have htotal := h.holds.total
    -- what lies between the reader's position and `start` has been overwritten
    have hone : Streamed s.accepted size.toNat s.stream.cursor.toNat
        [⟨s.stream.buffer.totalWritten, (s.accepted.drop start).take n⟩] cursor.toNat := by
      refine ⟨start, Nat.le_max_left _ _, ?_, Nat.le_of_eq htotal, by rw [hlen], ?_, ?_⟩
      · rw [hlen, htotal]
        omega
      · intro i _ hi
        rw [htotal]
        omega
      · rw [hlen]
        exact hcursor.symm
    refine ⟨{ s with
        stream := { s.stream with cursor, handler := .send ((s.accepted.drop start).take n) }
        reads := s.reads ++ [⟨s.stream.buffer.totalWritten, (s.accepted.drop start).take n⟩] }, ?_,
      ⟨h.holds, h.size_eq, ?_, h.streamed.concat _ _ _ _ _ _ _ hone, ?_, fun _ => trivial⟩, rfl, hcursor,
      (if_neg hz).symm⟩
    · rw [handle, hstream, Option.bind_eq_bind, Option.bind_some, hreads, hsent, List.append_nil]
    · exact hbound
    · change (s.reads ++ [_]).map Call.chunk = s.chunks ++ [_]
      rw [List.map_append, hdelivered]
      rfl

/-- A step of the handler other than a read. -/
theorem handle_of_ne (hpc : s.stream.handler ≠ .readNext) (ok : Bool) (s' : Session)
    (hn : s.handle task ok = some s') :
    s.stream.handle task ok = some s'.stream ∧ s'.accepted = s.accepted ∧ s'.reads = s.reads ∧
      s'.sent = s.sent ++ sentBy s.stream ok := by
  obtain ⟨stream, hstream, hn⟩ := Option.bind_eq_some_iff.mp hn
  have hreads : readBy s.stream stream = [] := by
    unfold readBy
    split
    · rename_i h _
      exact absurd h hpc
    · rfl
  rw [hreads, List.append_nil] at hn
  rw [← Option.some.inj hn]
  exact ⟨hstream, rfl, rfl, rfl⟩

/-- The ring is as it was, the handler has moved on. -/
theorem following_handle (h : s.Following task size) (ok : Bool) (s' : Session)
    (hn : s.handle task ok = some s') : s'.Following task size := by
  by_cases hpc : s.stream.handler = .readNext
  · obtain ⟨t, ht, hfollowing, -⟩ := handle_readNext task size s h hpc ok
    obtain rfl : t = s' := Option.some.inj (ht.symm.trans hn)
    exact hfollowing
  · obtain ⟨hstream, haccepted, hreads, hsent⟩ := handle_of_ne task s hpc ok s' hn
    have hd := h.delivered
    have hl := h.listed
    obtain ⟨stream, accepted, reads, sent⟩ := s'
    dsimp only at hstream haccepted hreads hsent
    subst haccepted hreads hsent
    have hchunks (more : List Sent) :
        (s.sent ++ more).filterMap Sent.logged = s.chunks ++ more.filterMap Sent.logged := List.filterMap_append
    -- the ring is as it was; what is left to show is about the chunks and the listeners
    have hkeep (listeners : List (Option Nat)) (pc : HandlerPc) (notified : Nat) (more : List Sent)
        (hdelivered : Delivered pc (s.reads.map Call.chunk) (s.chunks ++ more.filterMap Sent.logged))
        (hlisted : some task ∈ listeners → pc.Listening) :
        Following task size ⟨⟨{ s.stream.buffer with listeners }, pc, s.stream.cursor, notified,
          s.stream.writers⟩, s.accepted, s.reads, s.sent ++ more⟩ :=
      ⟨⟨h.holds.pos, h.holds.total, h.holds.recent⟩, h.size_eq, h.cursor, h.streamed, by
        rwa [chunks, hchunks], hlisted⟩
    unfold LogStream.handle at hstream
    unfold sentBy
    cases hc : s.stream.handler with
    | register =>
      rw [hc] at hstream hd
      rw [← Option.some.inj hstream]
      exact hkeep _ _ _ [] (by rwa [List.filterMap_nil, List.append_nil]) fun _ => trivial
    | readNext => exact absurd hc hpc
    | send chunk =>
      rw [hc] at hstream hd
      rw [← Option.some.inj hstream]
      cases ok with
      | true => exact hkeep _ .readNext _ [.chunk chunk] hd fun _ => trivial
      | false =>
        refine hkeep _ .remove _ [] (.inr ⟨chunk, ?_⟩) fun _ => trivial
        rwa [List.filterMap_nil, List.append_nil]
    | take =>
      rw [hc] at hstream hd
      rw [← Option.some.inj hstream]
      have hd : s.reads.map Call.chunk = s.chunks ++ [] := by rwa [List.append_nil]
      dsimp only
      split
      · exact hkeep _ .readNext 0 [] hd fun _ => trivial
      · exact hkeep _ .heartbeat _ [] hd fun _ => trivial
    | heartbeat =>
      rw [hc] at hstream hd
      rw [← Option.some.inj hstream]
      have hd : s.reads.map Call.chunk = s.chunks ++ [] := by rwa [List.append_nil]
      cases ok with
      | true => exact hkeep _ .readNext _ [.heartbeat] hd fun _ => trivial
      | false => exact hkeep _ .remove _ [] (.inl hd) fun _ => trivial
    | remove =>
      rw [hc] at hstream hd
      rw [← Option.some.inj hstream]
      exact hkeep _ .close _ [] (by rwa [List.filterMap_nil, List.append_nil])
        fun hmem => absurd hmem (removeListener_gone _ task)
    | close =>
      rw [hc] at hstream hd hl
      rw [← Option.some.inj hstream]
      exact hkeep _ .finished _ [] (by rwa [List.filterMap_nil, List.append_nil]) hl
    | finished =>
      rw [hc] at hstream
      cases hstream

theorem following_next (l : Label) (h : s.Following task size) (hl : s.Allowed l) (s' : Session)
    (hn : s.next task l = some s') : s'.Following task size := by
  cases l with
  | log buf text => exact following_log task size s buf text h hl s' hn
  | notify i =>
    obtain ⟨stream, hstream, rfl⟩ := Option.map_eq_some_iff.mp hn
    simp only [LogStream.next, Option.bind_eq_bind, Option.bind_eq_some_iff, Option.some.injEq] at hstream
    obtain ⟨_, _, _, _, rfl⟩ := hstream
    exact following_aside task size s h _ _ _ rfl rfl rfl h.listed
  | handler ok => exact following_handle task size s h ok s' hn
  | register t =>
    obtain ⟨stream, hstream, rfl⟩ := Option.map_eq_some_iff.mp hn
    simp only [LogStream.next] at hstream
    split at hstream
    · cases hstream
    · rename_i hne
      rw [← Option.some.inj hstream]
      exact following_aside task size s h _ _ _ rfl rfl rfl
        fun hmem => h.listed (storeListener_other task t hne _ hmem)
  | remove t =>
    obtain ⟨stream, hstream, rfl⟩ := Option.map_eq_some_iff.mp hn
    simp only [LogStream.next] at hstream
    split at hstream
    · cases hstream
    · rw [← Option.some.inj hstream]
      exact following_aside task size s h _ _ _ rfl rfl rfl
        fun hmem => h.listed (removeListener_other _ task t hmem)

theorem following (mem : Bytes) (h : mem.length = size.toNat) (hs : 0 < size.toNat)
    (run : Steps (next task) Allowed (start mem size h) s) : s.Following task size :=
  run.invariant _ _ (Following task size) _ _ (following_start task mem size h hs)
    fun t l t' ht hl hn => following_next task size t l ht hl t' hn

/-- In every run a client gets segments of the log in order, apart from heartbeats: a byte is left out only
when the history has overwritten it, and at the end when the connection is lost. -/
theorem stream_segments (mem : Bytes) (h : mem.length = size.toNat) (hs : 0 < size.toNat)
    (run : Steps (next task) Allowed (start mem size h) s) :
    Streamed s.accepted size.toNat 0 s.reads s.stream.cursor.toNat ∧
      (s.reads.map Call.chunk = s.chunks ∨ ∃ chunk, s.reads.map Call.chunk = s.chunks ++ [chunk]) ∧
      (s.stream.handler = .finished → some task ∉ s.stream.buffer.listeners) := by
  have hf := following task size s mem h hs run
  refine ⟨hf.streamed, hf.delivered.or_last, ?_⟩
  intro hfinished hmem
  have hlistening := hf.listed hmem
  rw [hfinished] at hlistening
  exact hlistening

/-- The handler is in its loop. -/
def Looping : HandlerPc → Prop
  | .readNext => True
  | .send _ => True
  | .take => True
  | .heartbeat => True
  | _ => False

/-- The bytes that the history still holds for the handler. -/
def behind : Nat := s.accepted.length - max s.stream.cursor.toNat (s.accepted.length - size.toNat)

/-- The handler waits for the next line, and has sent everything up to it. -/
structure Drained (accepted : Bytes) : Prop where
  following : s.Following task size
  accepted_eq : s.accepted = accepted
  waiting : s.stream.handler = .take
  cursor : s.stream.cursor.toNat = accepted.length

/-- Each chunk takes a step to read and one to send. -/
theorem drain_readNext (h : s.Following task size) (hpc : s.stream.handler = .readNext) (k : Nat)
    (hk : s.behind size ≤ 512 * k) :
    ∃ n ≤ 2 * k + 1, ∃ s', exec (next task) s (List.replicate n (.handler true)) = some s' ∧
      s'.Drained task size s.accepted := by
  have hpos := h.holds.pos
  rw [h.size_eq] at hpos
  induction k generalizing s with
  | zero =>
    obtain ⟨s', hread, hf, haccepted, hcursor, hhandler⟩ := handle_readNext task size s h hpc true
    unfold behind at hk
    rw [if_pos (by omega)] at hhandler
    refine ⟨1, Nat.le_refl _, s', ?_, hf, haccepted, hhandler, ?_⟩
    · change (s.handle task true).bind some = some s'
      rw [hread]
      rfl
    · have hc := h.cursor
      omega
  | succ k ih =>
    obtain ⟨s', hread, hf, haccepted, hcursor, hhandler⟩ := handle_readNext task size s h hpc true
    have hc := h.cursor
    unfold behind at hk
    by_cases hz : min (s.accepted.length - max s.stream.cursor.toNat (s.accepted.length - size.toNat)) 512 = 0
    · rw [if_pos hz] at hhandler
      refine ⟨1, by omega, s', ?_, hf, haccepted, hhandler, by omega⟩
      change (s.handle task true).bind some = some s'
      rw [hread]
      rfl
    · rw [if_neg hz] at hhandler
      -- the chunk is sent, and the rest is drained
      have hsend : ∃ t, s'.handle task true = some t ∧ t.stream.handler = .readNext ∧
          t.stream.cursor = s'.stream.cursor ∧ t.accepted = s'.accepted := by
        unfold handle LogStream.handle
        rw [hhandler]
        exact ⟨_, rfl, rfl, rfl, rfl⟩
      obtain ⟨t, hsend, htpc, htcursor, htaccepted⟩ := hsend
      have htf := following_handle task size s' hf true t hsend
      obtain ⟨n, hn, s'', hrun, hdrained⟩ := ih t htf htpc (by
        unfold behind
        rw [htcursor, htaccepted, haccepted]
        omega)
      rw [htaccepted, haccepted] at hdrained
      refine ⟨n + 2, by omega, s'', ?_, hdrained⟩
      change (s.handle task true).bind _ = some s''
      rw [hread]
      change (s'.handle task true).bind _ = some s''
      rw [hsend]
      exact hrun

/-- From anywhere in its loop the handler comes to a read, at most over a heartbeat. -/
theorem reach_readNext (h : s.Following task size) (hpc : Looping s.stream.handler) :
    ∃ m ≤ 2, ∃ t, exec (next task) s (List.replicate m (.handler true)) = some t ∧
      t.Following task size ∧ t.stream.handler = .readNext ∧ t.stream.cursor = s.stream.cursor ∧
      t.accepted = s.accepted := by
  have hone (s : Session) (h : s.Following task size)
      (hn : s.stream.handle task true = some { s.stream with handler := .readNext } ∨
        s.stream.handle task true = some { s.stream with handler := .readNext, notified := 0 }) :
      ∃ t, next task s (.handler true) = some t ∧ t.Following task size ∧ t.stream.handler = .readNext ∧
        t.stream.cursor = s.stream.cursor ∧ t.accepted = s.accepted := by
    have hstep : ∃ t, s.handle task true = some t ∧ t.stream.handler = .readNext ∧
        t.stream.cursor = s.stream.cursor ∧ t.accepted = s.accepted := by
      unfold handle
      rcases hn with hn | hn <;> rw [hn] <;> exact ⟨_, rfl, rfl, rfl, rfl⟩
    obtain ⟨t, ht, hrest⟩ := hstep
    exact ⟨t, ht, following_handle task size s h true t ht, hrest⟩
  have hstop (s t : Session) (ht : next task s (.handler true) = some t) :
      exec (next task) s (List.replicate 1 (.handler true)) = some t := by
    change (next task s (.handler true)).bind some = some t
    rw [ht]
    rfl
  cases hc : s.stream.handler with
  | register => rw [hc] at hpc; exact hpc.elim
  | readNext => exact ⟨0, by decide, s, rfl, h, hc, rfl, rfl⟩
  | send chunk =>
    obtain ⟨t, ht, hrest⟩ := hone s h (.inl (by rw [LogStream.handle, hc]; rfl))
    exact ⟨1, by decide, t, hstop s t ht, hrest⟩
  | take =>
    by_cases hnotified : 0 < s.stream.notified
    · obtain ⟨t, ht, hrest⟩ := hone s h (.inr (by rw [LogStream.handle, hc]; exact congrArg some (if_pos hnotified)))
      exact ⟨1, by decide, t, hstop s t ht, hrest⟩
    · have hbeat : s.stream.handle task true = some { s.stream with handler := .heartbeat } := by
        rw [LogStream.handle, hc]
        exact congrArg some (if_neg hnotified)
      have hwait : ∃ t, s.handle task true = some t ∧ t.stream = { s.stream with handler := .heartbeat } ∧
          t.accepted = s.accepted := by
        rw [handle, hbeat]
        exact ⟨_, rfl, rfl, rfl⟩
      obtain ⟨t, ht, hstream, haccepted⟩ := hwait
      obtain ⟨u, hu, huf, hupc, hucursor, huaccepted⟩ := hone t (following_handle task size s h true t ht)
        (.inl (by rw [hstream]; rfl))
      refine ⟨2, Nat.le_refl 2, u, ?_, huf, hupc, ?_, huaccepted.trans haccepted⟩
      · change (s.handle task true).bind _ = some u
        rw [ht]
        exact hstop t u hu
      · rw [hucursor, hstream]
  | heartbeat =>
    obtain ⟨t, ht, hrest⟩ := hone s h (.inl (by rw [LogStream.handle, hc]; rfl))
    exact ⟨1, by decide, t, hstop s t ht, hrest⟩
  | remove => rw [hc] at hpc; exact hpc.elim
  | close => rw [hc] at hpc; exact hpc.elim
  | finished => rw [hc] at hpc; exact hpc.elim

/-- While the history has overwritten nothing, the chunks are the stream. -/
theorem streamed_whole (stream : Bytes) (size p q : Nat) (calls : List Call) (hfit : stream.length ≤ size)
    (h : Streamed stream size p calls q) :
    stream.take p ++ (calls.map Call.chunk).flatten = stream.take q := by
  induction calls generalizing p with
  | nil =>
    obtain rfl : p = q := h
    exact List.append_nil _
  | cons call calls ih =>
    obtain ⟨start, hp, hn, ht, hc, hs, hr⟩ := h
    have hstart : start = p := by
      by_contra hne
      have := hs p (Nat.le_refl p) (by omega)
      omega
    subst hstart
    have hchunk : stream.take start ++ call.chunk = stream.take (start + call.chunk.length) := by
      rw [List.take_add, ← hc]
    rw [List.map_cons, List.flatten_cons, ← List.append_assoc, hchunk]
    exact ih _ hr

/-- A handler in its loop soon has sent everything that the history holds for it, and then waits; as long as
nothing has been overwritten, its client has the whole log. -/
theorem stream_drains (mem : Bytes) (h : mem.length = size.toNat) (hs : 0 < size.toNat)
    (run : Steps (next task) Allowed (start mem size h) s) (hpc : Looping s.stream.handler) :
    ∃ n ≤ 2 * ((s.behind size + 511) / 512) + 3, ∃ s',
      exec (next task) s (List.replicate n (.handler true)) = some s' ∧ s'.stream.handler = .take ∧
      Streamed s.accepted size.toNat 0 s'.reads s.accepted.length ∧ s'.reads.map Call.chunk = s'.chunks ∧
      (s.accepted.length ≤ size.toNat → s'.chunks.flatten = s.accepted) := by
  have hf := following task size s mem h hs run
  obtain ⟨m, hm, t, hreach, htf, htpc, hcursor, haccepted⟩ := reach_readNext task size s hf hpc
  have hbehind : t.behind size = s.behind size := by
    unfold behind
    rw [hcursor, haccepted]
  obtain ⟨n, hn, s', hrun, hd⟩ := drain_readNext task size t htf htpc ((s.behind size + 511) / 512) (by
    rw [hbehind]
    omega)
  rw [haccepted] at hd
  have hstreamed := hd.following.streamed
  rw [hd.accepted_eq, hd.cursor] at hstreamed
  have hdelivered : s'.reads.map Call.chunk = s'.chunks := by
    have := hd.following.delivered
    rwa [hd.waiting] at this
  refine ⟨m + n, by omega, s', ?_, hd.waiting, hstreamed, hdelivered, ?_⟩
  · rw [List.replicate_add, exec_append, hreach]
    exact hrun
  · intro hfit
    have hwhole := streamed_whole s.accepted size.toNat 0 _ _ hfit hstreamed
    rwa [List.take_zero, List.nil_append, List.take_length, hdelivered] at hwhole

end steps

/-- A client connects after the first line; two more follow. -/
def connected : List Label :=
  [.log (List.replicate 256 0) [1, 2, 3], .handler true, .handler true, .log (List.replicate 256 0) [4, 5],
    .handler true, .handler true, .handler true, .log (List.replicate 256 0) [6]]

/-- The session of such a client. -/
def Connected (s : Session) : Prop :=
  exec (guarded (next 7) Allowed) (start [0, 0, 0, 0] 4 rfl) connected = some s

set_option maxRecDepth 4000 in
theorem connected_run : ∃ s, Connected s ∧ s.accepted = [1, 2, 3, 4, 5, 6] ∧ s.chunks = [[1, 2, 3], [4, 5]] ∧
    s.stream.handler = .readNext := by
  have hrun : (exec (guarded (next 7) Allowed) (start [0, 0, 0, 0] 4 rfl) connected).any (fun s =>
      s.accepted = [1, 2, 3, 4, 5, 6] ∧ s.chunks = [[1, 2, 3], [4, 5]] ∧ s.stream.handler = .readNext) = true := by
    decide
  obtain ⟨s, hs, hp⟩ := (Option.any_eq_true _ _).mp hrun
  exact ⟨s, hs, of_decide_eq_true hp⟩

theorem stream_segments_connected : ∃ s : Session, Connected s ∧ s.chunks = [[1, 2, 3], [4, 5]] ∧
    Streamed [1, 2, 3, 4, 5, 6] 4 0 s.reads s.stream.cursor.toNat := by
  obtain ⟨s, hs, haccepted, hchunks, -⟩ := connected_run
  have hstreamed := (stream_segments 7 4 s [0, 0, 0, 0] rfl (by decide) (steps_of_guarded _ _ _ _ _ hs)).1
  rw [haccepted] at hstreamed
  exact ⟨s, hs, hchunks, hstreamed⟩

theorem stream_drains_connected : ∃ s s' : Session, Connected s ∧
    (∃ n, exec (next 7) s (List.replicate n (.handler true)) = some s') ∧
    Streamed [1, 2, 3, 4, 5, 6] 4 0 s'.reads 6 ∧ s'.reads.map Call.chunk = s'.chunks := by
  obtain ⟨s, hs, haccepted, -, hpc⟩ := connected_run
  obtain ⟨n, -, s', hrun, -, hstreamed, hdelivered, -⟩ := stream_drains 7 4 s [0, 0, 0, 0] rfl (by decide)
    (steps_of_guarded _ _ _ _ _ hs) (by rw [hpc]; trivial)
  rw [haccepted] at hstreamed
  exact ⟨s, s', hs, ⟨n, hrun⟩, hstreamed, hdelivered⟩

end Session

end Espbase.History
