import Espbase.MainLoop.DelayedFirings
import Mathlib.Data.List.Nodup

namespace Espbase.MainLoop

open Espbase.Lib

/-- Where a command comes from. -/
inductive Origin where
  /-- `push_func` -/
  | push
  /-- `post_delayed_func` without a delay -/
  | immediate
  /-- the callback, for the accepted post of this number -/
  | post (i : Option Nat)
  deriving DecidableEq

/-- What became of the commands that were sent to the queue. -/
structure Delivery where
  entered : List (Origin × AppCommand)
  /-- the commands that found the queue full -/
  lost : List (Origin × AppCommand)
  executed : List AppCommand
  deriving DecidableEq

def Caller.offered (c : Caller) : Option AppCommand :=
  if c.pc = .delay ∧ c.post.delay = 0 then some c.post.cmd else none

def CallbackPc.offered : CallbackPc → Option AppCommand
  | .push _ cmd => some cmd
  | _ => none

/-- The command that a step sends to the queue. -/
def Traced.offered (t : Traced) : Label → Option (Origin × AppCommand)
  | .call i _ => (t.state.callers[i]?.bind Caller.offered).map (Prod.mk .immediate)
  | .callback => (t.state.callback.bind CallbackPc.offered).map (Prod.mk (.post t.trace.firing))
  | .push cmd => some (.push, cmd)
  | _ => none

/-- The main loop executes what it receives. -/
def Delivery.next (capacity : Nat) (r : Delivery) (t : Traced) (l : Label) : Delivery :=
  match t.offered l with
  | some e =>
    if t.state.loop.queue.length < capacity then { r with entered := r.entered ++ [e] }
    else { r with lost := r.lost ++ [e] }
  | none =>
    if l = .receive then { r with executed := r.executed ++ t.state.loop.queue.head?.toList } else r

structure Delivered where
  traced : Traced
  delivery : Delivery
  deriving DecidableEq

namespace Delivered

def next (capacity : Nat) (rate : UInt32) (d : Delivered) (l : Label) : Option Delivered :=
  (d.traced.next capacity rate l).map fun t => ⟨t, d.delivery.next capacity d.traced l⟩

def start (memory : List AppCommand) : Delivered := ⟨.start memory, ⟨[], [], []⟩⟩

end Delivered

section queue
variable (capacity : Nat) (rate : UInt32)

theorem pushFunc_queue (m : Loop) (cmd : AppCommand) :
    (m.pushFunc capacity cmd).1.queue = if m.queue.length < capacity then m.queue ++ [cmd] else m.queue := by
  unfold Loop.pushFunc
  split <;> rfl

/-- The queue after a step. -/
theorem queue_next (t t' : Traced) (l : Label) (h : t.next capacity rate l = some t') :
    t'.state.loop.queue = match t.offered l with
      | some e => if t.state.loop.queue.length < capacity then t.state.loop.queue ++ [e.2] else t.state.loop.queue
      | none => if l = .receive then t.state.loop.queue.tail else t.state.loop.queue := by
  obtain ⟨s, hs, rfl⟩ := Option.map_eq_some_iff.mp h
  cases l with
  | begin p =>
    obtain rfl := Option.some.inj hs
    rfl
  | push cmd =>
    obtain rfl := Option.some.inj hs
    exact pushFunc_queue capacity _ cmd
  | receive =>
    obtain ⟨cmd, queue, hq, rfl⟩ := State.next_receive capacity rate _ s hs
    rw [hq]
    rfl
  | fire slot =>
    obtain ⟨-, -, rfl⟩ := State.next_fire capacity rate _ s slot hs
    rfl
  | callback =>
    obtain ⟨pc, loop, callback, hpc, hstep, rfl⟩ := State.next_callback capacity rate _ s hs
    have hoffered : t.offered .callback = pc.offered.map (Prod.mk (.post t.trace.firing)) := by
      rw [Traced.offered, hpc]
      rfl
    rw [hoffered]
    cases pc with
    | push slot cmd =>
      obtain ⟨rfl, -⟩ := Prod.mk.inj (Option.some.inj hstep)
      exact pushFunc_queue capacity _ cmd
    | readExecute slot =>
      obtain ⟨d, -, hd⟩ := Option.map_eq_some_iff.mp hstep
      obtain ⟨rfl, -⟩ := Prod.mk.inj hd
      rfl
    | readArg slot execute =>
      obtain ⟨d, -, hd⟩ := Option.map_eq_some_iff.mp hstep
      obtain ⟨rfl, -⟩ := Prod.mk.inj hd
      rfl
    | free slot =>
      obtain ⟨rfl, -⟩ := Prod.mk.inj (Option.some.inj hstep)
      rfl
  | call i ok =>
    obtain ⟨⟨p, pc⟩, hc, rfl⟩ := State.next_call capacity rate _ s i ok hs
    have hoffered : t.offered (.call i ok) = (Caller.offered ⟨p, pc⟩).map (Prod.mk .immediate) := by
      rw [Traced.offered, hc]
      rfl
    rw [hoffered]
    cases pc with
    | delay =>
      have hoff : Caller.offered ⟨p, .delay⟩ = if p.delay = 0 then some p.cmd else none := by
        simp [Caller.offered]
      rw [hoff]
      by_cases hd : p.delay = 0
      · rw [if_pos hd]
        dsimp only
        rw [Post.step, if_pos hd]
        exact pushFunc_queue capacity _ p.cmd
      · rw [if_neg hd]
        dsimp only
        rw [Post.step, if_neg hd]
        rfl
    | claim =>
      dsimp only [Post.step]
      split <;> rfl
    | changePeriod slot => cases ok <;> rfl
    | storeArg slot | storeExecute slot | rollback slot => rfl

end queue

/-- What holds of the deliveries in every run. -/
structure Delivering (capacity : Nat) (d : Delivered) : Prop where
  filed : Filed d.traced
  fifo : d.delivery.entered.map Prod.snd = d.delivery.executed ++ d.traced.state.loop.queue
  bound : d.traced.state.loop.queue.length ≤ capacity
  posts : ∀ o cmd, (d.delivery.entered ++ d.delivery.lost).count (.post o, cmd) = d.traced.trace.fired.count (o, cmd)

section delivery
variable (capacity : Nat) (rate : UInt32)

/-- Only a callback that pushes has fired. -/
theorem fired_count_next (t : Traced) (l : Label) (o : Option Nat) (cmd : AppCommand) :
    (t.trace.next t.state l).fired.count (o, cmd) =
      t.trace.fired.count (o, cmd) + if t.offered l = some (.post o, cmd) then 1 else 0 := by
  have hother (hne : ∀ c : AppCommand, t.offered l ≠ some (.post o, c))
      (hsame : (t.trace.next t.state l).fired = t.trace.fired) : (t.trace.next t.state l).fired.count (o, cmd) =
      t.trace.fired.count (o, cmd) + if t.offered l = some (.post o, cmd) then 1 else 0 := by
    rw [hsame, if_neg (hne cmd)]
    rfl
  cases l with
  | begin p => exact hother nofun rfl
  | fire slot => exact hother nofun rfl
  | receive => exact hother nofun rfl
  | push c => exact hother nofun rfl
  | call i ok =>
    refine hother ?_ ?_
    · intro c hc
      rw [Traced.offered, Option.map_eq_some_iff] at hc
      obtain ⟨a, -, ha⟩ := hc
      cases ha
    · cases ok with
      | false => rfl
      | true =>
        rw [Trace.next]
        split <;> rfl
  | callback =>
    rw [Trace.next, Traced.offered]
    cases hpc : t.state.callback with
    | none => rfl
    | some pc =>
      cases pc with
      | push slot c =>
        simp only [CallbackPc.offered, Option.bind_some, Option.map_some, List.count_append, List.count_singleton,
          Option.some.injEq, Prod.mk.injEq, Origin.post.injEq, beq_iff_eq]
      | readExecute slot | readArg slot execute | free slot => rfl

/-- What is sent is counted once, wherever it goes. -/
theorem delivery_count_next (r : Delivery) (t : Traced) (l : Label) (e : Origin × AppCommand) :
    ((r.next capacity t l).entered ++ (r.next capacity t l).lost).count e =
      (r.entered ++ r.lost).count e + if t.offered l = some e then 1 else 0 := by
  have hone (e' : Origin × AppCommand) : [e'].count e = if some e' = some e then 1 else 0 := by
    rw [List.count_singleton]
    simp only [beq_iff_eq, Option.some.injEq]
  unfold Delivery.next
  cases ho : t.offered l with
  | none =>
    have hne : ¬ (none : Option (Origin × AppCommand)) = some e := nofun
    rw [if_neg hne]
    dsimp only
    split <;> rfl
  | some e' =>
    rw [← hone]
    dsimp only
    split
    · simp only [List.count_append]
      omega
    · simp only [List.count_append]
      omega

theorem delivering_next (d : Delivered) (h : Delivering capacity d) (l : Label) (d' : Delivered)
    (hn : d.next capacity rate l = some d') : Delivering capacity d' := by
  obtain ⟨t, ht, rfl⟩ := Option.map_eq_some_iff.mp hn
  have hqueue := queue_next capacity rate d.traced t l ht
  have htrace : t.trace = d.traced.trace.next d.traced.state l := by
    obtain ⟨s, -, rfl⟩ := Option.map_eq_some_iff.mp ht
    rfl
  refine ⟨filed_next d.traced h.filed capacity rate l t ht, ?_, ?_, ?_⟩
  · dsimp only
    rw [hqueue]
    unfold Delivery.next
    cases ho : d.traced.offered l with
    | some e =>
      dsimp only
      split_ifs
      · rw [List.map_append, h.fifo, List.append_assoc]
        rfl
      · exact h.fifo
    | none =>
      dsimp only
      split_ifs with hl
      · rw [h.fifo, List.append_assoc]
        cases d.traced.state.loop.queue <;> rfl
      · exact h.fifo
  · dsimp only
    rw [hqueue]
    have hb := h.bound
    cases ho : d.traced.offered l with
    | some e =>
      dsimp only
      split_ifs with hroom
      · rw [List.length_append]
        exact hroom
      · exact hb
    | none =>
      dsimp only
      split_ifs
      · rw [List.length_tail]
        omega
      · exact hb
  · intro o cmd
    dsimp only
    rw [delivery_count_next, htrace, fired_count_next, h.posts]

theorem start_delivering (memory : List AppCommand) : Delivering capacity (.start memory) :=
  ⟨start_filed memory, rfl, Nat.zero_le _, fun _ _ => rfl⟩

end delivery

/-- The command of the post was sent to the queue. -/
def Delivered.Sent (d : Delivered) (i : Nat) : Prop :=
  ∃ cmd, (Origin.post (some i), cmd) ∈ d.delivery.entered ++ d.delivery.lost

section sent
variable (capacity : Nat) (d : Delivered) (h : Delivering capacity d)
include h

/-- What a callback sent is the command of an accepted post. -/
theorem Delivering.accepted (o : Option Nat) (cmd : AppCommand)
    (hm : (.post o, cmd) ∈ d.delivery.entered ++ d.delivery.lost) :
    ∃ i slot, o = some i ∧ d.traced.trace.accepted[i]? = some (slot, cmd) := by
  have hpos := List.count_pos_iff.mpr hm
  rw [h.posts] at hpos
  exact h.filed.fired (o, cmd) (List.count_pos_iff.mp hpos)

theorem Delivering.fired_of_sent (i : Nat) (hs : d.Sent i) : d.traced.trace.Fired i := by
  obtain ⟨cmd, hm⟩ := hs
  have hpos := List.count_pos_iff.mpr hm
  rw [h.posts] at hpos
  exact List.mem_map_of_mem (f := Prod.fst) (List.count_pos_iff.mp hpos)

/-- A post that has fired was sent once. -/
theorem Delivering.count_fired (i slot : Nat) (cmd : AppCommand)
    (ha : d.traced.trace.accepted[i]? = some (slot, cmd)) (hf : d.traced.trace.Fired i) :
    (d.delivery.entered ++ d.delivery.lost).count (.post (some i), cmd) = 1 := by
  obtain ⟨e, he, hei⟩ := List.mem_map.mp hf
  obtain ⟨j, slot', hj, hacc⟩ := h.filed.fired e he
  obtain rfl : j = i := Option.some.inj (hj.symm.trans hei)
  have hcmd : e.2 = cmd := congrArg Prod.snd (Option.some.inj (hacc.symm.trans ha))
  have hmem : (some j, cmd) ∈ d.traced.trace.fired := by
    rw [← hcmd, ← hei]
    exact he
  have hnodup : d.traced.trace.fired.Nodup := List.Nodup.of_map _ (h.filed.fired_nodup d.traced)
  rw [h.posts]
  exact List.count_eq_one_of_mem hnodup hmem

/-- Nothing is sent twice for one post. -/
theorem Delivering.once (i : Nat) :
    ((d.delivery.entered ++ d.delivery.lost).map Prod.fst).count (.post (some i)) ≤ 1 := by
  by_cases hs : d.Sent i
  · have hf := h.fired_of_sent capacity d i hs
    obtain ⟨cmd, hm⟩ := hs
    obtain ⟨j, slot, hj, ha⟩ := h.accepted capacity d _ cmd hm
    obtain rfl := Option.some.inj hj
    -- all that was sent for the post is its own command
    have hsame : ∀ e ∈ d.delivery.entered ++ d.delivery.lost,
        ((· == Origin.post (some i)) ∘ Prod.fst) e = true ↔ (e == (Origin.post (some i), cmd)) = true := by
      intro e he
      rw [Function.comp_apply, beq_iff_eq, beq_iff_eq]
      constructor
      · intro h1
        have he' : (.post (some i), e.2) ∈ d.delivery.entered ++ d.delivery.lost := by
          rw [← h1]
          exact he
        obtain ⟨k, slot', hk, ha'⟩ := h.accepted capacity d _ e.2 he'
        obtain rfl := Option.some.inj hk
        have h2 : e.2 = cmd := congrArg Prod.snd (Option.some.inj (ha'.symm.trans ha))
        exact Prod.ext h1 h2
      · intro h1
        rw [h1]
    rw [List.count, List.countP_map, List.countP_congr hsame]
    exact Nat.le_of_eq (h.count_fired capacity d i slot cmd ha hf)
  · have hnone : Origin.post (some i) ∉ (d.delivery.entered ++ d.delivery.lost).map Prod.fst := by
      intro hm
      obtain ⟨⟨o, cmd⟩, he, rfl⟩ := List.mem_map.mp hm
      exact hs ⟨cmd, he⟩
    rw [List.count_eq_zero.mpr hnone]
    exact Nat.zero_le 1

/-- An accepted post that was not sent is still to fire. -/
theorem Delivering.pending (i slot : Nat) (cmd : AppCommand)
    (ha : d.traced.trace.accepted[i]? = some (slot, cmd)) (hs : ¬ d.Sent i) : d.traced.Pending i slot := by
  refine h.filed.pending _ i slot cmd ha fun hf => hs ⟨cmd, ?_⟩
  apply List.count_pos_iff.mp
  rw [h.count_fired capacity d i slot cmd ha hf]
  exact Nat.one_pos

end sent

/-- In every run: accepted posts whose commands were not sent have slots of their own, and a timer or the callback
still to fire for them. What a callback sends is the command of the post that started its timer, once; it enters the
queue, from which the main loop executes it, or finds the queue full. A free slot has no running timer, and a slot in
use is held. -/
theorem delayed_pool (capacity : Nat) (rate : UInt32) (memory : List AppCommand) (d : Delivered)
    (run : Steps (Delivered.next capacity rate) (fun _ _ => True) (.start memory) d) :
    (∀ (i j slot : Nat) (cmd cmd' : AppCommand), d.traced.trace.accepted[i]? = some (slot, cmd) →
      d.traced.trace.accepted[j]? = some (slot, cmd') → ¬ d.Sent i → ¬ d.Sent j → i = j) ∧
    (∀ o cmd, (.post o, cmd) ∈ d.delivery.entered ++ d.delivery.lost →
      ∃ i slot : Nat, o = some i ∧ d.traced.trace.accepted[i]? = some (slot, cmd)) ∧
    (∀ i, ((d.delivery.entered ++ d.delivery.lost).map Prod.fst).count (.post (some i)) ≤ 1) ∧
    (∀ (i slot : Nat) (cmd : AppCommand), d.traced.trace.accepted[i]? = some (slot, cmd) → ¬ d.Sent i →
      d.traced.Pending i slot) ∧
    d.delivery.entered.map Prod.snd = d.delivery.executed ++ d.traced.state.loop.queue ∧
    (∀ slot, d.traced.state.loop.inUse slot = false → d.traced.state.loop.armed slot = false) ∧
    (∀ slot, d.traced.state.loop.inUse slot = true →
      (∃ c ∈ d.traced.state.callers, c.pc.slot = some slot) ∨ d.traced.state.loop.armed slot = true ∨
        ∃ pc ∈ d.traced.state.callback, pc.slot = slot) := by
  have h : Delivering capacity d := run.invariant _ _ (Delivering capacity) _ _ (start_delivering capacity memory)
    fun t l t' ht _ hn => delivering_next capacity rate t ht l t' hn
  have hpending := h.pending capacity d
  refine ⟨?_, h.accepted capacity d, h.once capacity d, hpending, h.fifo, ?_, ?_⟩
  · intro i j slot cmd cmd' hi hj hsi hsj
    exact h.filed.exclusive d.traced i j slot (hpending i slot cmd hi hsi) (hpending j slot cmd' hj hsj)
  · intro slot hu
    have hnone := h.filed.owned slot
    rw [State.holders, hu, Bool.toNat_false] at hnone
    apply Bool.toNat_eq_zero.mp
    omega
  · exact holder_of_inUse d.traced.state h.filed.owned

/-- Two posts get one slot after the other; the second has not fired. -/
def Delivered.reusing : List Label :=
  .begin ⟨5, ⟨7, 11⟩⟩ :: List.replicate 5 (.call 0 true) ++ .fire 0 :: List.replicate 4 .callback ++
    .begin ⟨9, ⟨8, 12⟩⟩ :: List.replicate 5 (.call 0 true)

theorem delayed_pool_reusing :
    ∃ d, exec (guarded (Delivered.next 4 1000) fun _ _ => True) (.start [⟨0, 0⟩]) Delivered.reusing = some d ∧
      d.traced.trace.accepted = [(0, ⟨7, 11⟩), (0, ⟨8, 12⟩)] ∧
      d.delivery.entered = [(.post (some 0), ⟨7, 11⟩)] ∧ d.traced.state.loop.queue = [⟨7, 11⟩] ∧
      (∀ (i slot : Nat) (cmd : AppCommand), d.traced.trace.accepted[i]? = some (slot, cmd) → ¬ d.Sent i →
        d.traced.Pending i slot) := by
  have hrun : (exec (guarded (Delivered.next 4 1000) fun _ _ => True) (.start [⟨0, 0⟩]) Delivered.reusing).any
      (fun d => d.traced.trace.accepted = [(0, ⟨7, 11⟩), (0, ⟨8, 12⟩)] ∧
        d.delivery.entered = [(.post (some 0), ⟨7, 11⟩)] ∧ d.traced.state.loop.queue = [⟨7, 11⟩]) = true := by
    decide
  obtain ⟨d, hd, hp⟩ := (Option.any_eq_true _ _).mp hrun
  obtain ⟨ha, he, hq⟩ := of_decide_eq_true hp
  have h := delayed_pool 4 1000 [⟨0, 0⟩] d (steps_of_guarded _ _ _ _ _ hd)
  exact ⟨d, hd, ha, he, hq, h.2.2.2.1⟩

/-- In every run the main loop executes what has entered its queue, each command once and in the order in which it
entered; the queue holds at most `capacity` commands. Whatever a callback sent is the command of the accepted post
that its timer ran for; and an accepted post either is still to fire or was sent once, into the queue or, where
that was full, into nothing. -/
theorem loop_delivers (capacity : Nat) (rate : UInt32) (memory : List AppCommand) (d : Delivered)
    (run : Steps (Delivered.next capacity rate) (fun _ _ => True) (.start memory) d) :
    d.delivery.entered.map Prod.snd = d.delivery.executed ++ d.traced.state.loop.queue ∧
    d.traced.state.loop.queue.length ≤ capacity ∧
    (∀ o cmd, (.post o, cmd) ∈ d.delivery.entered ++ d.delivery.lost →
      ∃ i slot, o = some i ∧ d.traced.trace.accepted[i]? = some (slot, cmd)) ∧
    ∀ (i slot : Nat) (cmd : AppCommand), d.traced.trace.accepted[i]? = some (slot, cmd) →
      (d.delivery.entered ++ d.delivery.lost).count (.post (some i), cmd) = 1 ∨
      (d.delivery.entered ++ d.delivery.lost).count (.post (some i), cmd) = 0 ∧ d.traced.Pending i slot := by
  have h : Delivering capacity d := run.invariant _ _ (Delivering capacity) _ _ (start_delivering capacity memory)
    fun t l t' ht _ hn => delivering_next capacity rate t ht l t' hn
  refine ⟨h.fifo, h.bound, h.accepted capacity d, ?_⟩
  intro i slot cmd ha
  by_cases hs : d.Sent i
  · exact .inl (h.count_fired capacity d i slot cmd ha (h.fired_of_sent capacity d i hs))
  · exact .inr ⟨List.count_eq_zero.mpr fun hm => hs ⟨cmd, hm⟩, h.pending capacity d i slot cmd ha hs⟩

/-- A post has fired, and is executed; a second command waits behind it. -/
def executing : List Label :=
  .begin ⟨5, ⟨7, 11⟩⟩ :: List.replicate 5 (.call 0 true) ++ .fire 0 :: List.replicate 4 .callback ++
    [.push ⟨8, 12⟩, .receive]

theorem loop_delivers_executing :
    ∃ d, exec (guarded (Delivered.next 4 1000) fun _ _ => True) (.start [⟨0, 0⟩]) executing = some d ∧
      d.delivery.executed = [⟨7, 11⟩] ∧ d.traced.state.loop.queue = [⟨8, 12⟩] ∧
      d.delivery.entered.map Prod.snd = d.delivery.executed ++ d.traced.state.loop.queue := by
  have hrun : (exec (guarded (Delivered.next 4 1000) fun _ _ => True) (.start [⟨0, 0⟩]) executing).any
      (fun d => d.delivery.executed = [⟨7, 11⟩] ∧ d.traced.state.loop.queue = [⟨8, 12⟩]) = true := by decide
  obtain ⟨d, hd, hp⟩ := (Option.any_eq_true _ _).mp hrun
  obtain ⟨he, hq⟩ := of_decide_eq_true hp
  have h := loop_delivers 4 1000 [⟨0, 0⟩] d (steps_of_guarded _ _ _ _ _ hd)
  exact ⟨d, hd, he, hq, h.1⟩

end Espbase.MainLoop
