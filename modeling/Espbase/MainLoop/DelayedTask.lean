import Espbase.Lib.Interleaving
import Mathlib.Tactic.SplitIfs

namespace Espbase.MainLoop

open Espbase.Lib

structure AppCommand where
  arg : UInt32
  execute : UInt32
  deriving DecidableEq

/-- An element of `delayed_tasks_`. -/
structure DelayedTask where
  cmd : AppCommand
  /-- the period for which `timer_handle` runs -/
  timer : Option UInt32
  inUse : Bool
  deriving DecidableEq

structure Loop where
  queue : List AppCommand
  delayedTasks : List DelayedTask
  deriving DecidableEq

/-- The loop with one free slot for each command that its memory holds at first. -/
def Loop.constructed (memory : List AppCommand) : Loop :=
  ⟨[], memory.map fun cmd => ⟨cmd, none, false⟩⟩

/-- The queue holds `capacity` commands; `xQueueSendFromISR` sends as `xQueueSend` does. -/
def Loop.pushFunc (m : Loop) (capacity : Nat) (cmd : AppCommand) : Loop × Bool :=
  if m.queue.length < capacity then ({ m with queue := m.queue ++ [cmd] }, true) else (m, false)

section stores
variable (m : Loop) (slot : Nat)

def Loop.setInUse (inUse : Bool) : Loop :=
  { m with delayedTasks := m.delayedTasks.modify slot fun d => { d with inUse } }

def Loop.setTimer (timer : Option UInt32) : Loop :=
  { m with delayedTasks := m.delayedTasks.modify slot fun d => { d with timer } }

def Loop.setArg (arg : UInt32) : Loop :=
  { m with delayedTasks := m.delayedTasks.modify slot fun d => { d with cmd := { d.cmd with arg } } }

def Loop.setExecute (execute : UInt32) : Loop :=
  { m with delayedTasks := m.delayedTasks.modify slot fun d =>
      { d with cmd := { d.cmd with execute } } }

end stores

/-- `pdMS_TO_TICKS(delay_ms)`, but at least 1; `rate` ticks a second. -/
def ticks (rate delay : UInt32) : UInt32 :=
  if delay * rate / 1000 = 0 then 1 else delay * rate / 1000

/-- The arguments of a call of `post_delayed_func`. -/
structure Post where
  delay : UInt32
  cmd : AppCommand
  deriving DecidableEq

inductive PostPc where
  /-- `if (delay_ms == 0) return push_func(execute, arg)` -/
  | delay
  /-- the critical section that looks for a slot -/
  | claim
  | storeArg (slot : Nat)
  | storeExecute (slot : Nat)
  /-- `xTimerChangePeriod` -/
  | changePeriod (slot : Nat)
  /-- the critical section that frees the slot again -/
  | rollback (slot : Nat)
  deriving DecidableEq

/-- One step of a call, up to the value it returns. `ok`: the timer can be started. An interrupt makes the
same steps with the calls for interrupts. -/
def Post.step (capacity : Nat) (rate : UInt32) (ok : Bool) (m : Loop) (p : Post) :
    PostPc → Loop × (PostPc ⊕ Bool)
  | .delay =>
    if p.delay = 0 then ((m.pushFunc capacity p.cmd).1, .inr (m.pushFunc capacity p.cmd).2)
    else (m, .inl .claim)
  | .claim =>
    match m.delayedTasks.findIdx? fun d => !d.inUse with
    | some slot => (m.setInUse slot true, .inl (.storeArg slot))
    | none => (m, .inr false)
  | .storeArg slot => (m.setArg slot p.cmd.arg, .inl (.storeExecute slot))
  | .storeExecute slot => (m.setExecute slot p.cmd.execute, .inl (.changePeriod slot))
  | .changePeriod slot =>
    if ok then (m.setTimer slot (some (ticks rate p.delay)), .inr true)
    else (m, .inl (.rollback slot))
  | .rollback slot => (m.setInUse slot false, .inr false)

inductive CallbackPc where
  /-- the read of `task->cmd.execute` -/
  | readExecute (slot : Nat)
  /-- the read of `task->cmd.arg` -/
  | readArg (slot : Nat) (execute : UInt32)
  | push (slot : Nat) (cmd : AppCommand)
  /-- the critical section that frees the slot -/
  | free (slot : Nat)
  deriving DecidableEq

/-- `timer_callback` on a slot; without it there is nothing to read. -/
def CallbackPc.step (capacity : Nat) (m : Loop) : CallbackPc → Option (Loop × Option CallbackPc)
  | .readExecute slot => m.delayedTasks[slot]?.map fun d => (m, some (.readArg slot d.cmd.execute))
  | .readArg slot execute =>
    m.delayedTasks[slot]?.map fun d => (m, some (.push slot ⟨d.cmd.arg, execute⟩))
  | .push slot cmd => some ((m.pushFunc capacity cmd).1, some (.free slot))
  | .free slot => some (m.setInUse slot false, none)

structure Caller where
  post : Post
  pc : PostPc
  deriving DecidableEq

/-- The loop, the calls in progress and the callback that the timer task runs. -/
structure State where
  loop : Loop
  callers : List Caller
  callback : Option CallbackPc
  deriving DecidableEq

inductive Label where
  | begin (p : Post)
  /-- one step of the `i`th call -/
  | call (i : Nat) (ok : Bool)
  /-- the timer of a slot fires: it stops, and the timer task enters its callback -/
  | fire (slot : Nat)
  | callback
  /-- the main loop takes the next command -/
  | receive
  /-- any other call of `push_func` -/
  | push (cmd : AppCommand)
  deriving DecidableEq

namespace State

def constructed (memory : List AppCommand) : State := ⟨.constructed memory, [], none⟩

/-- One step of the whole system. -/
def next (capacity : Nat) (rate : UInt32) (s : State) : Label → Option State
  | .begin p => some { s with callers := s.callers ++ [⟨p, .delay⟩] }
  | .call i ok => do
    let c ← s.callers[i]?
    let r := c.post.step capacity rate ok s.loop c.pc
    some { s with
      loop := r.1
      callers := s.callers.take i ++ (r.2.getLeft?.map (Caller.mk c.post)).toList ++
        s.callers.drop (i + 1) }
  | .fire slot =>
    if s.callback = none ∧ s.loop.delayedTasks[slot]?.any (·.timer.isSome) then
      some { s with
        loop := s.loop.setTimer slot none
        callback := some (.readExecute slot) }
    else none
  | .callback => do
    let pc ← s.callback
    let (loop, callback) ← pc.step capacity s.loop
    some { s with loop, callback }
  | .receive =>
    match s.loop.queue with
    | [] => none
    | _ :: queue => some { s with loop := { s.loop with queue } }
  | .push cmd => some { s with loop := (s.loop.pushFunc capacity cmd).1 }

section inversion
variable (capacity : Nat) (rate : UInt32) (s s' : State)

theorem next_call (i : Nat) (ok : Bool) (h : s.next capacity rate (.call i ok) = some s') :
    ∃ c, s.callers[i]? = some c ∧ s' = { s with
      loop := (c.post.step capacity rate ok s.loop c.pc).1
      callers := s.callers.take i ++
        ((c.post.step capacity rate ok s.loop c.pc).2.getLeft?.map (Caller.mk c.post)).toList ++
        s.callers.drop (i + 1) } := by
  simp only [next, Option.bind_eq_bind, Option.bind_eq_some_iff] at h
  obtain ⟨c, hc, h⟩ := h
  exact ⟨c, hc, (Option.some.inj h).symm⟩

theorem next_fire (slot : Nat) (h : s.next capacity rate (.fire slot) = some s') :
    s.callback = none ∧ s.loop.delayedTasks[slot]?.any (·.timer.isSome) = true ∧ s' = { s with
      loop := s.loop.setTimer slot none
      callback := some (.readExecute slot) } := by
  simp only [next] at h
  split_ifs at h with hf
  exact ⟨hf.1, hf.2, (Option.some.inj h).symm⟩

theorem next_callback (h : s.next capacity rate .callback = some s') :
    ∃ pc loop callback, s.callback = some pc ∧ pc.step capacity s.loop = some (loop, callback) ∧
      s' = { s with loop, callback } := by
  simp only [next, Option.bind_eq_bind, Option.bind_eq_some_iff] at h
  obtain ⟨pc, hpc, ⟨loop, callback⟩, hr, h⟩ := h
  exact ⟨pc, loop, callback, hpc, hr, (Option.some.inj h).symm⟩

theorem next_receive (h : s.next capacity rate .receive = some s') :
    ∃ cmd queue, s.loop.queue = cmd :: queue ∧ s' = { s with loop := { s.loop with queue } } := by
  cases hq : s.loop.queue with
  | nil => simp [next, hq] at h
  | cons cmd queue =>
    simp only [next, hq] at h
    exact ⟨cmd, queue, rfl, (Option.some.inj h).symm⟩

end inversion

end State

end Espbase.MainLoop
