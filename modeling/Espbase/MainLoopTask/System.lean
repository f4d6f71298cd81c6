import Espbase.MainLoopTask.Calls
import Espbase.Lib.Interleaving
import Mathlib.Tactic.SplitIfs

namespace Espbase.MainLoopTask

open Espbase.Lib

inductive StepPc where
  /-- `sequence_version_.load()` -/
  | version
  /-- `terminate_requested_ || current_version == 0` -/
  | terminate (currentVersion : UInt32)
  /-- `if (stop_requested_)` -/
  | stopRequested (currentVersion : UInt32)
  /-- `on_stop()`, asked for or after the last `on_step()` -/
  | onStop (currentVersion : UInt32)
  /-- `sequence_version_.compare_exchange_strong(current_version, 0)` -/
  | deactivate (currentVersion : UInt32)
  /-- `on_step()` -/
  | onStep (currentVersion : UInt32)
  /-- `!terminate_requested_` -/
  | delayTerminate
  /-- `&& timer_handle_` -/
  | delayTimer
  | stopArg
  | stop (h : Option Nat)
  | startArg
  | startOnce (h : Option Nat)
  /-- `inflight_count_.fetch_sub(1) == 1` -/
  | decrement
  /-- `terminate_requested_` -/
  | exitTerminate
  /-- `&& join_sem_` -/
  | exitSem
  | giveArg
  | give (h : Option Nat)
  deriving DecidableEq

/-- `delay`: `on_step()` asks to be called again. -/
def StepPc.step (delay : Bool) (t : Task) : StepPc → Task × Option StepPc
  | .version => (t, some (.terminate t.sequenceVersion))
  | .terminate v =>
    (t, some (if t.terminateRequested ∨ v = 0 then .decrement else .stopRequested v))
  | .stopRequested v => (t, some (if t.stopRequested then .onStop v else .onStep v))
  | .onStop v => (t, some (.deactivate v))
  | .deactivate v =>
    (if t.sequenceVersion = v then { t with sequenceVersion := 0 } else t, some .decrement)
  | .onStep v => (t, some (if delay then .delayTerminate else .onStop v))
  | .delayTerminate => (t, some (if t.terminateRequested then .decrement else .delayTimer))
  | .delayTimer => (t, some (if t.timerHandle.isSome then .stopArg else .decrement))
  | .stopArg => (t, some (.stop t.timerHandle))
  | .stop h => (t.timerStop h, some .startArg)
  | .startArg => (t, some (.startOnce t.timerHandle))
  | .startOnce h => (t.timerStartOnce h, some .decrement)
  | .decrement => (t.fetchSub, if t.inflightCount = 1 then some .exitTerminate else none)
  | .exitTerminate => (t, if t.terminateRequested then some .exitSem else none)
  | .exitSem => (t, if t.joinSem.isSome then some .giveArg else none)
  | .giveArg => (t, some (.give t.joinSem))
  | .give h => (t.semGive h, none)

/-- The calls in progress, the callback the timer task runs, and the step the main loop runs. -/
structure State where
  task : Task
  calls : List Call
  callback : Option KickPc
  loop : Option StepPc
  deriving DecidableEq

def State.constructed (commands : Nat) : State := ⟨.constructed commands, [], none, none⟩

/-- The calls a user can make. -/
inductive Entry where
  | politelyRequestStop
  | notify (clearStop : Bool)
  | reset
  | start
  deriving DecidableEq

def Entry.call : Entry → Call
  | .politelyRequestStop => .stop .flag
  | .notify clearStop => .notify (.running clearStop)
  | .reset => .reset .claim
  | .start => .start .claim

inductive Label where
  | begin (e : Entry)
  /-- one step of the `i`th call -/
  | call (i : Nat) (ok : Bool)
  /-- the timer task takes a due timer and enters its callback -/
  | fire (h : Nat)
  | callback
  /-- the main loop takes the next command -/
  | receive
  | step (delay : Bool)
  /-- another object pushes a command -/
  | post
  deriving DecidableEq

/-- One step of the whole system; the queue holds `capacity` commands. -/
def State.next (capacity : Nat) (s : State) : Label → Option State
  | .begin e => some { s with calls := s.calls ++ [e.call] }
  | .call i ok => do
    let c ← s.calls[i]?
    let (task, c) ← c.step capacity ok s.task
    some { s with task, calls := s.calls.take i ++ c.toList ++ s.calls.drop (i + 1) }
  | .fire h =>
    if s.callback = none ∧ h ∈ s.task.armed then
      some { s with
        task := { s.task with armed := s.task.armed.filter (· ≠ h) }, callback := some .add }
    else none
  | .callback => do
    let pc ← s.callback
    some { s with task := (pc.step capacity s.task).1, callback := (pc.step capacity s.task).2 }
  | .receive =>
    if s.loop = none then
      match s.task.queue with
      | [] => none
      | c :: queue => some { s with
          task := { s.task with queue }
          loop := if c = .appLoopStep then some .version else none }
    else none
  | .step delay => do
    let pc ← s.loop
    some { s with task := (pc.step delay s.task).1, loop := (pc.step delay s.task).2 }
  | .post => some { s with task := s.task.push capacity .other }

section inversion
variable (capacity : Nat) (s s' : State)

theorem next_call (i : Nat) (ok : Bool) (h : s.next capacity (.call i ok) = some s') :
    ∃ c task c', s.calls[i]? = some c ∧ c.step capacity ok s.task = some (task, c') ∧
      s' = { s with task, calls := s.calls.take i ++ c'.toList ++ s.calls.drop (i + 1) } := by
  simp only [State.next, Option.bind_eq_bind, Option.bind_eq_some_iff] at h
  obtain ⟨c, hc, ⟨task, c'⟩, hr, h⟩ := h
  exact ⟨c, task, c', hc, hr, (Option.some.inj h).symm⟩

theorem next_fire (h' : Nat) (h : s.next capacity (.fire h') = some s') :
    s.callback = none ∧ h' ∈ s.task.armed ∧ s' = { s with
      task := { s.task with armed := s.task.armed.filter (· ≠ h') }, callback := some .add } := by
  simp only [State.next] at h
  split_ifs at h with hf
  exact ⟨hf.1, hf.2, (Option.some.inj h).symm⟩

theorem next_callback (h : s.next capacity .callback = some s') :
    ∃ pc, s.callback = some pc ∧ s' = { s with
      task := (pc.step capacity s.task).1, callback := (pc.step capacity s.task).2 } := by
  simp only [State.next, Option.bind_eq_bind, Option.bind_eq_some_iff] at h
  obtain ⟨pc, hpc, h⟩ := h
  exact ⟨pc, hpc, (Option.some.inj h).symm⟩

theorem next_receive (h : s.next capacity .receive = some s') :
    s.loop = none ∧ ∃ c queue, s.task.queue = c :: queue ∧ s' = { s with
      task := { s.task with queue }
      loop := if c = .appLoopStep then some .version else none } := by
  simp only [State.next] at h
  split_ifs at h with hf
  cases hq : s.task.queue with
  | nil => simp [hq] at h
  | cons c queue =>
    simp only [hq] at h
    exact ⟨hf, c, queue, rfl, (Option.some.inj h).symm⟩

theorem next_step (delay : Bool) (h : s.next capacity (.step delay) = some s') :
    ∃ pc, s.loop = some pc ∧ s' = { s with
      task := (pc.step delay s.task).1, loop := (pc.step delay s.task).2 } := by
  simp only [State.next, Option.bind_eq_bind, Option.bind_eq_some_iff] at h
  obtain ⟨pc, hpc, h⟩ := h
  exact ⟨pc, hpc, (Option.some.inj h).symm⟩

/-- A command of another object changes the queue only, and not this task's part of it. -/
theorem next_post (h : s.next capacity .post = some s') : ∃ queue,
    s' = { s with task := { s.task with queue } } ∧
      queue.count .appLoopStep = s.task.queued := by
  obtain rfl := Option.some.inj h
  by_cases hq : s.task.queue.length < capacity
  · exact ⟨s.task.queue ++ [.other], by simp [Task.push, hq], by simp [Task.queued]⟩
  · exact ⟨s.task.queue, by simp [Task.push, hq], rfl⟩

end inversion

/-- A start on an idle task, up to its push. -/
def State.starting : List Label := .begin .start :: List.replicate 12 (.call 0 true)

/-- A step that asks for another one: it is taken from the queue, runs and arms the timer. -/
def State.stepping : List Label := .receive :: List.replicate 12 (.step true)

end Espbase.MainLoopTask
