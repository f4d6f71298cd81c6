import Espbase.Lib.Interleaving
import Mathlib.Tactic.SplitIfs

namespace Espbase.YieldingTask

open Espbase.Lib

/-- A `PmLock`, and how the system holds it for the task: acquisitions less releases. -/
structure PmLock where
  /-- `handle_` is not null -/
  handle : Bool
  acquired : Bool
  held : Int
  deriving DecidableEq

namespace PmLock

def constructed : PmLock := ⟨false, false, 0⟩

/-- Acquiring and releasing succeed. -/
def acquireIfEnabled (l : PmLock) : PmLock :=
  if l.handle = false ∨ l.acquired = true then l else { l with acquired := true, held := l.held + 1 }

def release (l : PmLock) : PmLock :=
  if l.handle = false ∨ l.acquired = false then l else { l with acquired := false, held := l.held - 1 }

/-- `enable` with `create_or_delete`; `ok`: the lock can be created. -/
def enable (l : PmLock) (en ok : Bool) : PmLock :=
  if en = l.handle then l
  else if en then { l with handle := ok }
  else if l.acquired then { l with handle := false, acquired := false, held := l.held - 1 }
  else { l with handle := false }

end PmLock

/-- The members that the loop and its callers share. -/
structure Task where
  stopRequested : Bool
  terminateRequested : Bool
  /-- `sync_sem_`, which exists as long as the task, holds its token -/
  syncToken : Bool
  /-- `join_sem_` holds its token -/
  joinToken : Bool
  /-- `task_handle_` is not null -/
  taskHandle : Bool
  /-- `timer_handle_` is not null -/
  timerHandle : Bool
  timerArmed : Bool
  timerDeleted : Bool
  /-- a call got the handle of the deleted timer -/
  misused : Bool
  sleepLock : PmLock
  apbLock : PmLock
  deriving DecidableEq

namespace Task

/-- `xSemaphoreGive(sync_sem_)`; the semaphore is binary. -/
def give (t : Task) : Task := { t with syncToken := true }

/-- `xSemaphoreTake(sync_sem_)`: it gets the token (`ok`), or runs into the timeout. -/
def take (t : Task) (ok : Bool) : Option Task :=
  if ok then if t.syncToken then some { t with syncToken := false } else none else some t

/-- `esp_timer_stop`; `h`: the handle is not null. -/
def timerStop (t : Task) (h : Bool) : Task :=
  if h = false then t
  else if t.timerDeleted then { t with misused := true }
  else { t with timerArmed := false }

/-- `esp_timer_start_once`: a running timer stays as it is. -/
def timerStartOnce (t : Task) (h : Bool) : Task :=
  if h = false then t
  else if t.timerDeleted then { t with misused := true }
  else { t with timerArmed := true }

/-- `esp_timer_delete`: not while the timer runs. -/
def timerDelete (t : Task) (h : Bool) : Task :=
  if h = false ∨ t.timerArmed = true then t
  else if t.timerDeleted then { t with misused := true }
  else { t with timerDeleted := true }

end Task

/-- What ends an activation. -/
inductive Ending where
  | stopRequest
  | completion
  | termination
  deriving DecidableEq

/-- Where the loop of `trampoline` stands, with its local variables. -/
inductive LoopPc where
  /-- `while (!terminate_requested_)` -/
  | terminate (isActive : Bool)
  /-- `if (!is_active)` -/
  | active (isActive : Bool)
  /-- `acquire_pm_locks()` -/
  | acquireSleep
  | acquireApb
  /-- `is_stop_requested()` -/
  | stopRequested
  /-- `if (step_func_) delay_ms = step_func_(*instance)` -/
  | stepFunc
  /-- `if (timer_handle_)` -/
  | timer (delay : UInt32)
  | startArg (delay : UInt32)
  | startOnce (h : Bool) (delay : UInt32)
  /-- the wait for the timer -/
  | waitTimer
  | stopArg
  | stop (h : Bool)
  /-- the wait of `pdMS_TO_TICKS(*delay_ms)` -/
  | waitTicks (delay : UInt32)
  /-- `if (stop_func_) stop_func_(*instance)` -/
  | stopFunc (e : Ending)
  /-- `release_pm_locks()` -/
  | releaseApb (e : Ending)
  | releaseSleep (e : Ending)
  /-- the wait of an idle task -/
  | wait
  /-- `if (is_active)`, behind the loop -/
  | exit (isActive : Bool)
  /-- `release_pm_locks()` in `terminate_from_task()` -/
  | leaveApb
  | leaveSleep
  /-- `xSemaphoreGive(join_sem_)` -/
  | giveJoin
  /-- `task_handle_.store(nullptr)` -/
  | store
  /-- `vTaskDelete(nullptr)` -/
  | delete
  | terminated
  deriving DecidableEq

/-- `delay`: what the step function returns, if there is one; `ok`: a wait with a timeout gets the token. -/
def LoopPc.step (stepFunc : Bool) (delay : Option UInt32) (ok : Bool) (t : Task) :
    LoopPc → Option (Task × LoopPc)
  | .terminate isActive => some (t, if t.terminateRequested then .exit isActive else .active isActive)
  | .active isActive => some (t, if isActive then .stopRequested else .acquireSleep)
  | .acquireSleep => some ({ t with sleepLock := t.sleepLock.acquireIfEnabled }, .acquireApb)
  | .acquireApb => some ({ t with apbLock := t.apbLock.acquireIfEnabled }, .stopRequested)
  | .stopRequested => some (t, if t.stopRequested then .stopFunc .stopRequest else .stepFunc)
  | .stepFunc =>
    some (t, match if stepFunc then delay else none with
      | some delay => .timer delay
      | none => .stopFunc .completion)
  | .timer delay => some (t, if t.timerHandle then .startArg delay else .waitTicks delay)
  | .startArg delay => some (t, .startOnce t.timerHandle delay)
  | .startOnce h _ => some (t.timerStartOnce h, .waitTimer)
  | .waitTimer => (t.take true).map fun t => (t, .stopArg)
  | .stopArg => some (t, .stop t.timerHandle)
  | .stop h => some (t.timerStop h, .terminate true)
  | .waitTicks _ => (t.take ok).map fun t => (t, .terminate true)
  | .stopFunc e => some (t, .releaseApb e)
  | .releaseApb e => some ({ t with apbLock := t.apbLock.release }, .releaseSleep e)
  | .releaseSleep e =>
    some ({ t with sleepLock := t.sleepLock.release }, if e = .termination then .leaveApb else .wait)
  | .wait => (t.take true).map fun t => (t, .terminate false)
  | .exit isActive => some (t, if isActive then .stopFunc .termination else .leaveApb)
  | .leaveApb => some ({ t with apbLock := t.apbLock.release }, .leaveSleep)
  | .leaveSleep => some ({ t with sleepLock := t.sleepLock.release }, .giveJoin)
  | .giveJoin => some ({ t with joinToken := true }, .store)
  | .store => some ({ t with taskHandle := false }, .delete)
  | .delete => some (t, .terminated)
  | .terminated => none

/-- A call of another party: `notify`, `request_stop`, or `reset` up to its wait for the task. -/
inductive CallPc where
  /-- `stop_requested_ = true` -/
  | setStop
  /-- `if (clear_stop) stop_requested_ = false` -/
  | clearStop
  /-- `if (timer_handle)` in `configure_hardware_timer(timer_handle_, false)` -/
  | timer
  | stopArg
  | stop (h : Bool)
  | deleteArg
  | delete (h : Bool)
  /-- `timer_handle = nullptr` -/
  | clearTimer
  /-- `task_handle_ != nullptr` -/
  | handle
  /-- `terminate_requested_ = true` -/
  | terminate
  | give
  deriving DecidableEq

def CallPc.step (t : Task) : CallPc → Task × Option CallPc
  | .setStop => ({ t with stopRequested := true }, some .give)
  | .clearStop => ({ t with stopRequested := false }, some .give)
  | .timer => (t, some (if t.timerHandle then .stopArg else .handle))
  | .stopArg => (t, some (.stop t.timerHandle))
  | .stop h => (t.timerStop h, some .deleteArg)
  | .deleteArg => (t, some (.delete t.timerHandle))
  | .delete h => (t.timerDelete h, some .clearTimer)
  | .clearTimer => ({ t with timerHandle := false }, some .handle)
  | .handle => (t, if t.taskHandle then some .terminate else none)
  | .terminate => ({ t with terminateRequested := true }, some .give)
  | .give => (t.give, none)

inductive Entry where
  | notify (clearStop : Bool)
  | requestStop
  | reset
  deriving DecidableEq

def Entry.call : Entry → CallPc
  | .notify clearStop => if clearStop then .clearStop else .give
  | .requestStop => .setStop
  | .reset => .timer

structure State where
  task : Task
  loop : LoopPc
  calls : List CallPc
  /-- the timer task is in the timer's callback, which is to call `notify()` -/
  callback : Bool
  deriving DecidableEq

inductive Label where
  | loop (delay : Option UInt32) (ok : Bool)
  | begin (e : Entry)
  /-- one step of the `i`th call -/
  | call (i : Nat)
  /-- the timer task takes the due timer and enters its callback -/
  | fire
  | callback
  deriving DecidableEq

namespace State

/-- A task that has just been created: locks and timer as its configuration asks for them. -/
def created (preventLightSleep lockApbFreq useHardwareWakeups : Bool) : State where
  task := ⟨false, false, false, false, true, useHardwareWakeups, false, false, false,
    PmLock.constructed.enable preventLightSleep true, PmLock.constructed.enable lockApbFreq true⟩
  loop := .terminate false
  calls := []
  callback := false

def next (stepFunc : Bool) (s : State) : Label → Option State
  | .loop delay ok => do
    let (task, loop) ← s.loop.step stepFunc delay ok s.task
    some { s with task, loop }
  | .begin e => some { s with calls := s.calls ++ [e.call] }
  | .call i => do
    let c ← s.calls[i]?
    some { s with
      task := (c.step s.task).1
      calls := s.calls.take i ++ (c.step s.task).2.toList ++ s.calls.drop (i + 1) }
  | .fire =>
    if s.callback = false ∧ s.task.timerArmed = true then
      some { s with task := { s.task with timerArmed := false }, callback := true }
    else none
  | .callback => if s.callback then some { s with task := s.task.give, callback := false } else none

section inversion
variable (stepFunc : Bool) (s s' : State)

theorem next_loop (delay : Option UInt32) (ok : Bool) (h : s.next stepFunc (.loop delay ok) = some s') :
    ∃ task loop, s.loop.step stepFunc delay ok s.task = some (task, loop) ∧ s' = { s with task, loop } := by
  simp only [next, Option.bind_eq_bind, Option.bind_eq_some_iff] at h
  obtain ⟨⟨task, loop⟩, hr, h⟩ := h
  exact ⟨task, loop, hr, (Option.some.inj h).symm⟩

theorem next_call (i : Nat) (h : s.next stepFunc (.call i) = some s') :
    ∃ c, s.calls[i]? = some c ∧ s' = { s with
      task := (c.step s.task).1
      calls := s.calls.take i ++ (c.step s.task).2.toList ++ s.calls.drop (i + 1) } := by
  simp only [next, Option.bind_eq_bind, Option.bind_eq_some_iff] at h
  obtain ⟨c, hc, h⟩ := h
  exact ⟨c, hc, (Option.some.inj h).symm⟩

theorem next_fire (h : s.next stepFunc .fire = some s') :
    s' = { s with task := { s.task with timerArmed := false }, callback := true } := by
  simp only [next] at h
  split_ifs at h
  exact (Option.some.inj h).symm

theorem next_callback (h : s.next stepFunc .callback = some s') :
    s' = { s with task := s.task.give, callback := false } := by
  simp only [next] at h
  split_ifs at h
  exact (Option.some.inj h).symm

end inversion

end State

end Espbase.YieldingTask
