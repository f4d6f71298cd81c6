import Espbase.MainLoopTask.Task

namespace Espbase.MainLoopTask

/-- The end of `politely_request_stop` and of `notify`: stop the timer, count the step and push it.
The timer's callback is the last two steps of it. -/
inductive KickPc where
  /-- `if (timer_handle_)` -/
  | timer
  /-- the read of `timer_handle_` that `esp_timer_stop` gets -/
  | arg
  | stop (h : Option Nat)
  /-- `inflight_count_.fetch_add(1)` -/
  | add
  /-- `main_loop.push<&MainLoopTaskBase::app_loop_step>(this)` -/
  | push
  deriving DecidableEq

def KickPc.step (capacity : Nat) (t : Task) : KickPc → Task × Option KickPc
  | .timer => (t, some (if t.timerHandle.isSome then .arg else .add))
  | .arg => (t, some (.stop t.timerHandle))
  | .stop h => (t.timerStop h, some .add)
  | .add => (t.fetchAdd, some .push)
  | .push => (t.push capacity .appLoopStep, none)

inductive StopPc where
  /-- `stop_requested_ = true` -/
  | flag
  /-- `sequence_version_.load() > 0` -/
  | version
  /-- `running_.load()` -/
  | running
  | kick (pc : KickPc)
  deriving DecidableEq

def StopPc.step (capacity : Nat) (t : Task) : StopPc → Task × Option StopPc
  | .flag => ({ t with stopRequested := true }, some .version)
  | .version => (t, if 0 < t.sequenceVersion then some .running else none)
  | .running => (t, if t.running then some (.kick .timer) else none)
  | .kick pc => ((pc.step capacity t).1, (pc.step capacity t).2.map .kick)

inductive NotifyPc where
  /-- `!running_.load()` -/
  | running (clearStop : Bool)
  /-- `|| terminate_requested_` -/
  | terminate (clearStop : Bool)
  /-- `stop_requested_ = false` -/
  | clear
  /-- `sequence_version_.load()` -/
  | version
  /-- `sequence_version_.compare_exchange_weak(prev, next)` -/
  | exchange (prev : UInt32)
  | kick (pc : KickPc)
  deriving DecidableEq

/-- The version after `prev`, which is never the inactive 0. -/
def nextVersion (prev : UInt32) : UInt32 :=
  let next := if prev = 0 then 1 else prev + 1
  if next = 0 then 1 else next

/-- `spurious`: a weak exchange may fail although the values agree. -/
def NotifyPc.step (capacity : Nat) (spurious : Bool) (t : Task) :
    NotifyPc → Task × Option NotifyPc
  | .running clearStop => (t, if t.running then some (.terminate clearStop) else none)
  | .terminate clearStop =>
    (t, if t.terminateRequested then none else some (if clearStop then .clear else .version))
  | .clear => ({ t with stopRequested := false }, some .version)
  | .version => (t, some (.exchange t.sequenceVersion))
  | .exchange prev =>
    if t.sequenceVersion = prev ∧ spurious = false then
      ({ t with sequenceVersion := nextVersion prev }, some (.kick .timer))
    else (t, some (.exchange t.sequenceVersion))
  | .kick pc => ((pc.step capacity t).1, (pc.step capacity t).2.map .kick)

inductive ResetPc where
  /-- `!running_.exchange(false)` -/
  | claim
  /-- `terminate_requested_ = true` -/
  | terminate
  /-- `if (timer_handle_)` -/
  | timer
  | stopArg
  | stop (h : Option Nat)
  | deleteArg
  | delete (h : Option Nat)
  /-- `timer_handle_ = nullptr` -/
  | clear
  /-- `inflight_count_.load() > 0` -/
  | count
  /-- `if (join_sem_)`, inside -/
  | sem
  | takeArg
  | take (h : Option Nat)
  /-- `if (join_sem_)`, after the wait -/
  | drained
  | semArg
  | semDelete (h : Option Nat)
  /-- `join_sem_ = nullptr` -/
  | semClear
  deriving DecidableEq

/-- `ok`: the wait gets the token before its timeout. -/
def ResetPc.step (ok : Bool) (t : Task) : ResetPc → Option (Task × Option ResetPc)
  | .claim => some ({ t with running := false }, if t.running then some .terminate else none)
  | .terminate => some ({ t with terminateRequested := true }, some .timer)
  | .timer => some (t, some (if t.timerHandle.isSome then .stopArg else .count))
  | .stopArg => some (t, some (.stop t.timerHandle))
  | .stop h => some (t.timerStop h, some .deleteArg)
  | .deleteArg => some (t, some (.delete t.timerHandle))
  | .delete h => some (t.timerDelete h, some .clear)
  | .clear => some ({ t with timerHandle := none }, some .count)
  | .count => some (t, some (if 0 < t.inflightCount then .sem else .drained))
  | .sem => some (t, some (if t.joinSem.isSome then .takeArg else .drained))
  | .takeArg => some (t, some (.take t.joinSem))
  | .take h => (t.semTake ok h).map fun t => (t, some .drained)
  | .drained => some (t, if t.joinSem.isSome then some .semArg else none)
  | .semArg => some (t, some (.semDelete t.joinSem))
  | .semDelete h => some (t.semDelete h, some .semClear)
  | .semClear => some ({ t with joinSem := none }, none)

inductive StartPc where
  /-- `running_.compare_exchange_strong(expected, true)` -/
  | claim
  /-- `stop_requested_ = false` -/
  | clearStop
  /-- `terminate_requested_ = false` -/
  | clearTerminate
  /-- `sequence_version_.store(1)` -/
  | version
  /-- `inflight_count_.store(0)` -/
  | count
  /-- `if (!join_sem_)` -/
  | sem
  /-- `xSemaphoreCreateBinary()` -/
  | semCreate
  /-- `join_sem_ =` what it returned -/
  | semStore (h : Option Nat)
  /-- `if (!join_sem_)`, after the creation -/
  | semCheck
  /-- `esp_timer_create(&timer_args, &timer_handle_)` -/
  | timerCreate
  /-- `inflight_count_.fetch_add(1)` -/
  | add
  /-- `main_loop.push<&MainLoopTaskBase::app_loop_step>(this)` -/
  | push
  /-- `inflight_count_.fetch_sub(1)` -/
  | undo
  /-- `reset()` on the way out with an error -/
  | fail (pc : ResetPc)
  deriving DecidableEq

/-- `ok`: what is created can be created; in `reset()`, the wait gets the token. -/
def StartPc.step (capacity : Nat) (ok : Bool) (t : Task) :
    StartPc → Option (Task × Option StartPc)
  | .claim => some ({ t with running := true }, if t.running then none else some .clearStop)
  | .clearStop => some ({ t with stopRequested := false }, some .clearTerminate)
  | .clearTerminate => some ({ t with terminateRequested := false }, some .version)
  | .version => some ({ t with sequenceVersion := 1 }, some .count)
  | .count => some ({ t with inflightCount := 0 }, some .sem)
  | .sem => some (t, some (if t.joinSem.isSome then .timerCreate else .semCreate))
  | .semCreate =>
    if ok then some ({ t with nextHandle := t.nextHandle + 1 }, some (.semStore (some t.nextHandle)))
    else some (t, some (.semStore none))
  | .semStore h => some ({ t with joinSem := h }, some .semCheck)
  | .semCheck => some (t, some (if t.joinSem.isSome then .timerCreate else .fail .claim))
  | .timerCreate => if ok then some (t.timerCreate, some .add) else some (t, some (.fail .claim))
  | .add => some (t.fetchAdd, some .push)
  | .push =>
    some (t.push capacity .appLoopStep, if t.queue.length < capacity then none else some .undo)
  | .undo => some (t.fetchSub, some (.fail .claim))
  | .fail pc => (pc.step ok t).map fun r => (r.1, r.2.map .fail)

/-- A call of a member function, and where it stands. -/
inductive Call where
  | stop (pc : StopPc)
  | notify (pc : NotifyPc)
  | reset (pc : ResetPc)
  | start (pc : StartPc)
  deriving DecidableEq

/-- `ok`: the outcome of what the call cannot decide itself. -/
def Call.step (capacity : Nat) (ok : Bool) (t : Task) : Call → Option (Task × Option Call)
  | .stop pc => some ((pc.step capacity t).1, (pc.step capacity t).2.map .stop)
  | .notify pc => some ((pc.step capacity (!ok) t).1, (pc.step capacity (!ok) t).2.map .notify)
  | .reset pc => (pc.step ok t).map fun r => (r.1, r.2.map .reset)
  | .start pc => (pc.step capacity ok t).map fun r => (r.1, r.2.map .start)

end Espbase.MainLoopTask
