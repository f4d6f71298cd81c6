import Espbase.EspTask.Object
import Espbase.Lib.Interleaving

namespace Espbase.EspTask

open Espbase.Lib

inductive ResetPc where
  /-- `task_handle_ != nullptr` -/
  | handle
  /-- `terminate_requested_ = true` -/
  | terminate
  /-- `if (sync_sem_)` -/
  | sync
  | syncArg
  | syncGive (h : Option Nat)
  /-- `if (join_sem_)` -/
  | join
  | joinArg
  /-- `xSemaphoreTake(join_sem_, pdMS_TO_TICKS(2000))` -/
  | take (h : Option Nat)
  /-- the read of `task_handle_` for `vTaskDelete`, after a timeout -/
  | killArg
  | kill (h : Handle)
  /-- `task_handle_.store(nullptr)` -/
  | store
  /-- the deletion of `sync_sem_` -/
  | dropSync
  | dropSyncArg
  | dropSyncDelete (h : Option Nat)
  | dropSyncClear
  /-- the deletion of `join_sem_` -/
  | dropJoin
  | dropJoinArg
  | dropJoinDelete (h : Option Nat)
  | dropJoinClear
  /-- `pm_apb_lock_.enable(false); pm_sleep_lock_.enable(false)` -/
  | locks
  deriving DecidableEq

/-- What a call does besides its step on the object. -/
inductive Effect where
  | nothing
  | create
  | kill (h : Handle)
  deriving DecidableEq

/-- `ok`: the wait gets its token. -/
def ResetPc.step (ok : Bool) (o : Object) : ResetPc → Option (Object × Effect × Option ResetPc)
  | .handle => some (o, .nothing, some (if o.taskHandle = .null then .dropSync else .terminate))
  | .terminate => some ({ o with terminateRequested := true }, .nothing, some .sync)
  | .sync => some (o, .nothing, some (if o.syncSem.isSome then .syncArg else .join))
  | .syncArg => some (o, .nothing, some (.syncGive o.syncSem))
  | .syncGive h => some (o.semGive h, .nothing, some .join)
  | .join => some (o, .nothing, some (if o.joinSem.isSome then .joinArg else .store))
  | .joinArg => some (o, .nothing, some (.take o.joinSem))
  | .take h => (o.semTake ok h).map fun o => (o, .nothing, some (if ok then .store else .killArg))
  | .killArg => some (o, .nothing, some (.kill o.taskHandle))
  | .kill h => some (o, .kill h, if h = .null then none else some .store)
  | .store => some ({ o with taskHandle := .null }, .nothing, some .dropSync)
  | .dropSync => some (o, .nothing, some (if o.syncSem.isSome then .dropSyncArg else .dropJoin))
  | .dropSyncArg => some (o, .nothing, some (.dropSyncDelete o.syncSem))
  | .dropSyncDelete h => some (o.semDelete h, .nothing, some .dropSyncClear)
  | .dropSyncClear => some ({ o with syncSem := none }, .nothing, some .dropJoin)
  | .dropJoin => some (o, .nothing, some (if o.joinSem.isSome then .dropJoinArg else .locks))
  | .dropJoinArg => some (o, .nothing, some (.dropJoinDelete o.joinSem))
  | .dropJoinDelete h => some (o.semDelete h, .nothing, some .dropJoinClear)
  | .dropJoinClear => some ({ o with joinSem := none }, .nothing, some .locks)
  | .locks => some (o, .nothing, none)

inductive StartPc where
  /-- `task_handle_.compare_exchange_strong(expected, starting_flag)` -/
  | claim (notifyIfStarted : Bool)
  /-- `while (task_handle_.load() == starting_flag) taskYIELD()` -/
  | spin
  /-- `notify(true)`: `stop_requested_ = false` -/
  | notifyClear
  /-- `notify(true)`: `if (sync_sem_)` -/
  | notifySync
  | notifyArg
  | notifyGive (h : Option Nat)
  /-- `stop_requested_ = false`, by the winner -/
  | clearStop
  /-- `terminate_requested_ = false` -/
  | clearTerminate
  /-- `on_task_claimed(config)` -/
  | claimed
  /-- `task_handle_.store(nullptr)` after `on_task_claimed` failed -/
  | refuse
  /-- `sync_sem_ == nullptr` -/
  | sync
  | syncCreate
  | syncStore (h : Option Nat)
  | syncArg
  | syncReset (h : Option Nat)
  /-- `join_sem_ == nullptr` -/
  | join
  | joinCreate
  | joinStore (h : Option Nat)
  | joinArg
  | joinReset (h : Option Nat)
  /-- `!sync_sem_` -/
  | checkSync
  /-- `|| !join_sem_` -/
  | checkJoin
  /-- `xTaskCreatePinnedToCore(...)` -/
  | create
  /-- `task_handle_.store(new_handle)` -/
  | store (id : Nat)
  /-- `task_handle_.store(nullptr)` after an allocation failed; `reset()` follows -/
  | fail
  deriving DecidableEq

/-- A call of a member function, and where it stands. -/
inductive Call where
  | start (pc : StartPc)
  | reset (pc : ResetPc)
  deriving DecidableEq

/-- `ok`: `on_task_claimed` succeeds, and what is created can be created; `tasks` is the number of
tasks created so far. -/
def StartPc.step (ok : Bool) (tasks : Nat) (o : Object) :
    StartPc → Object × Effect × Option Call
  | .claim notifyIfStarted =>
    if o.taskHandle = .null then
      ({ o with taskHandle := .starting }, .nothing, some (.start .clearStop))
    else (o, .nothing, if notifyIfStarted then some (.start .spin) else none)
  | .spin =>
    (o, .nothing, some (.start (if o.taskHandle = .starting then .spin else .notifyClear)))
  | .notifyClear => ({ o with stopRequested := false }, .nothing, some (.start .notifySync))
  | .notifySync => (o, .nothing, if o.syncSem.isSome then some (.start .notifyArg) else none)
  | .notifyArg => (o, .nothing, some (.start (.notifyGive o.syncSem)))
  | .notifyGive h => (o.semGive h, .nothing, none)
  | .clearStop => ({ o with stopRequested := false }, .nothing, some (.start .clearTerminate))
  | .clearTerminate => ({ o with terminateRequested := false }, .nothing, some (.start .claimed))
  | .claimed => (o, .nothing, some (.start (if ok then .sync else .refuse)))
  | .refuse => ({ o with taskHandle := .null }, .nothing, none)
  | .sync => (o, .nothing, some (.start (if o.syncSem.isSome then .syncArg else .syncCreate)))
  | .syncCreate =>
    if ok then
      ({ o with nextSem := o.nextSem + 1 }, .nothing, some (.start (.syncStore (some o.nextSem))))
    else (o, .nothing, some (.start (.syncStore none)))
  | .syncStore h => ({ o with syncSem := h }, .nothing, some (.start .join))
  | .syncArg => (o, .nothing, some (.start (.syncReset o.syncSem)))
  | .syncReset h => (o.semReset h, .nothing, some (.start .join))
  | .join => (o, .nothing, some (.start (if o.joinSem.isSome then .joinArg else .joinCreate)))
  | .joinCreate =>
    if ok then
      ({ o with nextSem := o.nextSem + 1 }, .nothing, some (.start (.joinStore (some o.nextSem))))
    else (o, .nothing, some (.start (.joinStore none)))
  | .joinStore h => ({ o with joinSem := h }, .nothing, some (.start .checkSync))
  | .joinArg => (o, .nothing, some (.start (.joinReset o.joinSem)))
  | .joinReset h => (o.semReset h, .nothing, some (.start .checkSync))
  | .checkSync => (o, .nothing, some (.start (if o.syncSem.isSome then .checkJoin else .fail)))
  | .checkJoin => (o, .nothing, some (.start (if o.joinSem.isSome then .create else .fail)))
  | .create =>
    if ok then (o, .create, some (.start (.store tasks))) else (o, .nothing, some (.start .fail))
  | .store id => ({ o with taskHandle := .task id }, .nothing, none)
  | .fail => ({ o with taskHandle := .null }, .nothing, some (.reset .handle))

def Call.step (ok : Bool) (tasks : Nat) (o : Object) :
    Call → Option (Object × Effect × Option Call)
  | .start pc => some (pc.step ok tasks o)
  | .reset pc => (pc.step ok o).map fun r => (r.1, r.2.1, r.2.2.map .reset)

/-- The object, every task created for it, and the calls in progress. -/
structure State where
  object : Object
  tasks : List TaskPc
  calls : List Call
  deriving DecidableEq

def State.constructed : State := ⟨.constructed, [], []⟩

/-- A killed task is gone at once; a null handle names the caller, whose call ends with it; the
flag and the handle of a terminated task name no task. -/
def State.effect (s : State) : Effect → State
  | .nothing => s
  | .create => { s with tasks := s.tasks ++ [.acquire] }
  | .kill .null => s
  | .kill .starting => { s with object := s.object.misuse }
  | .kill (.task id) =>
    match s.tasks[id]? with
    | none => { s with object := s.object.misuse }
    | some .terminated => { s with object := s.object.misuse }
    | some _ => { s with tasks := s.tasks.set id .terminated }

inductive Entry where
  | start (notifyIfStarted : Bool)
  | reset
  deriving DecidableEq

def Entry.call : Entry → Call
  | .start notifyIfStarted => .start (.claim notifyIfStarted)
  | .reset => .reset .handle

inductive Label where
  | begin (e : Entry)
  /-- one step of the `i`th call -/
  | call (i : Nat) (ok : Bool)
  /-- one step of the task with number `id` -/
  | task (id : Nat) (ok : Bool)
  deriving DecidableEq

/-- A task may take its first step as soon as it is created, before the call that created it goes
on. -/
def State.next (s : State) : Label → Option State
  | .begin e => some { s with calls := s.calls ++ [e.call] }
  | .call i ok => do
    let c ← s.calls[i]?
    let (object, effect, c) ← c.step ok s.tasks.length s.object
    some (State.effect
      { s with object, calls := s.calls.take i ++ c.toList ++ s.calls.drop (i + 1) } effect)
  | .task id ok => do
    let pc ← s.tasks[id]?
    let (object, pc) ← pc.step ok s.object
    some { s with object, tasks := s.tasks.set id pc }

section inversion
variable (s s' : State)

theorem next_call (i : Nat) (ok : Bool) (h : s.next (.call i ok) = some s') :
    ∃ c object effect c', s.calls[i]? = some c ∧
      c.step ok s.tasks.length s.object = some (object, effect, c') ∧
      s' = State.effect { s with
        object, calls := s.calls.take i ++ c'.toList ++ s.calls.drop (i + 1) } effect := by
  simp only [State.next, Option.bind_eq_bind, Option.bind_eq_some_iff] at h
  obtain ⟨c, hc, ⟨object, effect, c'⟩, hr, h⟩ := h
  exact ⟨c, object, effect, c', hc, hr, (Option.some.inj h).symm⟩

theorem next_task (id : Nat) (ok : Bool) (h : s.next (.task id ok) = some s') :
    ∃ pc object pc', s.tasks[id]? = some pc ∧ pc.step ok s.object = some (object, pc') ∧
      s' = { s with object, tasks := s.tasks.set id pc' } := by
  simp only [State.next, Option.bind_eq_bind, Option.bind_eq_some_iff] at h
  obtain ⟨pc, hpc, ⟨object, pc'⟩, hr, h⟩ := h
  exact ⟨pc, object, pc', hpc, hr, (Option.some.inj h).symm⟩

end inversion

/-- A start, up to the creation of its task. -/
def State.starting : List Label := .begin (.start true) :: List.replicate 13 (.call 0 true)

/-- A task whose function returns at once, up to its end. -/
def State.finishing (id : Nat) : List Label := List.replicate 7 (.task id false)

end Espbase.EspTask
