import Mathlib.Tactic.SplitIfs

namespace Espbase.EspTask

/-- A `TaskHandle_t` as `task_handle_` holds it: null, the flag of a start in progress, or the
handle of the task that was created as number `id`. -/
inductive Handle where
  | null
  | starting
  | task (id : Nat)
  deriving DecidableEq

/-- The members of an `EspTaskBase`, and the state of the semaphores it makes. -/
structure Object where
  taskHandle : Handle
  syncSem : Option Nat
  joinSem : Option Nat
  stopRequested : Bool
  terminateRequested : Bool
  /-- semaphores that hold their token -/
  tokens : List Nat
  deleted : List Nat
  nextSem : Nat
  /-- a call got the handle of something deleted, or one that it must not get -/
  misused : Bool
  deriving DecidableEq

namespace Object

def constructed : Object := ⟨.null, none, none, false, false, [], [], 0, false⟩

def misuse (o : Object) : Object := { o with misused := true }

/-- `xSemaphoreGive` on a binary semaphore. -/
def semGive (o : Object) : Option Nat → Object
  | none => o.misuse
  | some h =>
    if h ∈ o.deleted then o.misuse
    else if h ∈ o.tokens then o
    else { o with tokens := h :: o.tokens }

/-- `xSemaphoreTake`: it gets the token (`ok`), or runs into the timeout. -/
def semTake (o : Object) (ok : Bool) : Option Nat → Option Object
  | none => some o.misuse
  | some h =>
    if h ∈ o.deleted then some o.misuse
    else if ok then
      if h ∈ o.tokens then some { o with tokens := o.tokens.filter (· ≠ h) } else none
    else some o

/-- `xQueueReset`: the token is gone. -/
def semReset (o : Object) : Option Nat → Object
  | none => o.misuse
  | some h =>
    if h ∈ o.deleted then o.misuse else { o with tokens := o.tokens.filter (· ≠ h) }

/-- `vSemaphoreDelete` -/
def semDelete (o : Object) : Option Nat → Object
  | none => o.misuse
  | some h =>
    if h ∈ o.deleted then o.misuse
    else { o with tokens := o.tokens.filter (· ≠ h), deleted := h :: o.deleted }

end Object

/-- A created task: its function, and then `terminate_from_task()`. -/
inductive TaskPc where
  /-- `acquire_pm_locks()` -/
  | acquire
  /-- the user's function, which may wait for a notification at any time -/
  | func
  /-- `wait_for_notification`: the read of `sync_sem_` -/
  | waitArg
  | wait (h : Option Nat)
  /-- `release_pm_locks()`, of the trampoline and of `terminate_from_task()` -/
  | release
  /-- `j_sem = join_sem_` -/
  | join
  /-- `if (j_sem) xSemaphoreGive(j_sem)` -/
  | give (jSem : Option Nat)
  /-- `task_handle_.store(nullptr)` -/
  | store
  /-- `vTaskDelete(nullptr)` -/
  | delete
  | terminated
  deriving DecidableEq

/-- `ok`: the function goes on to a wait; the wait gets its token. -/
def TaskPc.step (ok : Bool) (o : Object) : TaskPc → Option (Object × TaskPc)
  | .acquire => some (o, .func)
  | .func => some (o, if ok then .waitArg else .release)
  | .waitArg => some (o, .wait o.syncSem)
  | .wait h => (o.semTake ok h).map fun o => (o, .func)
  | .release => some (o, .join)
  | .join => some (o, .give o.joinSem)
  | .give jSem => some (if jSem.isSome then o.semGive jSem else o, .store)
  | .store => some ({ o with taskHandle := .null }, .delete)
  | .delete => some (o, .terminated)
  | .terminated => none

/-- The task no longer touches the object. -/
def TaskPc.Cleared : TaskPc → Prop
  | .delete => True
  | .terminated => True
  | _ => False

instance : DecidablePred TaskPc.Cleared := fun pc =>
  match pc with
  | .delete => .isTrue trivial
  | .terminated => .isTrue trivial
  | .acquire | .func | .waitArg | .wait _ | .release | .join | .give _ | .store => .isFalse id

end Espbase.EspTask
