import Mathlib.Algebra.Ring.Nat
import Mathlib.Data.List.Basic
import Mathlib.Tactic.SplitIfs

namespace Espbase.MainLoopTask

/-- A command of the main loop's queue: a step of the task under study, or one of another object. -/
inductive Command where
  | appLoopStep
  | other
  deriving DecidableEq

/-- The members of a `MainLoopTaskBase`, the queue of the main loop, and the timers and semaphores
the task makes. A handle is a number that is never given out twice. -/
structure Task where
  running : Bool
  stopRequested : Bool
  terminateRequested : Bool
  sequenceVersion : UInt32
  inflightCount : UInt32
  timerHandle : Option Nat
  joinSem : Option Nat
  queue : List Command
  /-- timers that will fire -/
  armed : List Nat
  /-- semaphores that hold their token -/
  tokens : List Nat
  deleted : List Nat
  nextHandle : Nat
  /-- a call got a deleted handle, or a semaphore call a null one -/
  misused : Bool
  deriving DecidableEq

namespace Task

/-- A constructed task; the queue may hold commands of other objects. -/
def constructed (commands : Nat) : Task :=
  ⟨false, false, false, 0, 0, none, none, List.replicate commands .other, [], [], [], 0, false⟩

/-- The task's own commands in the queue. -/
def queued (t : Task) : Nat := t.queue.count .appLoopStep

/-- `xQueueSend(queue_, &cmd, 0)`, which drops the command when the queue is full. -/
def push (capacity : Nat) (t : Task) (c : Command) : Task :=
  if t.queue.length < capacity then { t with queue := t.queue ++ [c] } else t

def fetchAdd (t : Task) : Task := { t with inflightCount := t.inflightCount + 1 }

def fetchSub (t : Task) : Task := { t with inflightCount := t.inflightCount - 1 }

def misuse (t : Task) : Task := { t with misused := true }

/-- `esp_timer_stop`, which refuses a null handle. -/
def timerStop (t : Task) : Option Nat → Task
  | none => t
  | some h => if h ∈ t.deleted then t.misuse else { t with armed := t.armed.filter (· ≠ h) }

/-- `esp_timer_start_once`, which refuses a null handle and an armed timer. -/
def timerStartOnce (t : Task) : Option Nat → Task
  | none => t
  | some h =>
    if h ∈ t.deleted then t.misuse
    else if h ∈ t.armed then t
    else { t with armed := h :: t.armed }

/-- `esp_timer_delete`. Stop and delete are each taken to prevent later dispatches here, so that a step that arms
the timer between the two does not outlive its deletion; where a component depends on the refusal of a running
timer the call refuses it (`YieldingTask.Task.timerDelete`, `Boot.Ota.Chip.timerDelete`, `Boot.Pm.Pended.run`). -/
def timerDelete (t : Task) : Option Nat → Task
  | none => t
  | some h =>
    if h ∈ t.deleted then t.misuse
    else { t with armed := t.armed.filter (· ≠ h), deleted := h :: t.deleted }

/-- `esp_timer_create(&timer_args, &timer_handle_)` -/
def timerCreate (t : Task) : Task :=
  { t with timerHandle := some t.nextHandle, nextHandle := t.nextHandle + 1 }

/-- `xSemaphoreGive` on a binary semaphore. -/
def semGive (t : Task) : Option Nat → Task
  | none => t.misuse
  | some h =>
    if h ∈ t.deleted then t.misuse
    else if h ∈ t.tokens then t
    else { t with tokens := h :: t.tokens }

/-- `vSemaphoreDelete` -/
def semDelete (t : Task) : Option Nat → Task
  | none => t.misuse
  | some h =>
    if h ∈ t.deleted then t.misuse
    else { t with tokens := t.tokens.filter (· ≠ h), deleted := h :: t.deleted }

/-- `xSemaphoreTake`: it gets the token (`ok`), or runs into the timeout. -/
def semTake (t : Task) (ok : Bool) : Option Nat → Option Task
  | none => some t.misuse
  | some h =>
    if h ∈ t.deleted then some t.misuse
    else if ok then
      if h ∈ t.tokens then some { t with tokens := t.tokens.filter (· ≠ h) } else none
    else some t

/-- The members of the object and the queue are the same. -/
structure SameMembers (t t' : Task) : Prop where
  running : t'.running = t.running
  stopRequested : t'.stopRequested = t.stopRequested
  terminateRequested : t'.terminateRequested = t.terminateRequested
  sequenceVersion : t'.sequenceVersion = t.sequenceVersion
  inflightCount : t'.inflightCount = t.inflightCount
  timerHandle : t'.timerHandle = t.timerHandle
  joinSem : t'.joinSem = t.joinSem
  queue : t'.queue = t.queue

theorem SameMembers.refl (t : Task) : SameMembers t t := ⟨rfl, rfl, rfl, rfl, rfl, rfl, rfl, rfl⟩

theorem misuse_same (t : Task) : SameMembers t t.misuse := ⟨rfl, rfl, rfl, rfl, rfl, rfl, rfl, rfl⟩

theorem timerStop_same (t : Task) (h : Option Nat) : SameMembers t (t.timerStop h) := by
  cases h with
  | none => exact .refl t
  | some h =>
    simp only [timerStop]
    split_ifs
    · exact t.misuse_same
    · constructor <;> rfl

theorem timerStartOnce_same (t : Task) (h : Option Nat) : SameMembers t (t.timerStartOnce h) := by
  cases h with
  | none => exact .refl t
  | some h =>
    simp only [timerStartOnce]
    split_ifs
    · exact t.misuse_same
    · constructor <;> rfl
    · constructor <;> rfl

theorem timerDelete_same (t : Task) (h : Option Nat) : SameMembers t (t.timerDelete h) := by
  cases h with
  | none => exact .refl t
  | some h =>
    simp only [timerDelete]
    split_ifs
    · exact t.misuse_same
    · constructor <;> rfl

theorem semGive_same (t : Task) (h : Option Nat) : SameMembers t (t.semGive h) := by
  cases h with
  | none => exact t.misuse_same
  | some h =>
    simp only [semGive]
    split_ifs
    · exact t.misuse_same
    · constructor <;> rfl
    · constructor <;> rfl

theorem semDelete_same (t : Task) (h : Option Nat) : SameMembers t (t.semDelete h) := by
  cases h with
  | none => exact t.misuse_same
  | some h =>
    simp only [semDelete]
    split_ifs
    · exact t.misuse_same
    · constructor <;> rfl

theorem semTake_same (t t' : Task) (ok : Bool) (h : Option Nat) (ht : t.semTake ok h = some t') :
    SameMembers t t' := by
  cases h with
  | none =>
    obtain rfl := Option.some.inj ht
    exact t.misuse_same
  | some h =>
    simp only [semTake] at ht
    split_ifs at ht <;> obtain rfl := Option.some.inj ht
    · exact t.misuse_same
    · constructor <;> rfl
    · exact .refl t

end Task

end Espbase.MainLoopTask
