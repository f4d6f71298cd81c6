import Espbase.Lib.Interleaving
import Mathlib.Tactic.SplitIfs

namespace Espbase.Emulated

open Espbase.Lib

structure AppCommand where
  /-- `instance`, a pointer -/
  object : Nat
  /-- a function pointer, 0 if it is null -/
  execute : Nat
  deriving DecidableEq

/-- Where the thread stands that the constructor starts. A critical section is one step. -/
inductive WorkerPc where
  /-- takes the mutex and evaluates the predicate of its wait -/
  | lock
  /-- waits on `cv_`, not notified -/
  | waiting
  | execute (cmd : AppCommand)
  /-- `busy_ = false` -/
  | clearBusy
  /-- `cv_idle_.notify_all()` -/
  | notifyIdle
  | stopped
  deriving DecidableEq

/-- A thread in `run_forever` or in `wait_idle`. -/
inductive CallerPc where
  | lock
  | waiting
  | returned
  deriving DecidableEq

inductive DestructorPc where
  | stop
  /-- `cv_.notify_all()` -/
  | notifyAll
  | join
  | finished
  deriving DecidableEq

structure MainLoop where
  queue : List AppCommand
  busy : Bool
  stopRequested : Bool
  worker : WorkerPc
  runForever : List CallerPc
  waitIdle : List CallerPc
  /-- the calls of `push_func` between their critical section and `cv_.notify_one()` -/
  notifying : Nat
  destructor : DestructorPc
  deriving DecidableEq

namespace MainLoop

def constructed : MainLoop := ⟨[], false, false, .lock, [], [], 0, .stop⟩

/-- A thread that waits on `cv_`. -/
inductive Waiter where
  | worker
  | runForever (i : Nat)
  deriving DecidableEq

def wake (s : MainLoop) : Waiter → Option MainLoop
  | .worker => if s.worker = .waiting then some { s with worker := .lock } else none
  | .runForever i =>
    if s.runForever[i]? = some .waiting then
      some { s with runForever := s.runForever.set i .lock }
    else none

/-- Nobody waits on `cv_`. -/
def Unattended (s : MainLoop) : Prop := s.worker ≠ .waiting ∧ .waiting ∉ s.runForever

instance (s : MainLoop) : Decidable s.Unattended := inferInstanceAs (Decidable (_ ∧ _))

def woken : CallerPc → CallerPc
  | .waiting => .lock
  | pc => pc

def step (s : MainLoop) : Option MainLoop :=
  match s.worker with
  | .lock =>
    match s.queue with
    | [] => some { s with worker := if s.stopRequested then .stopped else .waiting }
    | cmd :: queue => some { s with queue, busy := true, worker := .execute cmd }
  | .waiting => none
  | .execute _ => some { s with worker := .clearBusy }
  | .clearBusy => some { s with busy := false, worker := .notifyIdle }
  | .notifyIdle => some { s with waitIdle := s.waitIdle.map woken, worker := .lock }
  | .stopped => none

/-- The critical section of `push_func`. -/
def pushFunc (queueSize : Nat) (s : MainLoop) (cmd : AppCommand) : MainLoop :=
  if s.queue.length ≥ queueSize then s
  else { s with queue := s.queue ++ [cmd], notifying := s.notifying + 1 }

/-- `cv_.notify_one()` wakes one thread that waits, if there is any. -/
def notifyOne (s : MainLoop) : Option Waiter → Option MainLoop
  | some w => s.wake w
  | none => if s.Unattended then some s else none

/-- A caller takes the mutex, and waits unless the predicate holds. -/
def CallerPc.check (predicate : Bool) : CallerPc → Option CallerPc
  | .lock => some (if predicate then .returned else .waiting)
  | _ => none

def destroy (s : MainLoop) : Option MainLoop :=
  match s.destructor with
  | .stop => some { s with stopRequested := true, destructor := .notifyAll }
  | .notifyAll =>
    some { s with
      worker := if s.worker = .waiting then .lock else s.worker
      runForever := s.runForever.map woken
      destructor := .join }
  | .join => if s.worker = .stopped then some { s with destructor := .finished } else none
  | .finished => none

inductive Label where
  | push (cmd : AppCommand)
  /-- a push notifies the given thread, or none as no thread waits -/
  | notifyOne (w : Option Waiter)
  | worker
  /-- a thread calls `run_forever` -/
  | beginRun
  | run (i : Nat)
  /-- a thread calls `wait_idle` -/
  | beginIdle
  | idle (i : Nat)
  | destroy
  /-- a wait ends without a notification -/
  | spurious (w : Waiter)
  | spuriousIdle (i : Nat)

def next (queueSize : Nat) (s : MainLoop) : Label → Option MainLoop
  | .push cmd => some (s.pushFunc queueSize cmd)
  | .notifyOne w =>
    if 0 < s.notifying then
      (s.notifyOne w).map fun s => { s with notifying := s.notifying - 1 }
    else none
  | .worker => s.step
  | .beginRun => some { s with runForever := s.runForever ++ [.lock] }
  | .run i => do
    let pc ← s.runForever[i]?
    let pc ← CallerPc.check s.stopRequested pc
    some { s with runForever := s.runForever.set i pc }
  | .beginIdle => some { s with waitIdle := s.waitIdle ++ [.lock] }
  | .idle i => do
    let pc ← s.waitIdle[i]?
    let pc ← CallerPc.check (s.queue.isEmpty && !s.busy) pc
    some { s with waitIdle := s.waitIdle.set i pc }
  | .destroy => s.destroy
  | .spurious w => s.wake w
  | .spuriousIdle i =>
    if s.waitIdle[i]? = some .waiting then some { s with waitIdle := s.waitIdle.set i .lock } else none

/-- The worker is not left waiting beside a command that no push is to notify it of. -/
def Served (s : MainLoop) : Prop := s.queue ≠ [] → s.notifying = 0 → s.worker ≠ .waiting

/-- A notification of a push goes to a thread in `run_forever`. -/
def Label.passes : Label → Bool
  | .notifyOne (some (.runForever _)) => true
  | _ => false

/-- The last notification for the commands in the queue does not pass by the waiting worker. -/
def Delivered (s : MainLoop) (l : Label) : Prop :=
  l.passes = true → s.worker = .waiting → s.queue = [] ∨ 1 < s.notifying

instance (s : MainLoop) (l : Label) : Decidable (s.Delivered l) := inferInstanceAs (Decidable (_ → _))

section steps
variable (s s' : MainLoop)

theorem wake_worker (h : s.wake .worker = some s') : s' = { s with worker := .lock } := by
  simp only [wake] at h
  split_ifs at h
  exact (Option.some.inj h).symm

theorem wake_runForever (i : Nat) (h : s.wake (.runForever i) = some s') :
    s' = { s with runForever := s.runForever.set i .lock } := by
  simp only [wake] at h
  split_ifs at h
  exact (Option.some.inj h).symm

/-- A thread that wakes leaves the queue and the pushes as they are. -/
theorem wake_served (w : Waiter) (hs : s.Served) (h : s.wake w = some s') : s'.Served := by
  cases w with
  | worker =>
    rw [wake_worker s s' h]
    intro _ _
    exact nofun
  | runForever i =>
    rw [wake_runForever s s' i h]
    exact hs

theorem pushFunc_served (queueSize : Nat) (cmd : AppCommand) (hs : s.Served) :
    (s.pushFunc queueSize cmd).Served := by
  unfold pushFunc
  split_ifs
  · exact hs
  · intro _ hn
    cases hn

/-- The worker waits only beside an empty queue. -/
theorem step_served (h : s.step = some s') : s'.Served := by
  unfold step at h
  cases hw : s.worker with
  | lock =>
    cases hq : s.queue with
    | nil =>
      simp only [hw, hq, Option.some.injEq] at h
      rw [← h]
      intro hne
      exact absurd rfl hne
    | cons cmd queue =>
      simp only [hw, hq, Option.some.injEq] at h
      rw [← h]
      intro _ _
      exact nofun
  | waiting =>
    rw [hw] at h
    cases h
  | stopped =>
    rw [hw] at h
    cases h
  | _ =>
    simp only [hw, Option.some.injEq] at h
    rw [← h]
    intro _ _
    exact nofun

theorem destroy_served (hs : s.Served) (h : s.destroy = some s') : s'.Served := by
  unfold destroy at h
  cases hd : s.destructor with
  | stop =>
    simp only [hd, Option.some.injEq] at h
    rw [← h]
    exact hs
  | notifyAll =>
    simp only [hd, Option.some.injEq] at h
    rw [← h]
    intro hq hn
    dsimp only
    split_ifs with hw
    · exact nofun
    · exact hw
  | join =>
    simp only [hd] at h
    split_ifs at h
    rw [← Option.some.inj h]
    exact hs
  | finished =>
    rw [hd] at h
    cases h

/-- One notification leaves the worker served, if and only if it does not pass it by. -/
theorem notifyOne_served (w : Option Waiter) (hn : 0 < s.notifying)
    (h : s.notifyOne w = some s') :
    { s' with notifying := s'.notifying - 1 }.Served ↔ s.Delivered (.notifyOne w) := by
  cases w with
  | none =>
    unfold notifyOne at h
    dsimp only at h
    split_ifs at h with hu
    obtain rfl := Option.some.inj h
    exact ⟨fun _ => nofun, fun _ _ _ => hu.1⟩
  | some w =>
    cases w with
    | worker =>
      rw [wake_worker s s' h]
      exact ⟨fun _ => nofun, fun _ _ _ => nofun⟩
    | runForever i =>
      rw [wake_runForever s s' i h]
      constructor
      · intro hserved _ hw
        by_contra hc
        rw [not_or] at hc
        exact hserved hc.1 (by dsimp only; omega) hw
      · intro hd hq hlast hw
        dsimp only at hq hlast hw
        rcases hd rfl hw with he | he
        · exact hq he
        · omega

/-- Of all steps only a notification that passes the worker by leaves it unserved. -/
theorem served_next (queueSize : Nat) (l : Label) (hs : s.Served) (h : s.next queueSize l = some s') :
    s'.Served ↔ s.Delivered l := by
  have hkept (hl : l.passes = false) (hs' : s'.Served) : s'.Served ↔ s.Delivered l := by
    refine ⟨fun _ hp => ?_, fun _ => hs'⟩
    cases hl.symm.trans hp
  cases l with
  | push cmd =>
    apply hkept rfl
    rw [← Option.some.inj h]
    exact pushFunc_served s queueSize cmd hs
  | notifyOne w =>
    simp only [next] at h
    split_ifs at h with hn
    obtain ⟨t, ht, rfl⟩ := Option.map_eq_some_iff.mp h
    exact notifyOne_served s t w hn ht
  | worker => exact hkept rfl (step_served s s' h)
  | beginRun =>
    apply hkept rfl
    rw [← Option.some.inj h]
    exact hs
  | run i =>
    apply hkept rfl
    simp only [next, Option.bind_eq_bind, Option.bind_eq_some_iff, Option.some.injEq] at h
    obtain ⟨pc, -, pc', -, rfl⟩ := h
    exact hs
  | beginIdle =>
    apply hkept rfl
    rw [← Option.some.inj h]
    exact hs
  | idle i =>
    apply hkept rfl
    simp only [next, Option.bind_eq_bind, Option.bind_eq_some_iff, Option.some.injEq] at h
    obtain ⟨pc, -, pc', -, rfl⟩ := h
    exact hs
  | destroy => exact hkept rfl (destroy_served s s' hs h)
  | spurious w => exact hkept rfl (wake_served s s' w hs h)
  | spuriousIdle i =>
    apply hkept rfl
    simp only [next] at h
    split_ifs at h
    rw [← Option.some.inj h]
    exact hs

end steps

/-- In a run whose notifications do not pass the waiting worker by, it never waits beside a command that no push
is to notify it of. -/
theorem worker_served (queueSize : Nat) (s : MainLoop)
    (run : Steps (next queueSize) Delivered constructed s) :
    s.queue ≠ [] → s.notifying = 0 → s.worker ≠ .waiting := by
  have hstart : constructed.Served := by
    intro hq
    exact absurd rfl hq
  have h : s.Served := run.invariant _ _ Served _ _ hstart fun t l t' ht hd hn =>
    (served_next t t' queueSize l ht hn).mpr hd
  exact h

/-- Two pushes beside a thread in `run_forever`: the second notification is the worker's. -/
def delivering : List Label :=
  [.worker, .beginRun, .run 0, .push ⟨1, 1⟩, .push ⟨2, 1⟩, .notifyOne (some (.runForever 0)), .run 0,
    .notifyOne (some .worker)]

theorem worker_served_delivering :
    ∃ s, exec (guarded (next 128) Delivered) constructed delivering = some s ∧ s.queue ≠ [] ∧
      s.notifying = 0 ∧ s.worker ≠ .waiting := by
  refine ⟨_, rfl, nofun, rfl, ?_⟩
  exact worker_served 128 _ (steps_of_guarded (next 128) Delivered constructed _ delivering rfl) nofun rfl

/-- The worker and a thread in `run_forever` wait; the notification of a push wakes the latter. -/
def passing : List Label :=
  [.worker, .beginRun, .run 0, .push ⟨1, 1⟩, .notifyOne (some (.runForever 0)), .run 0]

theorem worker_left_waiting :
    ∃ s, exec (next 128) constructed passing = some s ∧ s.queue ≠ [] ∧ s.notifying = 0 ∧
      s.worker = .waiting :=
  ⟨_, rfl, nofun, rfl, rfl⟩

end MainLoop

end Espbase.Emulated
