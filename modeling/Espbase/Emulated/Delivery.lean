import Espbase.Emulated.StdlibMainLoop
import Espbase.Lib.Fifo

namespace Espbase.Emulated

open Espbase.Lib

/-- The worker does not call a null pointer. -/
def AppCommand.called (cmd : AppCommand) : Bool := cmd.execute ≠ 0

/-- What is recorded of a run. -/
structure Record where
  history : Fifo AppCommand
  /-- the commands whose function has been called and has returned -/
  executed : List AppCommand
  deriving DecidableEq

def Record.next (queueSize : Nat) (r : Record) (s : MainLoop) : MainLoop.Label → Record
  | .push cmd =>
    if s.queue.length ≥ queueSize then { r with history := { r.history with lost := r.history.lost ++ [cmd] } }
    else { r with history := { r.history with entered := r.history.entered ++ [cmd] } }
  | .worker =>
    match s.worker with
    | .lock => { r with history := { r.history with taken := r.history.taken ++ s.queue.head?.toList } }
    | .execute cmd => { r with executed := r.executed ++ [cmd].filter AppCommand.called }
    | _ => r
  | _ => r

structure Recorded where
  loop : MainLoop
  record : Record
  deriving DecidableEq

namespace Recorded

def next (queueSize : Nat) (t : Recorded) (l : MainLoop.Label) : Option Recorded :=
  (t.loop.next queueSize l).map fun s => ⟨s, t.record.next queueSize t.loop l⟩

def start : Recorded := ⟨.constructed, ⟨.empty, []⟩⟩

end Recorded

/-- The command that the worker has taken and not called. -/
def WorkerPc.command : WorkerPc → List AppCommand
  | .execute cmd => [cmd]
  | _ => []

def WorkerPc.busy : WorkerPc → Bool
  | .execute _ => true
  | .clearBusy => true
  | _ => false

/-- The worker will notify those that wait for it to be idle. -/
def WorkerPc.notifies : WorkerPc → Bool
  | .notifyIdle => true
  | pc => pc.busy

namespace MainLoop

section steps
variable (s s' : MainLoop)

/-- One step of the worker, by where it stands. -/
theorem step_cases (h : s.step = some s') :
    (s.worker = .lock ∧ s.queue = [] ∧ s' = { s with worker := if s.stopRequested then .stopped else .waiting }) ∨
    (∃ cmd queue, s.worker = .lock ∧ s.queue = cmd :: queue ∧
      s' = { s with queue, busy := true, worker := .execute cmd }) ∨
    (∃ cmd, s.worker = .execute cmd ∧ s' = { s with worker := .clearBusy }) ∨
    (s.worker = .clearBusy ∧ s' = { s with busy := false, worker := .notifyIdle }) ∨
    (s.worker = .notifyIdle ∧ s' = { s with waitIdle := s.waitIdle.map woken, worker := .lock }) := by
  unfold step at h
  cases hw : s.worker with
  | lock =>
    cases hq : s.queue with
    | nil =>
      simp only [hw, hq, Option.some.injEq] at h
      exact .inl ⟨rfl, rfl, hq ▸ h.symm⟩
    | cons cmd queue =>
      simp only [hw, hq, Option.some.injEq] at h
      exact .inr (.inl ⟨cmd, queue, rfl, rfl, h.symm⟩)
  | execute cmd =>
    simp only [hw, Option.some.injEq] at h
    exact .inr (.inr (.inl ⟨cmd, rfl, h.symm⟩))
  | clearBusy =>
    simp only [hw, Option.some.injEq] at h
    exact .inr (.inr (.inr (.inl ⟨rfl, h.symm⟩)))
  | notifyIdle =>
    simp only [hw, Option.some.injEq] at h
    exact .inr (.inr (.inr (.inr ⟨rfl, h.symm⟩)))
  | waiting | stopped =>
    rw [hw] at h
    cases h

/-- What the steps of all others than the worker leave, apart from pushes. -/
structure Quiet (s s' : MainLoop) : Prop where
  queue : s'.queue = s.queue
  busy : s'.busy = s.busy
  worker : s'.worker = s.worker ∨ s.worker = .waiting ∧ s'.worker = .lock
  idle : .waiting ∈ s'.waitIdle → .waiting ∈ s.waitIdle ∨ s.queue ≠ [] ∨ s.busy = true

theorem wake_quiet (w : Waiter) (h : s.wake w = some s') : Quiet s s' := by
  cases w with
  | worker =>
    have hw : s.worker = .waiting := by
      simp only [wake] at h
      split_ifs at h with hw
      exact hw
    rw [wake_worker s s' h]
    exact ⟨rfl, rfl, .inr ⟨hw, rfl⟩, .inl⟩
  | runForever i =>
    rw [wake_runForever s s' i h]
    exact ⟨rfl, rfl, .inl rfl, .inl⟩

theorem destroy_quiet (h : s.destroy = some s') : Quiet s s' := by
  unfold destroy at h
  cases hd : s.destructor with
  | stop =>
    simp only [hd, Option.some.injEq] at h
    rw [← h]
    exact ⟨rfl, rfl, .inl rfl, .inl⟩
  | notifyAll =>
    simp only [hd, Option.some.injEq] at h
    rw [← h]
    refine ⟨rfl, rfl, ?_, .inl⟩
    dsimp only
    split_ifs with hw
    · exact .inr ⟨hw, rfl⟩
    · exact .inl rfl
  | join =>
    simp only [hd] at h
    split_ifs at h
    rw [← Option.some.inj h]
    exact ⟨rfl, rfl, .inl rfl, .inl⟩
  | finished =>
    rw [hd] at h
    cases h

theorem check_idle (i : Nat) (h : s.next queueSize (.idle i) = some s') :
    s.waitIdle[i]? = some .lock ∧ s' = { s with
      waitIdle := s.waitIdle.set i (if s.queue.isEmpty && !s.busy then .returned else .waiting) } := by
  simp only [next, Option.bind_eq_bind, Option.bind_eq_some_iff, Option.some.injEq] at h
  obtain ⟨pc, hpc, pc', hcheck, rfl⟩ := h
  cases pc with
  | lock =>
    rw [← Option.some.inj hcheck]
    exact ⟨hpc, rfl⟩
  | waiting | returned => cases hcheck

/-- The steps of all others than the worker, apart from pushes. -/
theorem next_quiet (queueSize : Nat) (l : Label) (hpush : ∀ cmd, l ≠ .push cmd) (hworker : l ≠ .worker)
    (h : s.next queueSize l = some s') : Quiet s s' := by
  cases l with
  | push cmd => exact absurd rfl (hpush cmd)
  | worker => exact absurd rfl hworker
  | notifyOne w =>
    simp only [next] at h
    split_ifs at h with hn
    obtain ⟨t, ht, rfl⟩ := Option.map_eq_some_iff.mp h
    have hq : Quiet s t := by
      cases w with
      | some w => exact wake_quiet s t w ht
      | none =>
        simp only [notifyOne] at ht
        split_ifs at ht
        obtain rfl := Option.some.inj ht
        exact ⟨rfl, rfl, .inl rfl, .inl⟩
    exact ⟨hq.queue, hq.busy, hq.worker, hq.idle⟩
  | beginRun =>
    rw [← Option.some.inj h]
    exact ⟨rfl, rfl, .inl rfl, .inl⟩
  | run i =>
    simp only [next, Option.bind_eq_bind, Option.bind_eq_some_iff, Option.some.injEq] at h
    obtain ⟨pc, -, pc', -, rfl⟩ := h
    exact ⟨rfl, rfl, .inl rfl, .inl⟩
  | beginIdle =>
    rw [← Option.some.inj h]
    refine ⟨rfl, rfl, .inl rfl, fun hm => .inl ?_⟩
    simpa using hm
  | idle i =>
    obtain ⟨-, rfl⟩ := check_idle s s' i h
    refine ⟨rfl, rfl, .inl rfl, fun hm => ?_⟩
    rcases List.mem_or_eq_of_mem_set hm with hm | hm
    · exact .inl hm
    · right
      cases hq : s.queue with
      | nil => cases hb : s.busy with
        | false => simp [hq, hb] at hm
        | true => exact .inr rfl
      | cons cmd queue => exact .inl (List.cons_ne_nil _ _)
  | destroy => exact destroy_quiet s s' h
  | spurious w => exact wake_quiet s s' w h
  | spuriousIdle i =>
    simp only [next] at h
    split_ifs at h
    rw [← Option.some.inj h]
    refine ⟨rfl, rfl, .inl rfl, fun hm => .inl ?_⟩
    rcases List.mem_or_eq_of_mem_set hm with hm | hm
    · exact hm
    · cases hm

theorem next_destructor (queueSize : Nat) (l : Label) (hl : l ≠ .destroy) (h : s.next queueSize l = some s') :
    s'.destructor = s.destructor ∧ s'.stopRequested = s.stopRequested := by
  have hwake (w : Waiter) (t : MainLoop) (ht : s.wake w = some t) :
      t.destructor = s.destructor ∧ t.stopRequested = s.stopRequested := by
    cases w with
    | worker =>
      rw [wake_worker s t ht]
      exact ⟨rfl, rfl⟩
    | runForever i =>
      rw [wake_runForever s t i ht]
      exact ⟨rfl, rfl⟩
  cases l with
  | push cmd =>
    rw [← Option.some.inj h, pushFunc]
    split_ifs <;> exact ⟨rfl, rfl⟩
  | notifyOne w =>
    simp only [next] at h
    split_ifs at h
    obtain ⟨t, ht, rfl⟩ := Option.map_eq_some_iff.mp h
    cases w with
    | some w => exact hwake w t ht
    | none =>
      simp only [notifyOne] at ht
      split_ifs at ht
      obtain rfl := Option.some.inj ht
      exact ⟨rfl, rfl⟩
  | worker =>
    rcases step_cases s s' h with ⟨-, -, rfl⟩ | ⟨_, _, -, -, rfl⟩ | ⟨_, -, rfl⟩ | ⟨-, rfl⟩ | ⟨-, rfl⟩ <;>
      exact ⟨rfl, rfl⟩
  | beginRun | beginIdle =>
    rw [← Option.some.inj h]
    exact ⟨rfl, rfl⟩
  | run i | idle i =>
    simp only [next, Option.bind_eq_bind, Option.bind_eq_some_iff, Option.some.injEq] at h
    obtain ⟨pc, -, pc', -, rfl⟩ := h
    exact ⟨rfl, rfl⟩
  | destroy => exact absurd rfl hl
  | spurious w => exact hwake w s' h
  | spuriousIdle i =>
    simp only [next] at h
    split_ifs at h
    rw [← Option.some.inj h]
    exact ⟨rfl, rfl⟩

end steps

end MainLoop

/-- What holds of the commands, and of those that wait for them, in every run. -/
structure Delivering (queueSize : Nat) (t : Recorded) : Prop where
  fifo : t.record.history.entered = t.record.history.taken ++ t.loop.queue
  bound : t.loop.queue.length ≤ queueSize
  executed : t.record.history.taken.filter AppCommand.called =
    t.record.executed ++ t.loop.worker.command.filter AppCommand.called
  busy : t.loop.busy = t.loop.worker.busy
  idle : .waiting ∈ t.loop.waitIdle → t.loop.queue ≠ [] ∨ t.loop.worker.notifies = true

namespace Recorded

theorem next_eq (queueSize : Nat) (t t' : Recorded) (l : MainLoop.Label) (h : t.next queueSize l = some t') :
    t.loop.next queueSize l = some t'.loop ∧ t'.record = t.record.next queueSize t.loop l := by
  obtain ⟨s, hs, rfl⟩ := Option.map_eq_some_iff.mp h
  exact ⟨hs, rfl⟩

section delivering
variable (queueSize : Nat) (t t' : Recorded) (ht : Delivering queueSize t)
include ht

theorem push_delivering (cmd : AppCommand) (h : t.next queueSize (.push cmd) = some t') :
    Delivering queueSize t' := by
  obtain ⟨loop, record⟩ := t'
  obtain ⟨hs, rfl⟩ := next_eq queueSize t _ _ h
  rw [MainLoop.next, Option.some.injEq, MainLoop.pushFunc] at hs
  rw [Record.next]
  split_ifs at hs ⊢ with hfull
  · obtain rfl := hs
    exact ⟨ht.fifo, ht.bound, ht.executed, ht.busy, ht.idle⟩
  · obtain rfl := hs
    refine ⟨?_, ?_, ht.executed, ht.busy, fun _ => .inl (by simp)⟩
    · dsimp only
      rw [ht.fifo, List.append_assoc]
    · rw [List.length_append]
      exact Nat.lt_of_not_le hfull

theorem quiet_delivering (hq : MainLoop.Quiet t.loop t'.loop) (hr : t'.record = t.record) :
    Delivering queueSize t' := by
  have hcommand : t'.loop.worker.command = t.loop.worker.command := by
    rcases hq.worker with hw | ⟨hw, hw'⟩
    · rw [hw]
    · rw [hw, hw']
      rfl
  have hbusy : t'.loop.worker.busy = t.loop.worker.busy := by
    rcases hq.worker with hw | ⟨hw, hw'⟩
    · rw [hw]
    · rw [hw, hw']
      rfl
  have hnotifies : t'.loop.worker.notifies = t.loop.worker.notifies := by
    rcases hq.worker with hw | ⟨hw, hw'⟩
    · rw [hw]
    · rw [hw, hw']
      rfl
  refine ⟨?_, ?_, ?_, ?_, fun hm => ?_⟩
  · rw [hr, hq.queue]
    exact ht.fifo
  · rw [hq.queue]
    exact ht.bound
  · rw [hr, hcommand]
    exact ht.executed
  · rw [hq.busy, hbusy]
    exact ht.busy
  · rw [hq.queue, hnotifies]
    rcases hq.idle hm with hm | hm | hb
    · exact ht.idle hm
    · exact .inl hm
    · right
      have hb : t.loop.worker.busy = true := ht.busy.symm.trans hb
      cases hw : t.loop.worker <;> rw [hw] at hb <;> first | rfl | cases hb

theorem worker_delivering (h : t.next queueSize .worker = some t') : Delivering queueSize t' := by
  obtain ⟨loop, record⟩ := t'
  obtain ⟨hs, rfl⟩ := next_eq queueSize t _ _ h
  have hexecuted := ht.executed
  have hbusy := ht.busy
  have hidle := ht.idle
  rcases MainLoop.step_cases t.loop loop hs with ⟨hw, hq, rfl⟩ | ⟨cmd, queue, hw, hq, rfl⟩ | ⟨cmd, hw, rfl⟩ |
    ⟨hw, rfl⟩ | ⟨hw, rfl⟩
  · rw [hw] at hexecuted hbusy hidle
    have hr : t.record.next queueSize t.loop .worker = t.record := by simp [Record.next, hw, hq]
    rw [hr]
    refine ⟨ht.fifo, ht.bound, ?_, ?_, fun hm => ?_⟩
    · dsimp only
      split_ifs <;> exact hexecuted
    · dsimp only
      split_ifs <;> exact hbusy
    · rcases hidle hm with hne | hne
      · exact absurd hq hne
      · cases hne
  · rw [hw] at hexecuted
    simp only [Record.next, hw, hq, List.head?_cons, Option.toList_some]
    refine ⟨?_, ?_, ?_, rfl, fun _ => .inr rfl⟩
    · rw [ht.fifo, hq]
      simp
    · have hb := ht.bound
      rw [hq, List.length_cons] at hb
      exact Nat.le_of_succ_le hb
    · rw [List.filter_append, hexecuted]
      simp [WorkerPc.command]
  · rw [hw] at hexecuted hbusy
    simp only [Record.next, hw]
    refine ⟨ht.fifo, ht.bound, ?_, hbusy, fun _ => .inr rfl⟩
    simpa [WorkerPc.command] using hexecuted
  · rw [hw] at hexecuted
    simp only [Record.next, hw]
    exact ⟨ht.fifo, ht.bound, hexecuted, rfl, fun _ => .inr rfl⟩
  · rw [hw] at hexecuted hbusy
    simp only [Record.next, hw]
    refine ⟨ht.fifo, ht.bound, hexecuted, hbusy, fun hm => ?_⟩
    -- all that waited have been woken
    obtain ⟨pc, -, hpc⟩ := List.mem_map.mp hm
    cases pc <;> cases hpc

theorem delivering_next (l : MainLoop.Label) (h : t.next queueSize l = some t') : Delivering queueSize t' := by
  by_cases hpush : ∃ cmd, l = .push cmd
  · obtain ⟨cmd, rfl⟩ := hpush
    exact push_delivering queueSize t t' ht cmd h
  by_cases hworker : l = .worker
  · subst hworker
    exact worker_delivering queueSize t t' ht h
  obtain ⟨hs, hr⟩ := next_eq queueSize t t' l h
  have hpush : ∀ cmd, l ≠ .push cmd := fun cmd hl => hpush ⟨cmd, hl⟩
  refine quiet_delivering queueSize t t' ht (MainLoop.next_quiet _ _ queueSize l hpush hworker hs) ?_
  rw [hr]
  cases l with
  | push cmd => exact absurd rfl (hpush cmd)
  | worker => exact absurd rfl hworker
  | _ => rfl

end delivering

theorem start_delivering (queueSize : Nat) : Delivering queueSize start :=
  ⟨rfl, Nat.zero_le _, rfl, rfl, fun hm => absurd hm (List.not_mem_nil)⟩

/-- Where the worker has nothing to do, all that has entered has been executed. -/
theorem executed_all (t : Recorded) (ht : Delivering queueSize t) (hq : t.loop.queue = [])
    (hw : t.loop.worker.command = []) :
    t.record.executed = t.record.history.entered.filter AppCommand.called := by
  rw [ht.fifo, hq, List.append_nil, ht.executed, hw, List.filter_nil, List.append_nil]

end Recorded

def WorkerPc.rest : WorkerPc → Nat
  | .execute _ => 3
  | .clearBusy => 2
  | .notifyIdle => 1
  | _ => 0

/-- The steps that the worker takes until it has nothing to do. -/
def MainLoop.work (s : MainLoop) : Nat := 4 * s.queue.length + s.worker.rest

def CallerPc.pending : CallerPc → Bool
  | .returned => false
  | _ => true

/-- The `i`th call of `wait_idle` has not returned. -/
def MainLoop.waits (s : MainLoop) (i : Nat) : Bool := s.waitIdle[i]?.any CallerPc.pending

/-- What the worker leaves as it is. -/
structure Settles (t t' : Recorded) : Prop where
  entered : t'.record.history.entered = t.record.history.entered
  destructor : t'.loop.destructor = t.loop.destructor
  idle : ∀ i, t.loop.waits i = true → t'.loop.waits i = true

namespace Recorded

section settles
variable (queueSize : Nat)

theorem woken_waits (s : MainLoop) (i : Nat) (h : s.waits i = true) :
    ({ s with waitIdle := s.waitIdle.map MainLoop.woken, worker := .lock } : MainLoop).waits i = true := by
  obtain ⟨pc, hpc, hp⟩ := (Option.any_eq_true _ _).mp h
  rw [MainLoop.waits, List.getElem?_map, hpc]
  cases pc with
  | lock | waiting => rfl
  | returned => cases hp

/-- A worker that neither waits nor has stopped takes a step as long as there is work. -/
theorem worker_settles (t : Recorded) (hwaits : t.loop.worker ≠ .waiting) (hstopped : t.loop.worker ≠ .stopped)
    (n : Nat) (hn : t.loop.work = n + 1) :
    ∃ t', t.next queueSize .worker = some t' ∧ t'.loop.worker ≠ .waiting ∧ t'.loop.worker ≠ .stopped ∧
      t'.loop.work = n ∧ Settles t t' := by
  have hnext (s : MainLoop) (hs : t.loop.step = some s) :
      t.next queueSize .worker = some ⟨s, t.record.next queueSize t.loop .worker⟩ := by
    change (t.loop.step).map _ = _
    rw [hs]
    rfl
  have hentered : (t.record.next queueSize t.loop .worker).history.entered = t.record.history.entered := by
    rw [Record.next]
    split <;> rfl
  unfold MainLoop.work at hn
  cases hw : t.loop.worker with
  | lock =>
    cases hq : t.loop.queue with
    | nil =>
      rw [hw, hq] at hn
      cases hn
    | cons cmd queue =>
      rw [hw, hq] at hn
      have hs : t.loop.step = some { t.loop with queue, busy := true, worker := .execute cmd } := by
        simp only [MainLoop.step, hw, hq]
      refine ⟨_, hnext _ hs, nofun, nofun, ?_, hentered, rfl, fun _ => id⟩
      simp only [List.length_cons, WorkerPc.rest] at hn
      simp only [MainLoop.work, WorkerPc.rest]
      omega
  | execute cmd =>
    rw [hw] at hn
    have hs : t.loop.step = some { t.loop with worker := .clearBusy } := by simp only [MainLoop.step, hw]
    exact ⟨_, hnext _ hs, nofun, nofun, Nat.succ.inj hn, hentered, rfl, fun _ => id⟩
  | clearBusy =>
    rw [hw] at hn
    have hs : t.loop.step = some { t.loop with busy := false, worker := .notifyIdle } := by
      simp only [MainLoop.step, hw]
    exact ⟨_, hnext _ hs, nofun, nofun, Nat.succ.inj hn, hentered, rfl, fun _ => id⟩
  | notifyIdle =>
    rw [hw] at hn
    have hs : t.loop.step = some { t.loop with waitIdle := t.loop.waitIdle.map MainLoop.woken, worker := .lock } := by
      simp only [MainLoop.step, hw]
    exact ⟨_, hnext _ hs, nofun, nofun, Nat.succ.inj hn, hentered, rfl, woken_waits t.loop⟩
  | waiting => exact absurd hw hwaits
  | stopped => exact absurd hw hstopped

/-- It gets through all its work. -/
theorem drain (n : Nat) (t : Recorded) (hwaits : t.loop.worker ≠ .waiting) (hstopped : t.loop.worker ≠ .stopped)
    (hn : t.loop.work = n) :
    ∃ t', exec (next queueSize) t (List.replicate n .worker) = some t' ∧ t'.loop.queue = [] ∧
      t'.loop.worker = .lock ∧ Settles t t' := by
  induction n generalizing t with
  | zero =>
    unfold MainLoop.work at hn
    have hq : t.loop.queue = [] := List.eq_nil_of_length_eq_zero (by omega)
    refine ⟨t, rfl, hq, ?_, ⟨rfl, rfl, fun _ => id⟩⟩
    cases hw : t.loop.worker with
    | lock => rfl
    | waiting => exact absurd hw hwaits
    | stopped => exact absurd hw hstopped
    | execute cmd | clearBusy | notifyIdle =>
      rw [hw, WorkerPc.rest] at hn
      omega
  | succ n ih =>
    obtain ⟨t', hstep, hwaits', hstopped', hn', hsettles⟩ := worker_settles queueSize t hwaits hstopped n hn
    obtain ⟨t'', hexec, hq, hw, hsettles'⟩ := ih t' hwaits' hstopped' hn'
    refine ⟨t'', ?_, hq, hw, hsettles'.entered.trans hsettles.entered,
      hsettles'.destructor.trans hsettles.destructor, fun i hi => hsettles'.idle i (hsettles.idle i hi)⟩
    rw [List.replicate_succ, exec_cons, hstep]
    exact hexec

end settles

end Recorded

/-- Where the destructor is, and where the worker. -/
structure Ending (s : MainLoop) : Prop where
  stopRequested : s.stopRequested = true ↔ s.destructor ≠ .stop
  stopped : s.worker = .stopped → s.stopRequested = true
  joining : s.destructor = .join → s.worker ≠ .waiting
  finished : s.destructor = .finished → s.worker = .stopped

namespace MainLoop

section ending
variable (queueSize : Nat) (s s' : MainLoop) (hs : Ending s)
include hs

theorem worker_ending (h : s.step = some s') : Ending s' := by
  have hnot (hw : s.worker ≠ .stopped) : s.destructor ≠ .finished := fun hd => hw (hs.finished hd)
  rcases step_cases s s' h with ⟨hw, -, rfl⟩ | ⟨cmd, queue, hw, -, rfl⟩ | ⟨cmd, hw, rfl⟩ | ⟨hw, rfl⟩ | ⟨hw, rfl⟩
  · have hfinished := hnot (by simp [hw])
    refine ⟨hs.stopRequested, ?_, ?_, fun hd => absurd hd hfinished⟩
    · dsimp only
      split_ifs with hstop
      · exact fun _ => hstop
      · exact nofun
    · intro hd
      have hstop : s.stopRequested = true := hs.stopRequested.mpr (by rw [hd]; exact nofun)
      dsimp only
      rw [if_pos hstop]
      exact nofun
  all_goals
    have hfinished := hnot (by simp [hw])
    exact ⟨hs.stopRequested, nofun, fun _ => nofun, fun hd => absurd hd hfinished⟩

theorem destroy_ending (h : s.destroy = some s') : Ending s' := by
  unfold destroy at h
  cases hd : s.destructor with
  | stop =>
    simp only [hd, Option.some.injEq] at h
    rw [← h]
    exact ⟨⟨fun _ => nofun, fun _ => rfl⟩, fun _ => rfl, nofun, nofun⟩
  | notifyAll =>
    have hstop : s.stopRequested = true := hs.stopRequested.mpr (by rw [hd]; exact nofun)
    simp only [hd, Option.some.injEq] at h
    rw [← h]
    refine ⟨⟨fun _ => nofun, fun _ => hstop⟩, fun _ => hstop, fun _ => ?_, nofun⟩
    dsimp only
    split_ifs with hw
    · exact nofun
    · exact hw
  | join =>
    have hstop : s.stopRequested = true := hs.stopRequested.mpr (by rw [hd]; exact nofun)
    simp only [hd] at h
    split_ifs at h with hw
    rw [← Option.some.inj h]
    exact ⟨⟨fun _ => nofun, fun _ => hstop⟩, fun _ => hstop, nofun, fun _ => hw⟩
  | finished =>
    rw [hd] at h
    cases h

theorem ending_next (l : Label) (h : s.next queueSize l = some s') : Ending s' := by
  by_cases hdestroy : l = .destroy
  · subst hdestroy
    exact destroy_ending s s' hs h
  by_cases hworker : l = .worker
  · subst hworker
    exact worker_ending s s' hs h
  obtain ⟨hd, hstop⟩ := next_destructor s s' queueSize l hdestroy h
  have hw : s'.worker = s.worker ∨ s.worker = .waiting ∧ s'.worker = .lock := by
    by_cases hpush : ∃ cmd, l = .push cmd
    · obtain ⟨cmd, rfl⟩ := hpush
      left
      rw [← Option.some.inj h, pushFunc]
      split_ifs <;> rfl
    · exact (next_quiet s s' queueSize l (fun cmd hl => hpush ⟨cmd, hl⟩) hworker h).worker
  rcases hw with hw | ⟨hw, hw'⟩
  · refine ⟨?_, ?_, ?_, ?_⟩
    · rw [hd, hstop]
      exact hs.stopRequested
    · rw [hw, hstop]
      exact hs.stopped
    · rw [hd, hw]
      exact hs.joining
    · rw [hd, hw]
      exact hs.finished
  · refine ⟨?_, ?_, ?_, ?_⟩
    · rw [hd, hstop]
      exact hs.stopRequested
    · rw [hw']
      exact nofun
    · rw [hw']
      exact fun _ => nofun
    · intro hfinished
      rw [hd] at hfinished
      cases hw.symm.trans (hs.finished hfinished)

end ending

theorem constructed_ending : Ending constructed :=
  ⟨⟨nofun, fun h => absurd rfl h⟩, nofun, nofun, nofun⟩

end MainLoop

end Espbase.Emulated
