import Espbase.MainLoopTask.InflightCount

namespace Espbase.MainLoopTask

open Espbase.Lib

/-- A step that has seen that it may restart the timer and has not yet done so. -/
def StepPc.Restarting : StepPc → Prop
  | .delayTimer => True
  | .stopArg => True
  | .stop _ => True
  | .startArg => True
  | .startOnce _ => True
  | _ => False

/-- A step that has taken the counter to zero and not yet left. -/
def StepPc.Leaving : StepPc → Prop
  | .exitTerminate => True
  | .exitSem => True
  | .giveArg => True
  | .give _ => True
  | _ => False

instance : DecidablePred StepPc.Restarting := fun pc => by
  cases pc <;> unfold StepPc.Restarting <;> infer_instance

instance : DecidablePred StepPc.Leaving := fun pc => by
  cases pc <;> unfold StepPc.Leaving <;> infer_instance

namespace State

/-- The order of steps under which the teardown is one.
- a step that took the counter to zero has not been overtaken when `terminate_requested_` is set;
- `esp_timer_delete` is called while no step is restarting the timer;
- the counter is read while no step is leaving and no callback is dispatched but not counted;
- no callback is counted after a step has given the semaphore or is about to;
- the wait gets its token. -/
def Ordered (s : State) : Label → Prop
  | .begin _ => False
  | .call i ok =>
    match s.calls[i]? with
    | some (.reset .terminate) => s.loop = some .exitTerminate → s.outstanding = 0
    | some (.reset (.delete _)) => ∀ pc ∈ s.loop, ¬ pc.Restarting
    | some (.reset .count) => s.callback ≠ some .add ∧ ∀ pc ∈ s.loop, ¬ pc.Leaving
    | some (.reset (.take _)) => ok = true
    | _ => True
  | .callback => s.callback = some .add → s.task.inflightCount.toNat + 1 < 2 ^ 32 ∧
      s.task.tokens = [] ∧
        (s.task.terminateRequested = true → ∀ pc ∈ s.loop, ¬ pc.Leaving)
  | _ => True

instance (s : State) : (l : Label) → Decidable (s.Ordered l)
  | .begin _ => .isFalse id
  | .callback => inferInstanceAs (Decidable (s.callback = some .add → _ ∧ _ ∧ _))
  | .fire _ | .receive | .step _ | .post => .isTrue trivial
  | .call i ok => by
    dsimp only [Ordered]
    generalize s.calls[i]? = c
    rcases c with - | pc | pc | pc | pc
    · exact .isTrue trivial
    · exact .isTrue trivial
    · exact .isTrue trivial
    · cases pc <;> dsimp only <;> infer_instance
    · exact .isTrue trivial

/-- Every outstanding step is counted, and no call got a deleted handle. -/
structure Counting (s : State) : Prop where
  covered : s.outstanding ≤ s.task.inflightCount.toNat
  callback : ∀ pc ∈ s.callback, pc = .add ∨ pc = .push
  misused : s.task.misused = false

structure TimerLive (t : Nat) (s : State) : Prop where
  handle : s.task.timerHandle = some t
  live : t ∉ s.task.deleted
  armed : ∀ h ∈ s.task.armed, h = t
  loop : ∀ h, s.loop = some (.stop h) ∨ s.loop = some (.startOnce h) → h = some t

/-- No timer is armed, and none will be. -/
structure TimerGone (s : State) : Prop where
  armed : s.task.armed = []
  loop : ∀ pc ∈ s.loop, ¬ pc.Restarting

structure SemLive (j : Nat) (s : State) : Prop where
  handle : s.task.joinSem = some j
  live : j ∉ s.task.deleted
  loop : ∀ h, s.loop = some (.give h) → h = some j

/-- Before `terminate_requested_` is set nobody gives the semaphore. -/
structure Untold (s : State) : Prop where
  terminate : s.task.terminateRequested = false
  tokens : s.task.tokens = []
  loop : ∀ pc ∈ s.loop, pc.Leaving → pc = .exitTerminate

/-- After it, who gives the semaphore or has given it was the last. -/
structure Told (s : State) : Prop where
  terminate : s.task.terminateRequested = true
  tokens : s.task.tokens ≠ [] → s.loop = none ∧ s.outstanding = 0
  loop : ∀ pc ∈ s.loop, pc.Leaving → s.outstanding = 0

/-- A started task: it has a live timer and a live semaphore, its counter covers what is
outstanding, and no step has been told to give the semaphore. -/
def Started (t j : Nat) (s : State) : Prop :=
  s.task.running = true ∧ s.Counting ∧ s.TimerLive t ∧ s.SemLive j ∧ s.Untold

/-- Nothing of the task is left but the object. -/
structure Drained (s : State) : Prop where
  queued : s.task.queued = 0
  loop : s.loop = none
  callback : s.callback = none
  armed : s.task.armed = []
  misused : s.task.misused = false

/-- What holds while `reset()` stands at `pc`. -/
def Tearing (t j : Nat) (s : State) : ResetPc → Prop
  | .claim => s.Started t j
  | .terminate => s.Counting ∧ s.TimerLive t ∧ s.SemLive j ∧ s.Untold
  | .timer => s.Counting ∧ s.TimerLive t ∧ s.SemLive j ∧ s.Told
  | .stopArg => s.Counting ∧ s.TimerLive t ∧ s.SemLive j ∧ s.Told
  | .stop h => h = some t ∧ s.Counting ∧ s.TimerLive t ∧ s.SemLive j ∧ s.Told
  | .deleteArg => s.Counting ∧ s.TimerLive t ∧ s.SemLive j ∧ s.Told
  | .delete h => h = some t ∧ s.Counting ∧ s.TimerLive t ∧ s.SemLive j ∧ s.Told
  | .clear => s.Counting ∧ s.TimerGone ∧ s.SemLive j ∧ s.Told
  | .count => s.Counting ∧ s.TimerGone ∧ s.SemLive j ∧ s.Told
  | .sem => s.callback ≠ some .add ∧ s.Counting ∧ s.TimerGone ∧ s.SemLive j ∧ s.Told
  | .takeArg => s.callback ≠ some .add ∧ s.Counting ∧ s.TimerGone ∧ s.SemLive j ∧ s.Told
  | .take h => h = some j ∧ s.callback ≠ some .add ∧ s.Counting ∧ s.TimerGone ∧ s.SemLive j ∧ s.Told
  | .drained => s.Drained ∧ s.SemLive j
  | .semArg => s.Drained ∧ s.SemLive j
  | .semDelete h => h = some j ∧ s.Drained ∧ s.SemLive j
  | .semClear => s.Drained

/-- The invariant of the teardown: one call, at some point of `reset()`, or none any more. -/
def Teardown (t j : Nat) (s : State) : Prop :=
  (∃ pc, s.calls = [.reset pc] ∧ s.Tearing t j pc) ∨ (s.calls = [] ∧ s.Drained)

end State

theorem push_frame (capacity : Nat) (t : Task) (c : Command) :
    t.push capacity c = { t with queue := (t.push capacity c).queue } := by
  unfold Task.push
  split_ifs <;> rfl

theorem push_queued_le (capacity : Nat) (t : Task) :
    (t.push capacity .appLoopStep).queued ≤ t.queued + 1 := by
  unfold Task.push Task.queued
  split_ifs <;> simp

theorem semGive_armed (t : Task) (h : Option Nat) : (t.semGive h).armed = t.armed := by
  cases h with
  | none => rfl
  | some h =>
    simp only [Task.semGive]
    split_ifs <;> rfl

/-- A live handle is not misused. -/
theorem timer_live (t : Task) (h : Nat) (hl : h ∉ t.deleted) :
    (t.timerStop (some h)).misused = t.misused ∧ (t.timerStartOnce (some h)).misused = t.misused ∧
      (t.timerDelete (some h)).misused = t.misused := by
  simp only [Task.timerStop, Task.timerStartOnce, Task.timerDelete, hl, if_false]
  refine ⟨trivial, ?_, trivial⟩
  split_ifs <;> rfl

theorem sem_live (t : Task) (h : Nat) (hl : h ∉ t.deleted) :
    (t.semGive (some h)).misused = t.misused ∧ (t.semDelete (some h)).misused = t.misused := by
  simp only [Task.semGive, Task.semDelete, hl, if_false]
  refine ⟨?_, trivial⟩
  split_ifs <;> rfl

namespace State

/-- One step of the callback, which stands before its increment or before its push. -/
theorem callback_cases (capacity : Nat) (s s' : State)
    (hs : ∀ pc ∈ s.callback, pc = .add ∨ pc = .push)
    (h : s.next capacity .callback = some s') :
    (s.callback = some .add ∧ s' = { s with task := s.task.fetchAdd, callback := some .push }) ∨
    ∃ queue, s.callback = some .push ∧ queue.count .appLoopStep ≤ s.task.queued + 1 ∧
      s' = { s with task := { s.task with queue }, callback := none } := by
  obtain ⟨pc, hpc, rfl⟩ := next_callback capacity s s' h
  rcases hs pc hpc with rfl | rfl
  · exact .inl ⟨hpc, rfl⟩
  · refine .inr ⟨(s.task.push capacity .appLoopStep).queue, hpc, push_queued_le capacity _, ?_⟩
    rw [← push_frame]
    rfl

end State

/-- A step of the main loop leaves the handles, the flags and the queue. -/
structure StepPc.Framed (t t' : Task) : Prop where
  running : t'.running = t.running
  terminate : t'.terminateRequested = t.terminateRequested
  timer : t'.timerHandle = t.timerHandle
  sem : t'.joinSem = t.joinSem
  queue : t'.queue = t.queue
  deleted : t'.deleted = t.deleted

theorem step_framed (delay : Bool) (t : Task) (pc : StepPc) :
    StepPc.Framed t (pc.step delay t).1 := by
  cases pc with
  | deactivate v =>
    simp only [StepPc.step]
    split_ifs <;> exact ⟨rfl, rfl, rfl, rfl, rfl, rfl⟩
  | stop h =>
    have hs := t.timerStop_same h
    refine ⟨hs.running, hs.terminateRequested, hs.timerHandle, hs.joinSem, hs.queue, ?_⟩
    cases h <;> simp only [StepPc.step, Task.timerStop]
    split_ifs <;> rfl
  | startOnce h =>
    have hs := t.timerStartOnce_same h
    refine ⟨hs.running, hs.terminateRequested, hs.timerHandle, hs.joinSem, hs.queue, ?_⟩
    cases h <;> simp only [StepPc.step, Task.timerStartOnce]
    split_ifs <;> rfl
  | give h =>
    have hs := t.semGive_same h
    refine ⟨hs.running, hs.terminateRequested, hs.timerHandle, hs.joinSem, hs.queue, ?_⟩
    cases h <;> simp only [StepPc.step, Task.semGive]
    · rfl
    · split_ifs <;> rfl
  | _ => exact ⟨rfl, rfl, rfl, rfl, rfl, rfl⟩

namespace State

theorem TimerLive.step (t : Nat) (delay : Bool) (s : State) (pc : StepPc) (hs : s.TimerLive t)
    (hpc : s.loop = some pc) : TimerLive t { s with
      task := (pc.step delay s.task).1, loop := (pc.step delay s.task).2 } := by
  have hf := step_framed delay s.task pc
  refine ⟨hf.timer.trans hs.handle, by rw [hf.deleted]; exact hs.live, ?_, ?_⟩
  · have hl := hs.loop
    rw [hpc] at hl
    have hd := hs.live
    cases pc with
    | stop h =>
      obtain rfl := hl h (.inl rfl)
      simp only [StepPc.step, Task.timerStop, hd, if_false]
      exact fun x hx => hs.armed x (List.mem_of_mem_filter hx)
    | startOnce h =>
      obtain rfl := hl h (.inr rfl)
      simp only [StepPc.step, Task.timerStartOnce, hd, if_false]
      split_ifs
      · exact hs.armed
      · intro x hx
        exact (List.mem_cons.mp hx).elim id (hs.armed x)
    | deactivate v =>
      simp only [StepPc.step]
      split_ifs <;> exact hs.armed
    | give h =>
      rw [StepPc.step, (semGive_armed s.task h)]
      exact hs.armed
    | _ => exact hs.armed
  · have hh := hs.handle
    intro h
    cases pc <;> simp only [StepPc.step] <;> (try split_ifs) <;> simp [hh]
    all_goals exact Eq.symm

theorem TimerGone.step (delay : Bool) (s : State) (pc : StepPc) (hs : s.TimerGone)
    (ht : s.task.terminateRequested = true) (hpc : s.loop = some pc) : TimerGone { s with
      task := (pc.step delay s.task).1, loop := (pc.step delay s.task).2 } := by
  have hr := hs.loop pc hpc
  have ha := hs.armed
  refine ⟨?_, ?_⟩
  · cases pc with
    | stop h => exact absurd trivial hr
    | startOnce h => exact absurd trivial hr
    | deactivate v =>
      simp only [StepPc.step]
      split_ifs <;> exact ha
    | give h => rw [StepPc.step, semGive_armed s.task h, ha]
    | _ => exact ha
  · intro q hq
    cases pc <;> first | exact absurd trivial hr | skip
    all_goals simp only [StepPc.step, ht, if_true] at hq
    all_goals (try split_ifs at hq) <;> cases hq <;> exact id

theorem SemLive.step (j : Nat) (delay : Bool) (s : State) (pc : StepPc) (hs : s.SemLive j)
    (hpc : s.loop = some pc) : SemLive j { s with
      task := (pc.step delay s.task).1, loop := (pc.step delay s.task).2 } := by
  have hf := step_framed delay s.task pc
  refine ⟨hf.sem.trans hs.handle, by rw [hf.deleted]; exact hs.live, ?_⟩
  intro h hq
  have hh := hs.handle
  cases pc <;> simp only [StepPc.step] at hq <;> (try split_ifs at hq) <;> cases hq
  exact hh

/-- Where a step of the main loop takes a handle, it is a live one. -/
theorem Counting.step (delay : Bool) (s : State) (pc : StepPc) (hs : s.Counting)
    (hpc : s.loop = some pc)
    (ht : pc.Restarting → ∃ t, s.TimerLive t) (hj : pc.Leaving → ∃ j, s.SemLive j) :
    Counting { s with task := (pc.step delay s.task).1, loop := (pc.step delay s.task).2 } := by
  have hc := hs.covered
  have hle : pc.credit ≤ s.outstanding := by
    simp only [outstanding, hpc, Option.map_some, Option.getD_some]
    omega
  refine ⟨?_, hs.callback, ?_⟩
  · have hb := balanced_step delay s.task pc (by omega)
    simp only [outstanding, hpc, Option.map_some, Option.getD_some] at hc ⊢
    unfold Balanced at hb
    omega
  · have hm := hs.misused
    cases pc with
    | stop h =>
      obtain ⟨t, hl⟩ := ht trivial
      obtain rfl := hl.loop h (.inl hpc)
      exact (timer_live s.task t hl.live).1.trans hm
    | startOnce h =>
      obtain ⟨t, hl⟩ := ht trivial
      obtain rfl := hl.loop h (.inr hpc)
      exact (timer_live s.task t hl.live).2.1.trans hm
    | give h =>
      obtain ⟨j, hl⟩ := hj trivial
      obtain rfl := hl.loop h hpc
      exact (sem_live s.task j hl.live).1.trans hm
    | deactivate v =>
      simp only [StepPc.step]
      split_ifs <;> exact hm
    | _ => exact hm

theorem step_tokens (delay : Bool) (t : Task) (pc : StepPc) (h : ∀ h, pc ≠ .give h) :
    (pc.step delay t).1.tokens = t.tokens := by
  cases pc with
  | give h' => exact absurd rfl (h h')
  | stop h' =>
    cases h' <;> simp only [StepPc.step, Task.timerStop]
    split_ifs <;> rfl
  | startOnce h' =>
    cases h' <;> simp only [StepPc.step, Task.timerStartOnce]
    split_ifs <;> rfl
  | deactivate v =>
    simp only [StepPc.step]
    split_ifs <;> rfl
  | _ => rfl

theorem Untold.step (delay : Bool) (s : State) (pc : StepPc) (hs : s.Untold)
    (hpc : s.loop = some pc) : Untold { s with
      task := (pc.step delay s.task).1, loop := (pc.step delay s.task).2 } := by
  have hl := hs.loop pc hpc
  have ht := hs.terminate
  refine ⟨(step_framed delay s.task pc).terminate.trans ht, ?_, ?_⟩
  · rw [step_tokens delay s.task pc]
    · exact hs.tokens
    · rintro h rfl
      cases hl trivial
  · intro q hq hlv
    cases pc <;> simp only [StepPc.step, ht, Bool.false_eq_true, if_false] at hq <;>
      (try split_ifs at hq) <;> cases hq
    all_goals first | rfl | exact absurd hlv id | cases hl trivial

/-- Whoever leaves last takes the counter to zero, and with it what is outstanding. -/
theorem Told.step (delay : Bool) (s : State) (pc : StepPc) (hs : s.Told) (hc : s.Counting)
    (hpc : s.loop = some pc) : Told { s with
      task := (pc.step delay s.task).1, loop := (pc.step delay s.task).2 } := by
  have hl := hs.loop pc hpc
  have ht := hs.terminate
  have hcov := hc.covered
  have hout (t' : Task) (loop : Option StepPc) (hq : t'.queue = s.task.queue)
      (hcr : (loop.map StepPc.credit).getD 0 = 0) (h0 : s.outstanding ≤ pc.credit) :
      outstanding { s with task := t', loop } = 0 := by
    simp only [outstanding, hpc, Task.queued, hq, Option.map_some, Option.getD_some, hcr] at h0 ⊢
    omega
  have hnil : s.task.tokens = [] := by
    by_contra hne
    cases (hs.tokens hne).1.symm.trans hpc
  have hf := step_framed delay s.task pc
  refine ⟨hf.terminate.trans ht, ?_, ?_⟩
  · intro hne
    by_cases hg : ∃ h, pc = .give h
    · obtain ⟨h, rfl⟩ := hg
      exact ⟨rfl, hout _ _ hf.queue rfl (le_of_eq (hl trivial))⟩
    · rw [step_tokens delay s.task pc (fun h he => hg ⟨h, he⟩)] at hne
      exact absurd hnil hne
  · intro q hq hlv
    cases pc <;> simp only [StepPc.step, ht] at hq
    case decrement =>
      split_ifs at hq with h1 <;> cases hq
      have h1' : s.task.inflightCount.toNat = 1 := by rw [h1]; rfl
      exact hout _ _ rfl (by simp [StepPc.step, h1, StepPc.credit]) (by rw [h1'] at hcov; exact hcov)
    case exitTerminate => exact hout _ _ hf.queue (by simp [StepPc.step, ht, StepPc.credit]) (le_of_eq (hl trivial))
    case exitSem =>
      refine hout _ _ hf.queue ?_ (le_of_eq (hl trivial))
      simp only [StepPc.step]
      split_ifs <;> rfl
    case giveArg => exact hout _ _ hf.queue rfl (le_of_eq (hl trivial))
    all_goals (try split_ifs at hq) <;> cases hq <;> exact absurd hlv id

end State

/-- A step of the timer task, of the main loop or of another object. -/
def Label.Beside : Label → Prop
  | .begin _ => False
  | .call _ _ => False
  | _ => True

namespace State

/-- What a step beside the calls leaves, unless it is one of the step that the main loop runs. -/
structure Aside (s s' : State) : Prop where
  running : s'.task.running = s.task.running
  terminate : s'.task.terminateRequested = s.task.terminateRequested
  timer : s'.task.timerHandle = s.task.timerHandle
  sem : s'.task.joinSem = s.task.joinSem
  tokens : s'.task.tokens = s.task.tokens
  deleted : s'.task.deleted = s.task.deleted
  armed : ∀ h ∈ s'.task.armed, h ∈ s.task.armed
  loop : ∀ pc ∈ s'.loop, pc ∈ s.loop ∨ pc = .version

section beside
variable (capacity : Nat) (s s' : State) (l : Label) (hl : l.Beside)
  (h : s.next capacity l = some s')
include hl h

theorem beside_calls : s'.calls = s.calls := by
  cases l with
  | begin e => exact hl.elim
  | call i ok => exact hl.elim
  | fire h' => rw [(next_fire capacity s s' h' h).2.2]
  | callback =>
    obtain ⟨pc, -, rfl⟩ := next_callback capacity s s' h
    rfl
  | receive =>
    obtain ⟨-, c, queue, -, rfl⟩ := next_receive capacity s s' h
    rfl
  | step delay =>
    obtain ⟨pc, -, rfl⟩ := next_step capacity s s' delay h
    rfl
  | post =>
    obtain ⟨queue, rfl, -⟩ := next_post capacity s s' h
    rfl

theorem beside_cases (hc : ∀ pc ∈ s.callback, pc = .add ∨ pc = .push) :
    (∃ delay pc, s.loop = some pc ∧ s' = { s with
      task := (pc.step delay s.task).1, loop := (pc.step delay s.task).2 }) ∨ s.Aside s' := by
  cases l with
  | begin e => exact hl.elim
  | call i ok => exact hl.elim
  | fire h' =>
    obtain ⟨-, -, rfl⟩ := next_fire capacity s s' h' h
    exact .inr ⟨rfl, rfl, rfl, rfl, rfl, rfl, fun x => List.mem_of_mem_filter, fun pc => .inl⟩
  | callback =>
    rcases callback_cases capacity s s' hc h with ⟨-, rfl⟩ | ⟨queue, -, -, rfl⟩ <;>
      exact .inr ⟨rfl, rfl, rfl, rfl, rfl, rfl, fun x => id, fun pc => .inl⟩
  | receive =>
    obtain ⟨-, c, queue, -, rfl⟩ := next_receive capacity s s' h
    refine .inr ⟨rfl, rfl, rfl, rfl, rfl, rfl, fun x => id, fun pc hpc => .inr ?_⟩
    dsimp only at hpc
    split at hpc
    · exact (Option.some.inj hpc).symm
    · cases hpc
  | step delay =>
    obtain ⟨pc, hpc, rfl⟩ := next_step capacity s s' delay h
    exact .inl ⟨delay, pc, hpc, rfl⟩
  | post =>
    obtain ⟨queue, rfl, -⟩ := next_post capacity s s' h
    exact .inr ⟨rfl, rfl, rfl, rfl, rfl, rfl, fun x => id, fun pc => .inl⟩

theorem Counting.beside (hs : s.Counting) (ho : s.Ordered l)
    (ht : (∃ t, s.TimerLive t) ∨ s.TimerGone) (hj : ∃ j, s.SemLive j) : s'.Counting := by
  have hcov := hs.covered
  cases l with
  | begin e => exact hl.elim
  | call i ok => exact hl.elim
  | fire h' =>
    obtain ⟨hc, -, rfl⟩ := next_fire capacity s s' h' h
    refine ⟨?_, by rintro _ ⟨⟩; exact .inl rfl, hs.misused⟩
    simpa [outstanding, hc, KickPc.credit, Task.queued] using hcov
  | callback =>
    rcases callback_cases capacity s s' hs.callback h with ⟨hc, rfl⟩ | ⟨queue, hc, hq, rfl⟩
    · have hn := UInt32.toNat_add s.task.inflightCount 1
      have hb : s.task.inflightCount.toNat + 1 < 2 ^ 32 := (ho hc).1
      rw [show (1 : UInt32).toNat = 1 from rfl, Nat.mod_eq_of_lt hb] at hn
      refine ⟨?_, by rintro _ ⟨⟩; exact .inr rfl, hs.misused⟩
      simp only [outstanding, hc, Option.map_some, Option.getD_some, KickPc.credit, Task.fetchAdd,
        Task.queued, hn] at hcov ⊢
      omega
    · refine ⟨?_, fun pc hpc => (by cases hpc), hs.misused⟩
      simp only [outstanding, hc, Option.map_some, Option.getD_some, Option.map_none,
        Option.getD_none, KickPc.credit, Task.queued] at hcov hq ⊢
      omega
  | receive =>
    obtain ⟨hf, c, queue, hq, rfl⟩ := next_receive capacity s s' h
    refine ⟨?_, hs.callback, hs.misused⟩
    unfold outstanding Task.queued at hcov ⊢
    cases c <;> simp [hf, hq, StepPc.credit] at hcov ⊢ <;> omega
  | step delay =>
    obtain ⟨pc, hpc, rfl⟩ := next_step capacity s s' delay h
    exact hs.step delay s pc hpc (fun hr => ht.resolve_right fun hg => hg.loop pc hpc hr)
      fun _ => hj
  | post =>
    obtain ⟨queue, rfl, hq⟩ := next_post capacity s s' h
    exact ⟨by simpa [outstanding, Task.queued, hq] using hcov, hs.callback, hs.misused⟩

theorem TimerLive.beside (t : Nat) (hs : s.TimerLive t) (hc : s.Counting) : s'.TimerLive t := by
  rcases beside_cases capacity s s' l hl h hc.callback with ⟨delay, pc, hpc, rfl⟩ | ha
  · exact hs.step t delay s pc hpc
  · refine ⟨ha.timer.trans hs.handle, by rw [ha.deleted]; exact hs.live,
      fun x hx => hs.armed x (ha.armed x hx), fun x hx => hs.loop x ?_⟩
    apply hx.imp
    · intro hstop
      exact (ha.loop _ hstop).resolve_right nofun
    · intro hstart
      exact (ha.loop _ hstart).resolve_right nofun

theorem TimerGone.beside (hs : s.TimerGone) (hc : s.Counting)
    (ht : s.task.terminateRequested = true) : s'.TimerGone := by
  rcases beside_cases capacity s s' l hl h hc.callback with ⟨delay, pc, hpc, rfl⟩ | ha
  · exact hs.step delay s pc ht hpc
  · refine ⟨List.eq_nil_iff_forall_not_mem.mpr ?_, ?_⟩
    · intro x hx
      have hx' := ha.armed x hx
      rw [hs.armed] at hx'
      cases hx'
    · intro pc hpc
      rcases ha.loop pc hpc with hpc | rfl
      · exact hs.loop pc hpc
      · exact id

theorem SemLive.beside (j : Nat) (hs : s.SemLive j)
    (hc : ∀ pc ∈ s.callback, pc = .add ∨ pc = .push) : s'.SemLive j := by
  rcases beside_cases capacity s s' l hl h hc with ⟨delay, pc, hpc, rfl⟩ | ha
  · exact hs.step j delay s pc hpc
  · refine ⟨ha.sem.trans hs.handle, by rw [ha.deleted]; exact hs.live, fun x hx => hs.loop x ?_⟩
    exact (ha.loop _ hx).resolve_right nofun

theorem Untold.beside (hs : s.Untold) (hc : s.Counting) : s'.Untold := by
  rcases beside_cases capacity s s' l hl h hc.callback with ⟨delay, pc, hpc, rfl⟩ | ha
  · exact hs.step delay s pc hpc
  · refine ⟨ha.terminate.trans hs.terminate, ha.tokens.trans hs.tokens, ?_⟩
    intro pc hpc hleaving
    rcases ha.loop pc hpc with hpc | rfl
    · exact hs.loop pc hpc hleaving
    · exact hleaving.elim

theorem Told.beside (hs : s.Told) (hc : s.Counting) (ho : s.Ordered l) : s'.Told := by
  cases l with
  | begin e => exact hl.elim
  | call i ok => exact hl.elim
  | fire h' =>
    obtain ⟨hcb, -, rfl⟩ := next_fire capacity s s' h' h
    refine ⟨hs.terminate, ?_, ?_⟩
    · simpa [outstanding, hcb, KickPc.credit, Task.queued] using hs.tokens
    · simpa [outstanding, hcb, KickPc.credit, Task.queued] using hs.loop
  | callback =>
    rcases callback_cases capacity s s' hc.callback h with ⟨hcb, rfl⟩ | ⟨queue, hcb, hq, rfl⟩
    · -- counted before anyone leaves
      have ho := ho hcb
      exact ⟨hs.terminate, fun hne => absurd ho.2.1 hne,
        fun pc hpc hlv => absurd hlv (ho.2.2 hs.terminate pc hpc)⟩
    · have hne : s.outstanding ≠ 0 := by simp [outstanding, hcb, KickPc.credit]
      exact ⟨hs.terminate, fun ht => absurd (hs.tokens ht).2 hne,
        fun pc hpc hlv => absurd (hs.loop pc hpc hlv) hne⟩
  | receive =>
    obtain ⟨hf, c, queue, hq, rfl⟩ := next_receive capacity s s' h
    have htok := hs.tokens
    refine ⟨hs.terminate, ?_, ?_⟩
    · intro hne
      have h0 := (htok hne).2
      unfold outstanding Task.queued at h0 ⊢
      cases c <;> simp [hf, hq] at h0 ⊢
      exact h0
    · cases c <;> simp [StepPc.Leaving]
  | step delay =>
    obtain ⟨pc, hpc, rfl⟩ := next_step capacity s s' delay h
    exact hs.step delay s pc hc hpc
  | post =>
    obtain ⟨queue, rfl, hq⟩ := next_post capacity s s' h
    refine ⟨hs.terminate, ?_, ?_⟩
    · simpa [outstanding, Task.queued, hq] using hs.tokens
    · simpa [outstanding, Task.queued, hq] using hs.loop

/-- Once drained, nothing of the task comes back. -/
theorem Drained.beside (hs : s.Drained) : s'.Drained := by
  cases l with
  | begin e => exact hl.elim
  | call i ok => exact hl.elim
  | fire h' =>
    obtain ⟨-, ha, -⟩ := next_fire capacity s s' h' h
    rw [hs.armed] at ha
    cases ha
  | callback =>
    obtain ⟨pc, hpc, -⟩ := next_callback capacity s s' h
    rw [hs.callback] at hpc
    cases hpc
  | receive =>
    obtain ⟨hf, c, queue, hq, rfl⟩ := next_receive capacity s s' h
    have h0 := hs.queued
    unfold Task.queued at h0
    cases c with
    | appLoopStep => simp [hq] at h0
    | other => exact ⟨by simpa [Task.queued, hq] using h0, rfl, hs.callback, hs.armed, hs.misused⟩
  | step delay =>
    obtain ⟨pc, hpc, -⟩ := next_step capacity s s' delay h
    rw [hs.loop] at hpc
    cases hpc
  | post =>
    obtain ⟨queue, rfl, hq⟩ := next_post capacity s s' h
    exact ⟨hq.trans hs.queued, hs.loop, hs.callback, hs.armed, hs.misused⟩

end beside

section beside
variable (t j capacity : Nat) (s s' : State) (l : Label) (hl : l.Beside)
  (h : s.next capacity l = some s')
include hl h

theorem beside_running (hc : s.Counting) : s'.task.running = s.task.running := by
  rcases beside_cases capacity s s' l hl h hc.callback with ⟨delay, pc, -, rfl⟩ | ha
  · exact (step_framed delay s.task pc).running
  · exact ha.running

/-- Without a timer no callback is dispatched any more. -/
theorem beside_counted (hs : s.Counting) (hg : s.TimerGone) (hn : s.callback ≠ some .add) :
    s'.callback ≠ some .add := by
  cases l with
  | begin e => exact hl.elim
  | call i ok => exact hl.elim
  | fire h' =>
    obtain ⟨-, ha, -⟩ := next_fire capacity s s' h' h
    rw [hg.armed] at ha
    cases ha
  | callback =>
    rcases callback_cases capacity s s' hs.callback h with ⟨hc, -⟩ | ⟨queue, -, -, rfl⟩
    · exact absurd hc hn
    · exact nofun
  | receive =>
    obtain ⟨-, c, queue, -, rfl⟩ := next_receive capacity s s' h
    exact hn
  | step delay =>
    obtain ⟨pc, -, rfl⟩ := next_step capacity s s' delay h
    exact hn
  | post =>
    obtain ⟨queue, rfl, -⟩ := next_post capacity s s' h
    exact hn

theorem beside_untold (ho : s.Ordered l)
    (hs : s.Counting ∧ s.TimerLive t ∧ s.SemLive j ∧ s.Untold) :
    s'.Counting ∧ s'.TimerLive t ∧ s'.SemLive j ∧ s'.Untold :=
  have ⟨hc, ht, hj, hu⟩ := hs
  ⟨hc.beside capacity s s' l hl h ho (.inl ⟨t, ht⟩) ⟨j, hj⟩, ht.beside capacity s s' l hl h t hc,
    hj.beside capacity s s' l hl h j hc.callback, hu.beside capacity s s' l hl h hc⟩

theorem beside_live (ho : s.Ordered l)
    (hs : s.Counting ∧ s.TimerLive t ∧ s.SemLive j ∧ s.Told) :
    s'.Counting ∧ s'.TimerLive t ∧ s'.SemLive j ∧ s'.Told :=
  have ⟨hc, ht, hj, hu⟩ := hs
  ⟨hc.beside capacity s s' l hl h ho (.inl ⟨t, ht⟩) ⟨j, hj⟩, ht.beside capacity s s' l hl h t hc,
    hj.beside capacity s s' l hl h j hc.callback, hu.beside capacity s s' l hl h hc ho⟩

theorem beside_gone (ho : s.Ordered l) (hs : s.Counting ∧ s.TimerGone ∧ s.SemLive j ∧ s.Told) :
    s'.Counting ∧ s'.TimerGone ∧ s'.SemLive j ∧ s'.Told :=
  have ⟨hc, ht, hj, hu⟩ := hs
  ⟨hc.beside capacity s s' l hl h ho (.inr ht) ⟨j, hj⟩,
    ht.beside capacity s s' l hl h hc hu.terminate,
    hj.beside capacity s s' l hl h j hc.callback, hu.beside capacity s s' l hl h hc ho⟩

theorem beside_drained (hs : s.Drained ∧ s.SemLive j) : s'.Drained ∧ s'.SemLive j :=
  ⟨hs.1.beside capacity s s' l hl h,
    hs.2.beside capacity s s' l hl h j fun pc hpc => by rw [hs.1.callback] at hpc; cases hpc⟩

theorem tearing_beside (pc : ResetPc) (ho : s.Ordered l) (hs : s.Tearing t j pc) :
    s'.Tearing t j pc := by
  cases pc with
  | claim =>
    exact ⟨(beside_running capacity s s' l hl h hs.2.1).trans hs.1,
      beside_untold t j capacity s s' l hl h ho hs.2⟩
  | terminate => exact beside_untold t j capacity s s' l hl h ho hs
  | timer => exact beside_live t j capacity s s' l hl h ho hs
  | stopArg => exact beside_live t j capacity s s' l hl h ho hs
  | stop h' => exact ⟨hs.1, beside_live t j capacity s s' l hl h ho hs.2⟩
  | deleteArg => exact beside_live t j capacity s s' l hl h ho hs
  | delete h' => exact ⟨hs.1, beside_live t j capacity s s' l hl h ho hs.2⟩
  | clear => exact beside_gone j capacity s s' l hl h ho hs
  | count => exact beside_gone j capacity s s' l hl h ho hs
  | sem =>
    exact ⟨beside_counted capacity s s' l hl h hs.2.1 hs.2.2.1 hs.1,
      beside_gone j capacity s s' l hl h ho hs.2⟩
  | takeArg =>
    exact ⟨beside_counted capacity s s' l hl h hs.2.1 hs.2.2.1 hs.1,
      beside_gone j capacity s s' l hl h ho hs.2⟩
  | take h' =>
    exact ⟨hs.1, beside_counted capacity s s' l hl h hs.2.2.1 hs.2.2.2.1 hs.2.1,
      beside_gone j capacity s s' l hl h ho hs.2.2⟩
  | drained => exact beside_drained j capacity s s' l hl h hs
  | semArg => exact beside_drained j capacity s s' l hl h hs
  | semDelete h' => exact ⟨hs.1, beside_drained j capacity s s' l hl h hs.2⟩
  | semClear => exact hs.beside capacity s s' l hl h

end beside

/-- When the counter is zero and nobody is leaving, nothing is outstanding. -/
theorem drained_of_zero (s : State) (hc : s.Counting) (hg : s.TimerGone)
    (hn : s.callback ≠ some .add) (hlv : ∀ pc ∈ s.loop, ¬ pc.Leaving) (h0 : s.outstanding = 0) :
    s.Drained := by
  unfold outstanding at h0
  refine ⟨by omega, ?_, ?_, hg.armed, hc.misused⟩
  · cases hl : s.loop with
    | none => rfl
    | some pc =>
      have hpc : pc.credit = 0 := by simp only [hl, Option.map_some, Option.getD_some] at h0; omega
      cases pc <;> first | exact absurd trivial (hlv _ hl) | cases hpc
  · cases hcb : s.callback with
    | none => rfl
    | some pc =>
      rcases hc.callback pc hcb with rfl | rfl
      · exact absurd hcb hn
      · simp [hcb, KickPc.credit] at h0

theorem drained_of_tokens (s : State) (hc : s.Counting) (hg : s.TimerGone) (ht : s.Told)
    (hn : s.callback ≠ some .add) (hk : s.task.tokens ≠ []) : s.Drained := by
  obtain ⟨hl, h0⟩ := ht.tokens hk
  exact drained_of_zero s hc hg hn (fun pc hpc => by rw [hl] at hpc; cases hpc) h0

/-- A step of `reset()` that leaves the counter and the queue. -/
structure ResetPc.Framed (t t' : Task) : Prop where
  queue : t'.queue = t.queue
  count : t'.inflightCount = t.inflightCount
  misused : t'.misused = t.misused
  tokens : t'.tokens = t.tokens
  sem : t'.joinSem = t.joinSem

section reset
variable (t j : Nat) (s : State) (task : Task) (pc : ResetPc) (pc' : Option ResetPc)
  (hcalls : s.calls = [.reset pc])

/-- The state after a step of `reset()`. -/
def afterReset : State := ⟨task, pc'.toList.map .reset, s.callback, s.loop⟩

include hcalls

theorem outstanding_afterReset (hq : task.queue = s.task.queue) :
    (s.afterReset task pc').outstanding = s.outstanding := by
  unfold outstanding afterReset Task.queued
  rw [hcalls, hq]
  cases pc' <;> rfl

theorem Counting.afterReset (hs : s.Counting) (hf : ResetPc.Framed s.task task) :
    (s.afterReset task pc').Counting := by
  refine ⟨?_, hs.callback, hf.misused.trans hs.misused⟩
  rw [outstanding_afterReset s task pc pc' hcalls hf.queue]
  exact hs.covered.trans_eq (congrArg UInt32.toNat hf.count.symm)

theorem Told.afterReset (hs : s.Told) (hf : ResetPc.Framed s.task task)
    (ht : task.terminateRequested = s.task.terminateRequested) :
    (s.afterReset task pc').Told := by
  have ho := outstanding_afterReset s task pc pc' hcalls hf.queue
  refine ⟨ht.trans hs.terminate, ?_, ?_⟩
  · intro hne
    rw [ho]
    exact hs.tokens (by rwa [← hf.tokens])
  · intro q hq hlv
    rw [ho]
    exact hs.loop q hq hlv

omit hcalls in
theorem TimerLive.afterReset (hs : s.TimerLive t) (hh : task.timerHandle = s.task.timerHandle)
    (hd : task.deleted = s.task.deleted) (ha : ∀ h ∈ task.armed, h ∈ s.task.armed) :
    (s.afterReset task pc').TimerLive t :=
  ⟨hh.trans hs.handle, fun h => hs.live (hd ▸ h), fun h hm => hs.armed h (ha h hm), hs.loop⟩

omit hcalls in
theorem SemLive.afterReset (hs : s.SemLive j) (hf : ResetPc.Framed s.task task)
    (hd : j ∉ task.deleted) : (s.afterReset task pc').SemLive j :=
  ⟨hf.sem.trans hs.handle, hd, hs.loop⟩

omit hcalls in
theorem Drained.afterReset (hs : s.Drained) (hq : task.queue = s.task.queue)
    (ha : task.armed = s.task.armed) (hm : task.misused = s.task.misused) :
    (s.afterReset task pc').Drained :=
  ⟨by unfold State.afterReset Task.queued; rw [hq]; exact hs.queued, hs.loop, hs.callback,
    ha.trans hs.armed, hm.trans hs.misused⟩

/-- One step of `reset()` takes its invariant to that of its next place. -/
theorem tearing_reset (ok : Bool) (htj : t ≠ j) (hs : s.Tearing t j pc)
    (ho : s.Ordered (.call 0 ok)) (h : pc.step ok s.task = some (task, pc')) :
    Teardown t j (s.afterReset task pc') := by
  simp only [Ordered, hcalls, List.getElem?_cons_zero] at ho
  have goto (task : Task) (q : ResetPc) (hq : (s.afterReset task (some q)).Tearing t j q) :
      Teardown t j (s.afterReset task (some q)) := .inl ⟨q, rfl, hq⟩
  have idle : ResetPc.Framed s.task s.task := ⟨rfl, rfl, rfl, rfl, rfl⟩
  have live (q : Option ResetPc) (hs : s.Counting ∧ s.TimerLive t ∧ s.SemLive j ∧ s.Told) :
      (s.afterReset s.task q).Counting ∧ (s.afterReset s.task q).TimerLive t ∧
        (s.afterReset s.task q).SemLive j ∧ (s.afterReset s.task q).Told :=
    ⟨hs.1.afterReset s _ pc q hcalls idle, hs.2.1.afterReset t s _ q rfl rfl fun _ h => h,
      hs.2.2.1.afterReset j s _ q idle hs.2.2.1.live, hs.2.2.2.afterReset s _ pc q hcalls idle rfl⟩
  have gone (q : Option ResetPc) (hs : s.Counting ∧ s.TimerGone ∧ s.SemLive j ∧ s.Told) :
      (s.afterReset s.task q).Counting ∧ (s.afterReset s.task q).TimerGone ∧
        (s.afterReset s.task q).SemLive j ∧ (s.afterReset s.task q).Told :=
    ⟨hs.1.afterReset s _ pc q hcalls idle, ⟨hs.2.1.armed, hs.2.1.loop⟩,
      hs.2.2.1.afterReset j s _ q idle hs.2.2.1.live, hs.2.2.2.afterReset s _ pc q hcalls idle rfl⟩
  have drained (q : Option ResetPc) (hs : s.Drained ∧ s.SemLive j) :
      (s.afterReset s.task q).Drained ∧ (s.afterReset s.task q).SemLive j :=
    ⟨hs.1.afterReset s _ q rfl rfl rfl, hs.2.afterReset j s _ q idle hs.2.live⟩
  cases pc <;> simp only [ResetPc.step, Option.some.injEq, Prod.mk.injEq] at h
  case claim =>
    obtain ⟨rfl, rfl⟩ := h
    obtain ⟨hr, hc, ht, hj, hu⟩ := hs
    rw [if_pos hr]
    have hf : ResetPc.Framed s.task { s.task with running := false } := ⟨rfl, rfl, rfl, rfl, rfl⟩
    exact goto _ _ ⟨hc.afterReset s _ _ _ hcalls hf, ht.afterReset t s _ _ rfl rfl fun _ h => h,
      hj.afterReset j s _ _ hf hj.live, ⟨hu.terminate, hu.tokens, hu.loop⟩⟩
  case terminate =>
    obtain ⟨rfl, rfl⟩ := h
    obtain ⟨hc, ht, hj, hu⟩ := hs
    have hf : ResetPc.Framed s.task { s.task with terminateRequested := true } :=
      ⟨rfl, rfl, rfl, rfl, rfl⟩
    refine goto _ _ ⟨hc.afterReset s _ _ _ hcalls hf, ht.afterReset t s _ _ rfl rfl fun _ h => h,
      hj.afterReset j s _ _ hf hj.live, rfl, fun hne => absurd hu.tokens hne, ?_⟩
    intro q hq hlv
    rw [outstanding_afterReset s _ _ _ hcalls hf.queue]
    exact ho (by rw [← hu.loop q hq hlv]; exact hq)
  case timer =>
    obtain ⟨rfl, rfl⟩ := h
    rw [hs.2.1.handle]
    exact goto _ _ (live _ hs)
  case stopArg =>
    obtain ⟨rfl, rfl⟩ := h
    rw [hs.2.1.handle]
    exact goto _ _ ⟨rfl, live _ hs⟩
  case stop h' =>
    obtain ⟨rfl, rfl⟩ := h
    obtain ⟨rfl, hc, ht, hj, hu⟩ := hs
    simp only [Task.timerStop, ht.live, if_false]
    have hf : ResetPc.Framed s.task { s.task with armed := s.task.armed.filter (· ≠ t) } :=
      ⟨rfl, rfl, rfl, rfl, rfl⟩
    exact goto _ _ ⟨hc.afterReset s _ _ _ hcalls hf,
      ht.afterReset t s _ _ rfl rfl fun _ h => List.mem_of_mem_filter h,
      hj.afterReset j s _ _ hf hj.live, hu.afterReset s _ _ _ hcalls hf rfl⟩
  case deleteArg =>
    obtain ⟨rfl, rfl⟩ := h
    rw [hs.2.1.handle]
    exact goto _ _ ⟨rfl, live _ hs⟩
  case delete h' =>
    obtain ⟨rfl, rfl⟩ := h
    obtain ⟨rfl, hc, ht, hj, hu⟩ := hs
    simp only [Task.timerDelete, ht.live, if_false]
    have hf : ResetPc.Framed s.task { s.task with
        armed := s.task.armed.filter (· ≠ t), deleted := t :: s.task.deleted } :=
      ⟨rfl, rfl, rfl, rfl, rfl⟩
    have ha : s.task.armed.filter (· ≠ t) = [] :=
      List.filter_eq_nil_iff.mpr fun x hx => by simp [ht.armed x hx]
    exact goto _ _ ⟨hc.afterReset s _ _ _ hcalls hf, ⟨ha, ho⟩,
      hj.afterReset j s _ _ hf fun h => (List.mem_cons.mp h).elim (fun h => htj h.symm) hj.live,
      hu.afterReset s _ _ _ hcalls hf rfl⟩
  case clear =>
    obtain ⟨rfl, rfl⟩ := h
    obtain ⟨hc, hg, hj, hu⟩ := hs
    have hf : ResetPc.Framed s.task { s.task with timerHandle := none } := ⟨rfl, rfl, rfl, rfl, rfl⟩
    exact goto _ _ ⟨hc.afterReset s _ _ _ hcalls hf, ⟨hg.armed, hg.loop⟩,
      hj.afterReset j s _ _ hf hj.live, hu.afterReset s _ _ _ hcalls hf rfl⟩
  case count =>
    obtain ⟨rfl, rfl⟩ := h
    split_ifs with h0
    · exact goto _ _ ⟨ho.1, gone _ hs⟩
    · have hz : s.outstanding = 0 := by
        have := hs.1.covered
        rw [UInt32.lt_iff_toNat_lt] at h0
        change ¬ 0 < _ at h0
        omega
      exact goto _ _ (drained _ ⟨drained_of_zero s hs.1 hs.2.1 ho.1 ho.2 hz, hs.2.2.1⟩)
  case sem =>
    obtain ⟨rfl, rfl⟩ := h
    rw [hs.2.2.2.1.handle]
    exact goto _ _ ⟨hs.1, gone _ hs.2⟩
  case takeArg =>
    obtain ⟨rfl, rfl⟩ := h
    rw [hs.2.2.2.1.handle]
    exact goto _ _ ⟨rfl, hs.1, gone _ hs.2⟩
  case take h' =>
    obtain ⟨rfl, hn, hc, hg, hj, hu⟩ := hs
    subst ho
    simp only [Task.semTake, hj.live, if_false, if_true] at h
    split_ifs at h with hk
    · simp only [Option.map_some, Option.some.injEq, Prod.mk.injEq] at h
      obtain ⟨rfl, rfl⟩ := h
      have hd := drained_of_tokens s hc hg hu hn (List.ne_nil_of_mem hk)
      exact goto _ _ ⟨hd.afterReset s _ _ rfl rfl rfl, ⟨hj.handle, hj.live, hj.loop⟩⟩
    · cases h
  case drained =>
    obtain ⟨rfl, rfl⟩ := h
    rw [hs.2.handle]
    exact goto _ _ (drained _ hs)
  case semArg =>
    obtain ⟨rfl, rfl⟩ := h
    rw [hs.2.handle]
    exact goto _ _ ⟨rfl, drained _ hs⟩
  case semDelete h' =>
    obtain ⟨rfl, rfl⟩ := h
    obtain ⟨rfl, hd, hj⟩ := hs
    simp only [Task.semDelete, hj.live, if_false]
    exact goto _ _ (hd.afterReset s _ _ rfl rfl rfl)
  case semClear =>
    obtain ⟨rfl, rfl⟩ := h
    exact .inr ⟨rfl, hs.afterReset s _ _ rfl rfl rfl⟩

end reset

theorem teardown_next (t j capacity : Nat) (htj : t ≠ j) (s : State) (l : Label) (s' : State)
    (hs : s.Teardown t j) (ho : s.Ordered l) (h : s.next capacity l = some s') :
    s'.Teardown t j := by
  by_cases hl : l.Beside
  · have hc := beside_calls capacity s s' l hl h
    rcases hs with ⟨pc, hp, ht⟩ | ⟨hp, hd⟩
    · exact .inl ⟨pc, hc.trans hp, tearing_beside t j capacity s s' l hl h pc ho ht⟩
    · exact .inr ⟨hc.trans hp, hd.beside capacity s s' l hl h⟩
  · cases l with
    | begin e => exact ho.elim
    | call i ok =>
      obtain ⟨c, task, c', hc, hr, rfl⟩ := next_call capacity s s' i ok h
      rcases hs with ⟨pc, hp, ht⟩ | ⟨hp, hd⟩
      · rw [hp] at hc
        obtain ⟨rfl, rfl⟩ : i = 0 ∧ .reset pc = c := by
          cases i with
          | zero => exact ⟨rfl, Option.some.inj hc⟩
          | succ i => cases hc
        obtain ⟨⟨task', pc'⟩, hq, he⟩ := Option.map_eq_some_iff.mp hr
        obtain ⟨rfl, rfl⟩ := Prod.mk.inj he
        have := tearing_reset t j s task' pc pc' hp ok htj ht ho hq
        cases pc' <;> simpa [hp, afterReset] using this
      · rw [hp] at hc
        cases hc
    | _ => exact absurd trivial hl

/-- When the steps of the teardown come in order, nothing of the task is left once `reset()` has
returned, and no deleted handle is used. -/
theorem reset_drains (t j capacity : Nat) (htj : t ≠ j) (s s' : State) (hs : s.Started t j)
    (hc : s.calls = [.reset .claim]) (run : Steps (next capacity) Ordered s s')
    (hd : s'.calls = []) :
    s'.task.queued = 0 ∧ s'.loop = none ∧ s'.callback = none ∧ s'.task.armed = [] ∧
      s'.task.misused = false := by
  have h : s'.Teardown t j := run.invariant _ _ (Teardown t j) _ _ (.inl ⟨_, hc, hs⟩)
    fun u l u' hu ho hn => teardown_next t j capacity htj u l u' hu ho hn
  rcases h with ⟨pc, hp, -⟩ | ⟨-, h⟩
  · rw [hd] at hp
    cases hp
  · exact ⟨h.queued, h.loop, h.callback, h.armed, h.misused⟩

/-- A task whose step is queued, with its timer 1 and its semaphore 0, when `reset()` is called. -/
def stepQueued : State where
  task := ⟨true, false, false, 1, 1, some 1, some 0, [.appLoopStep], [], [], [], 2, false⟩
  calls := [.reset .claim]
  callback := none
  loop := none

/-- `reset()` waits for the queued step. -/
def drainedByWait : List Label :=
  List.replicate 11 (.call 0 true) ++ .receive :: List.replicate 7 (.step true) ++
    List.replicate 5 (.call 0 true)

theorem reset_drains_queued :
    exec (next 1) (constructed 0) (starting ++ [.begin .reset]) = some stepQueued ∧
    ∃ s', exec (guarded (next 1) Ordered) stepQueued drainedByWait = some s' ∧ s'.calls = [] ∧
      s'.task.queued = 0 ∧ s'.loop = none ∧ s'.callback = none ∧ s'.task.armed = [] ∧
        s'.task.misused = false := by
  refine ⟨rfl, ?_⟩
  have h : ∃ s', exec (guarded (next 1) Ordered) stepQueued drainedByWait = some s' ∧
      s'.calls = [] := ⟨_, rfl, by decide⟩
  obtain ⟨s', hr, hd⟩ := h
  have hs : stepQueued.Started 1 0 :=
    ⟨rfl, ⟨by decide, nofun, rfl⟩, ⟨rfl, by decide, by decide, by simp [stepQueued]⟩,
      ⟨rfl, by decide, by simp [stepQueued]⟩, ⟨rfl, rfl, nofun⟩⟩
  exact ⟨s', hr, hd, reset_drains 1 0 1 (by decide) stepQueued s' hs rfl
    (steps_of_guarded _ _ _ _ _ hr) hd⟩

/-- A callback that was dispatched before the teardown pushes its step after it. -/
theorem callback_after_reset :
    ∃ s, exec (next 1) (constructed 0) (starting ++ stepping ++ [.fire 1, .begin .reset] ++
        List.replicate 13 (.call 0 true)) = some s ∧ s.calls = [] ∧ s.callback = some .add ∧
      ∃ s', exec (next 1) s [.callback, .callback] = some s' ∧ s'.task.queued = 1 := by
  refine ⟨_, rfl, ?_⟩
  refine ⟨by decide, by decide, _, rfl, by decide⟩

end State

end Espbase.MainLoopTask
