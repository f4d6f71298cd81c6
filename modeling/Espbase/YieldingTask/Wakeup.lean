import Espbase.YieldingTask.Trampoline

namespace Espbase.YieldingTask

open Espbase.Lib

/-- What is recorded beside a run. -/
structure Wakes where
  /-- another party has given the semaphore since the task last took it -/
  given : Bool
  /-- the same of each wait of the idle task, when it ended -/
  ended : List Bool
  deriving DecidableEq

def Wakes.next (w : Wakes) (s : State) : Label → Wakes
  | .loop _ ok =>
    match s.loop with
    | .wait => ⟨false, w.ended ++ [w.given]⟩
    | .waitTimer => { w with given := false }
    | .waitTicks _ => if ok then { w with given := false } else w
    | _ => w
  | .call i => if s.calls[i]? = some .give then { w with given := true } else w
  | _ => w

structure Woken where
  state : State
  wakes : Wakes
  deriving DecidableEq

namespace Woken

def next (stepFunc : Bool) (t : Woken) (l : Label) : Option Woken :=
  (t.state.next stepFunc l).map fun s => ⟨s, t.wakes.next t.state l⟩

def start (s : State) : Woken := ⟨s, false, []⟩

/-- The timer's callback gives while the task waits for the timer, or finds the token there. -/
def Timely (t : Woken) (l : Label) : Prop :=
  l = .callback → t.state.loop = .waitTimer ∨ t.state.task.syncToken = true

instance (t : Woken) (l : Label) : Decidable (t.Timely l) := inferInstanceAs (Decidable (_ → _))

/-- Unless the task waits for the timer, the token is from another party. -/
structure Sourced (t : Woken) : Prop where
  token : t.state.task.syncToken = true → t.state.loop = .waitTimer ∨ t.wakes.given = true
  ended : ∀ given ∈ t.wakes.ended, given = true

end Woken

section steps
variable (t : Task)

theorem timerStop_token (h : Bool) : (t.timerStop h).syncToken = t.syncToken := by
  unfold Task.timerStop
  split_ifs <;> rfl

theorem timerStartOnce_token (h : Bool) : (t.timerStartOnce h).syncToken = t.syncToken := by
  unfold Task.timerStartOnce
  split_ifs <;> rfl

theorem timerDelete_token (h : Bool) : (t.timerDelete h).syncToken = t.syncToken := by
  unfold Task.timerDelete
  split_ifs <;> rfl

theorem take_token (t' : Task) (h : t.take true = some t') : t.syncToken = true ∧ t'.syncToken = false := by
  unfold Task.take at h
  rw [if_pos rfl] at h
  split at h
  · rw [← Option.some.inj h]
    exact ⟨‹_›, rfl⟩
  · cases h

/-- A call leaves the token, unless it gives it. -/
theorem call_token (c : CallPc) (hc : c ≠ .give) : (c.step t).1.syncToken = t.syncToken := by
  cases c with
  | stop h => exact timerStop_token t h
  | delete h => exact timerDelete_token t h
  | give => exact absurd rfl hc
  | _ => rfl

def LoopPc.waits : LoopPc → Bool
  | .wait => true
  | .waitTimer => true
  | .waitTicks _ => true
  | _ => false

theorem loop_token (stepFunc : Bool) (delay : Option UInt32) (ok : Bool) (pc : LoopPc) (t' : Task)
    (pc' : LoopPc) (hw : pc.waits = false) (h : pc.step stepFunc delay ok t = some (t', pc')) :
    t'.syncToken = t.syncToken := by
  cases pc with
  | wait => cases hw
  | waitTimer => cases hw
  | waitTicks d => cases hw
  | stop handle =>
    obtain ⟨rfl, rfl⟩ := Prod.mk.inj (Option.some.inj h)
    exact timerStop_token t handle
  | startOnce handle d =>
    obtain ⟨rfl, rfl⟩ := Prod.mk.inj (Option.some.inj h)
    exact timerStartOnce_token t handle
  | terminated => cases h
  | _ =>
    obtain ⟨rfl, rfl⟩ := Prod.mk.inj (Option.some.inj h)
    rfl

end steps

namespace Woken

section run
variable (stepFunc : Bool) (t : Woken)

theorem sourced_loop (delay : Option UInt32) (ok : Bool) (task : Task) (loop : LoopPc) (h : Sourced t)
    (hstep : t.state.loop.step stepFunc delay ok t.state.task = some (task, loop)) :
    Sourced ⟨{ t.state with task, loop }, t.wakes.next t.state (.loop delay ok)⟩ := by
  have htaken (w : Wakes) (hw : ∀ given ∈ w.ended, given = true) (htask : task.syncToken = false) :
      Sourced ⟨{ t.state with task, loop }, w⟩ := by
    refine ⟨?_, hw⟩
    intro htoken
    cases htask.symm.trans htoken
  have hkept (hw : t.state.loop ≠ .waitTimer) (htask : task.syncToken = t.state.task.syncToken) :
      Sourced ⟨{ t.state with task, loop }, t.wakes⟩ := by
    refine ⟨?_, h.ended⟩
    intro htoken
    exact .inr ((h.token (htask.symm.trans htoken)).resolve_left hw)
  cases hloop : t.state.loop with
  | wait =>
    rw [hloop] at hstep
    obtain ⟨u, hu, hr⟩ := Option.map_eq_some_iff.mp hstep
    obtain ⟨rfl, rfl⟩ := Prod.mk.inj hr
    obtain ⟨hbefore, hafter⟩ := take_token t.state.task u hu
    have hgiven : t.wakes.given = true := (h.token hbefore).resolve_left (by rw [hloop]; exact nofun)
    rw [Wakes.next, hloop]
    apply htaken _ _ hafter
    intro given hm
    rcases List.mem_append.mp hm with hm | hm
    · exact h.ended given hm
    · rw [List.mem_singleton.mp hm]
      exact hgiven
  | waitTimer =>
    rw [hloop] at hstep
    obtain ⟨u, hu, hr⟩ := Option.map_eq_some_iff.mp hstep
    obtain ⟨rfl, rfl⟩ := Prod.mk.inj hr
    rw [Wakes.next, hloop]
    exact htaken _ h.ended (take_token t.state.task u hu).2
  | waitTicks d =>
    rw [hloop] at hstep
    obtain ⟨u, hu, hr⟩ := Option.map_eq_some_iff.mp hstep
    obtain ⟨rfl, rfl⟩ := Prod.mk.inj hr
    rw [Wakes.next, hloop]
    cases ok with
    | true => exact htaken _ h.ended (take_token t.state.task u hu).2
    | false => exact hkept (by rw [hloop]; exact nofun) (by rw [Option.some.inj hu])
  | _ =>
    have htoken := loop_token t.state.task stepFunc delay ok t.state.loop task loop
      (by rw [hloop]; rfl) hstep
    rw [Wakes.next, hloop]
    exact hkept (by rw [hloop]; exact nofun) htoken

theorem sourced_next (l : Label) (t' : Woken) (h : Sourced t) (hl : t.Timely l)
    (hn : t.next stepFunc l = some t') : Sourced t' := by
  obtain ⟨s, hs, rfl⟩ := Option.map_eq_some_iff.mp hn
  cases l with
  | loop delay ok =>
    obtain ⟨task, loop, hstep, rfl⟩ := State.next_loop stepFunc t.state s delay ok hs
    exact sourced_loop stepFunc t delay ok task loop h hstep
  | begin e =>
    obtain rfl := Option.some.inj hs
    exact ⟨h.token, h.ended⟩
  | call i =>
    obtain ⟨c, hc, rfl⟩ := State.next_call stepFunc t.state s i hs
    by_cases hg : c = .give
    · rw [Wakes.next, hc, if_pos (congrArg some hg)]
      exact ⟨fun _ => .inr rfl, h.ended⟩
    · rw [Wakes.next, hc, if_neg (fun he => hg (Option.some.inj he))]
      refine ⟨?_, h.ended⟩
      intro htoken
      exact h.token ((call_token t.state.task c hg).symm.trans htoken)
  | fire =>
    obtain rfl := State.next_fire stepFunc t.state s hs
    exact ⟨h.token, h.ended⟩
  | callback =>
    obtain rfl := State.next_callback stepFunc t.state s hs
    refine ⟨?_, h.ended⟩
    intro _
    exact (hl rfl).elim .inl h.token

/-- In a run whose callbacks are timely, a wait of the idle task ends only when another party has given the
semaphore since the task last took it. -/
theorem idle_wake_given (s : State) (hs : s.task.syncToken = false)
    (run : Steps (next stepFunc) Timely (start s) t) : ∀ given ∈ t.wakes.ended, given = true := by
  have hstart : Sourced (start s) := by
    refine ⟨?_, nofun⟩
    intro htoken
    cases hs.symm.trans htoken
  have h : Sourced t := run.invariant _ _ Sourced _ _ hstart
    fun t l t' ht hl hn => sourced_next stepFunc t l t' ht hl hn
  exact h.ended

end run

/-- A sequence with one delay, up to the wait for the timer. -/
def delaying : List Label := List.replicate 9 (.loop (some 5) true)

/-- The timer wakes the task in time; a notify ends the wait of the idle task. -/
def notified : List Label :=
  List.flatten [delaying, [.fire, .callback], List.replicate 10 (.loop none true),
    [.begin (.notify false), .call 0, .loop none true]]

theorem idle_wake_given_notified :
    ∃ t, exec (guarded (next true) Timely) (start (.created true false true)) notified = some t ∧
      t.wakes.ended.length = 1 ∧ ∀ given ∈ t.wakes.ended, given = true := by
  have hrun : (exec (guarded (next true) Timely) (start (.created true false true)) notified).any
      (fun t => t.wakes.ended.length = 1) = true := by decide
  obtain ⟨t, ht, hp⟩ := (Option.any_eq_true _ _).mp hrun
  exact ⟨t, ht, of_decide_eq_true hp,
    idle_wake_given true t (.created true false true) rfl (steps_of_guarded _ _ _ _ _ ht)⟩

/-- A notify ends the wait for the timer while the timer's callback is about to give. -/
def calledBackLate : List Label :=
  List.flatten [delaying, [.fire, .begin (.notify false), .call 0], List.replicate 10 (.loop none true),
    [.callback], List.replicate 6 (.loop none true)]

/-- The callback gives after the sequence has ended, and the task goes on to its step function again. -/
theorem late_callback_wakes :
    ∃ t, exec (next true) (start (.created true false true)) calledBackLate = some t ∧
      ¬ (∀ given ∈ t.wakes.ended, given = true) ∧ t.state.loop = .stepFunc := by
  refine ⟨_, rfl, ?_⟩
  decide

end Woken

end Espbase.YieldingTask
