import Espbase.Emulated.Delivery

namespace Espbase.Emulated

open Espbase.Lib

namespace MainLoop

def Label.pushes : Label → Bool
  | .push _ => true
  | _ => false

/-- Once the destructor has begun only a command that the worker executes pushes another one. -/
def Alive (s : MainLoop) (l : Label) : Prop :=
  l.pushes = true → s.destructor = .stop ∨ s.worker.command ≠ []

instance (s : MainLoop) (l : Label) : Decidable (s.Alive l) := inferInstanceAs (Decidable (_ → _))

/-- What the worker leaves behind when it stops. -/
def Drained (s : MainLoop) : Prop := s.worker = .stopped → s.queue = []

theorem drained_next (queueSize : Nat) (s s' : MainLoop) (hs : s.Drained) (he : Ending s) (l : Label)
    (hl : s.Alive l) (h : s.next queueSize l = some s') : s'.Drained := by
  by_cases hpush : ∃ cmd, l = .push cmd
  · obtain ⟨cmd, rfl⟩ := hpush
    intro hw
    have hw : s.worker = .stopped := by
      rw [← Option.some.inj h, pushFunc] at hw
      split_ifs at hw <;> exact hw
    rcases hl rfl with hd | hc
    · exact absurd hd (he.stopRequested.mp (he.stopped hw))
    · rw [hw] at hc
      exact absurd rfl hc
  by_cases hworker : l = .worker
  · subst hworker
    intro hw
    rcases step_cases s s' h with ⟨-, hq, rfl⟩ | ⟨_, _, -, -, rfl⟩ | ⟨_, -, rfl⟩ | ⟨-, rfl⟩ | ⟨-, rfl⟩
    · exact hq
    all_goals cases hw
  have hq := next_quiet s s' queueSize l (fun cmd hl => hpush ⟨cmd, hl⟩) hworker h
  intro hw
  rw [hq.queue]
  rcases hq.worker with hsame | ⟨-, hlock⟩
  · exact hs (hsame.symm.trans hw)
  · cases hlock.symm.trans hw

end MainLoop

namespace Recorded

section destructor
variable (queueSize : Nat)

/-- A worker with nothing to do stops when the destructor waits for it, which then comes to its end. -/
theorem stop_finishes (t : Recorded) (hd : t.loop.destructor = .join) (hstop : t.loop.stopRequested = true)
    (hq : t.loop.queue = []) (hw : t.loop.worker = .lock) :
    ∃ t', exec (next queueSize) t [.worker, .destroy] = some t' ∧ t'.loop.destructor = .finished ∧
      t'.loop.worker = .stopped ∧ t'.record = t.record := by
  refine ⟨⟨{ t.loop with worker := .stopped, destructor := .finished }, t.record⟩, ?_, rfl, rfl, rfl⟩
  simp [exec, next, MainLoop.next, MainLoop.step, MainLoop.destroy, hd, hstop, hq, hw, Record.next]

end destructor

/-- In a run in which nothing else pushes while the loop is destroyed, all that has entered the queue has been
executed when the worker stops, and a destructor that waits for it comes to its end by the worker's steps alone. -/
theorem destructor_drains (queueSize : Nat) (t : Recorded)
    (run : Steps (next queueSize) (fun t l => t.loop.Alive l) start t) :
    (t.loop.worker = .stopped → t.record.executed = t.record.history.entered.filter AppCommand.called) ∧
    (t.loop.destructor = .join → ∃ n ≤ t.loop.work + 1, ∃ t',
      exec (next queueSize) t (List.replicate n .worker ++ [.destroy]) = some t' ∧
        t'.loop.destructor = .finished ∧ t'.record.history.entered = t.record.history.entered ∧
        t'.record.executed = t.record.history.entered.filter AppCommand.called) := by
  have hinv : (Delivering queueSize t ∧ Ending t.loop) ∧ t.loop.Drained :=
    run.invariant _ _ (fun t => (Delivering queueSize t ∧ Ending t.loop) ∧ t.loop.Drained) _ _
      ⟨⟨start_delivering queueSize, MainLoop.constructed_ending⟩, by rintro ⟨⟩⟩ fun u l u' hu hl hn =>
      have hnext := (next_eq queueSize u u' l hn).1
      ⟨⟨delivering_next queueSize u u' hu.1.1 l hn, MainLoop.ending_next queueSize _ _ hu.1.2 l hnext⟩,
        MainLoop.drained_next queueSize _ _ hu.2 hu.1.2 l hl hnext⟩
  obtain ⟨⟨ht, he⟩, hdrained⟩ := hinv
  have hexecuted (hw : t.loop.worker = .stopped) :
      t.record.executed = t.record.history.entered.filter AppCommand.called :=
    executed_all t ht (hdrained hw) (by rw [hw]; rfl)
  refine ⟨hexecuted, fun hd => ?_⟩
  by_cases hw : t.loop.worker = .stopped
  · refine ⟨0, Nat.zero_le _, ⟨{ t.loop with destructor := .finished }, t.record⟩, ?_, rfl, rfl, hexecuted hw⟩
    simp [exec, next, MainLoop.next, MainLoop.destroy, hd, hw, Record.next]
  · obtain ⟨u, hexec, hq, hlock, hsettles⟩ := drain queueSize t.loop.work t (he.joining hd) hw rfl
    have hsteps := steps_of_exec (next queueSize) (fun _ => True) t u _ (fun _ _ => trivial) hexec
    have hu : Delivering queueSize u ∧ Ending u.loop :=
      hsteps.invariant _ _ (fun u => Delivering queueSize u ∧ Ending u.loop) _ _ ⟨ht, he⟩ fun v l v' hv _ hn =>
        ⟨delivering_next queueSize v v' hv.1 l hn,
          MainLoop.ending_next queueSize _ _ hv.2 l (next_eq queueSize v v' l hn).1⟩
    have hjoin : u.loop.destructor = .join := hsettles.destructor.trans hd
    have hstop : u.loop.stopRequested = true := hu.2.stopRequested.mpr (by simp [hjoin])
    obtain ⟨t', hlast, hfinished, hstopped, hrecord⟩ := stop_finishes queueSize u hjoin hstop hq hlock
    have hentered := hsettles.entered
    refine ⟨t.loop.work + 1, Nat.le_refl _, t', ?_, hfinished, by rw [hrecord, hentered], ?_⟩
    · rw [List.replicate_succ', List.append_assoc, exec_append, hexec]
      exact hlast
    · rw [hrecord, ← hentered]
      exact executed_all u hu.1 hq (by rw [hlock]; rfl)

/-- The destructor begins while a command is executed, which pushes another one. -/
def destroying : List MainLoop.Label :=
  [.push ⟨1, 1⟩, .worker, .destroy, .destroy, .push ⟨2, 1⟩]

theorem destructor_drains_destroying :
    ∃ t, exec (guarded (next 128) fun t l => t.loop.Alive l) start destroying = some t ∧
      ∃ n t', exec (next 128) t (List.replicate n .worker ++ [.destroy]) = some t' ∧
        t'.loop.destructor = .finished ∧ t'.record.executed = [⟨1, 1⟩, ⟨2, 1⟩] := by
  have hrun : (exec (guarded (next 128) fun t l => t.loop.Alive l) start destroying).any
      (fun t => t.loop.destructor = .join ∧ t.record.history.entered = [⟨1, 1⟩, ⟨2, 1⟩]) = true := by decide
  obtain ⟨t, ht, hp⟩ := (Option.any_eq_true _ _).mp hrun
  obtain ⟨hd, hentered⟩ := of_decide_eq_true hp
  obtain ⟨n, -, t', hexec, hfinished, -, hexecuted⟩ :=
    (destructor_drains 128 t (steps_of_guarded _ _ _ _ _ ht)).2 hd
  refine ⟨t, ht, n, t', hexec, hfinished, ?_⟩
  rw [hexecuted, hentered]
  rfl

end Recorded

end Espbase.Emulated
