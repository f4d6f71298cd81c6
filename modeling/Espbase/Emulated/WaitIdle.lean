import Espbase.Emulated.Delivery

namespace Espbase.Emulated

open Espbase.Lib

namespace MainLoop

/-- No push and no destructor, and the worker is not woken by chance. -/
def Label.calm : Label → Bool
  | .push _ => false
  | .destroy => false
  | .spurious .worker => false
  | _ => true

/-- The worker is left waiting beside a command, and a call waits for it to be idle. -/
structure Stuck (s : MainLoop) (i : Nat) : Prop where
  worker : s.worker = .waiting
  queue : s.queue ≠ []
  notifying : s.notifying = 0
  waits : s.waits i = true

section stuck
variable (queueSize : Nat) (s s' : MainLoop) (i : Nat)

theorem set_waits (h : s.waits i = true) (j : Nat) (pc : CallerPc) (hpc : pc.pending = true) :
    ({ s with waitIdle := s.waitIdle.set j pc } : MainLoop).waits i = true := by
  obtain ⟨pc', hpc', hp⟩ := (Option.any_eq_true _ _).mp h
  rw [waits, List.getElem?_set]
  split_ifs with hij hj
  · exact hpc
  · rw [← hij, List.getElem?_eq_none (by omega)] at hpc'
    cases hpc'
  · rw [hpc']
    exact hp

theorem append_waits (h : s.waits i = true) :
    ({ s with waitIdle := s.waitIdle ++ [.lock] } : MainLoop).waits i = true := by
  obtain ⟨pc, hpc, hp⟩ := (Option.any_eq_true _ _).mp h
  rw [waits, List.getElem?_append_left (List.getElem?_eq_some_iff.mp hpc).1, hpc]
  exact hp

theorem stuck_next (hs : s.Stuck i) (l : Label) (hl : l.calm = true) (h : s.next queueSize l = some s') :
    s'.Stuck i := by
  cases l with
  | push cmd => cases hl
  | destroy => cases hl
  | notifyOne w =>
    simp only [next, hs.notifying] at h
    cases h
  | worker =>
    simp only [next, step, hs.worker] at h
    cases h
  | beginRun =>
    rw [← Option.some.inj h]
    exact ⟨hs.worker, hs.queue, hs.notifying, hs.waits⟩
  | run j =>
    simp only [next, Option.bind_eq_bind, Option.bind_eq_some_iff, Option.some.injEq] at h
    obtain ⟨pc, -, pc', -, rfl⟩ := h
    exact ⟨hs.worker, hs.queue, hs.notifying, hs.waits⟩
  | beginIdle =>
    rw [← Option.some.inj h]
    exact ⟨hs.worker, hs.queue, hs.notifying, append_waits s i hs.waits⟩
  | idle j =>
    obtain ⟨-, rfl⟩ := check_idle s s' j h
    have hempty : s.queue.isEmpty = false := by simp [hs.queue]
    rw [hempty, Bool.false_and]
    exact ⟨hs.worker, hs.queue, hs.notifying, set_waits s i hs.waits j _ rfl⟩
  | spurious w =>
    cases w with
    | worker => cases hl
    | runForever j =>
      rw [wake_runForever s s' j h]
      exact ⟨hs.worker, hs.queue, hs.notifying, hs.waits⟩
  | spuriousIdle j =>
    simp only [next] at h
    split_ifs at h
    rw [← Option.some.inj h]
    exact ⟨hs.worker, hs.queue, hs.notifying, set_waits s i hs.waits j _ rfl⟩

end stuck

end MainLoop

namespace Recorded

section waitIdle
variable (queueSize : Nat)

/-- A call of `wait_idle` returns where the worker has nothing to do. -/
theorem idle_returns (t : Recorded) (ht : Delivering queueSize t) (hq : t.loop.queue = [])
    (hw : t.loop.worker.notifies = false) (i : Nat) (hi : t.loop.waits i = true) :
    ∃ t', t.next queueSize (.idle i) = some t' ∧ t'.loop.waitIdle[i]? = some .returned := by
  obtain ⟨pc, hpc, hp⟩ := (Option.any_eq_true _ _).mp hi
  have hbusy : t.loop.busy = false := by
    rw [ht.busy]
    cases hworker : t.loop.worker <;> rw [hworker] at hw <;> first | rfl | cases hw
  have hlock : pc = .lock := by
    cases pc with
    | lock => rfl
    | returned => cases hp
    | waiting =>
      rcases ht.idle (List.mem_of_getElem? hpc) with hne | hne
      · exact absurd hq hne
      · cases hne.symm.trans hw
  subst hlock
  refine ⟨⟨{ t.loop with waitIdle := t.loop.waitIdle.set i .returned }, t.record⟩, ?_, ?_⟩
  · simp [next, MainLoop.next, hpc, MainLoop.CallerPc.check, hq, hbusy, Record.next]
  · rw [List.getElem?_set_self (List.getElem?_eq_some_iff.mp hpc).1]

/-- As long as the loop is not destroyed and the worker is served, a call of `wait_idle` comes to its end. -/
theorem served_returns (t : Recorded) (run : Steps (next queueSize) (fun _ _ => True) start t)
    (hd : t.loop.destructor = .stop) (hs : t.loop.Served) (i : Nat) (hi : t.loop.waits i = true) :
    ∃ t', Steps (next queueSize) (fun _ l => l.calm = true) t t' ∧ t'.loop.waitIdle[i]? = some .returned := by
  have hinv : Delivering queueSize t ∧ Ending t.loop :=
    run.invariant _ _ (fun t => Delivering queueSize t ∧ Ending t.loop) _ _
      ⟨start_delivering queueSize, MainLoop.constructed_ending⟩ fun u l u' hu _ hn =>
      ⟨delivering_next queueSize u u' hu.1 l hn,
        MainLoop.ending_next queueSize u.loop u'.loop hu.2 l (next_eq queueSize u u' l hn).1⟩
  have hstopped : t.loop.worker ≠ .stopped := by
    intro hw
    exact hinv.2.stopRequested.mp (hinv.2.stopped hw) hd
  -- with a worker that does not wait: it works, then the call finds nothing left
  have hworks (u : Recorded) (hu : Delivering queueSize u) (hwaits : u.loop.worker ≠ .waiting)
      (hstopped : u.loop.worker ≠ .stopped) (hi : u.loop.waits i = true) :
      ∃ u', Steps (next queueSize) (fun _ l => l.calm = true) u u' ∧ u'.loop.waitIdle[i]? = some .returned := by
    obtain ⟨v, hexec, hq, hw, hsettles⟩ := drain queueSize u.loop.work u hwaits hstopped rfl
    have hcalm : ∀ l ∈ List.replicate u.loop.work MainLoop.Label.worker, l.calm = true := by
      intro l hl
      rw [List.eq_of_mem_replicate hl]
      rfl
    have hsteps := steps_of_exec (next queueSize) (fun l => l.calm = true) u v _ hcalm hexec
    have hv : Delivering queueSize v :=
      hsteps.invariant _ _ (Delivering queueSize) _ _ hu fun w l w' hw _ hn => delivering_next queueSize w w' hw l hn
    obtain ⟨v', hidle, hreturned⟩ := idle_returns queueSize v hv hq (by rw [hw]; rfl) i (hsettles.idle i hi)
    exact ⟨v', .snoc v v' (.idle i) hsteps rfl hidle, hreturned⟩
  by_cases hwaits : t.loop.worker = .waiting
  · by_cases hq : t.loop.queue = []
    · obtain ⟨t', hidle, hreturned⟩ := idle_returns queueSize t hinv.1 hq (by rw [hwaits]; rfl) i hi
      exact ⟨t', .snoc t t' (.idle i) .refl rfl hidle, hreturned⟩
    · have hn : 0 < t.loop.notifying := Nat.pos_of_ne_zero fun hn => hs hq hn hwaits
      obtain ⟨u, hnext, hu⟩ : ∃ u, t.next queueSize (.notifyOne (some .worker)) = some u ∧
          u.loop = { t.loop with worker := .lock, notifying := t.loop.notifying - 1 } := by
        refine ⟨⟨_, t.record⟩, ?_, rfl⟩
        simp [next, MainLoop.next, MainLoop.notifyOne, MainLoop.wake, hn, hwaits, Record.next]
      have hdelivering := delivering_next queueSize t u hinv.1 _ hnext
      obtain ⟨u', hsteps, hreturned⟩ := hworks u hdelivering (by simp [hu]) (by simp [hu])
        (by rw [hu]; exact hi)
      exact ⟨u', .trans _ _ t u u' (.snoc t u (.notifyOne (some .worker)) .refl rfl hnext) hsteps, hreturned⟩
  · exact hworks t hinv.1 hwaits hstopped hi

end waitIdle

/-- A call of `wait_idle` returns only when all that has entered the queue has been executed; and it can return,
without another push, if and only if the worker has not been left waiting beside a command. -/
theorem waitIdle_ends_iff (queueSize : Nat) (t : Recorded)
    (run : Steps (next queueSize) (fun _ _ => True) start t) (i : Nat) (hi : t.loop.waits i = true) :
    (∀ t', t.next queueSize (.idle i) = some t' → t'.loop.waitIdle[i]? = some .returned →
      t'.record.executed = t'.record.history.entered.filter AppCommand.called) ∧
    (t.loop.destructor = .stop →
      ((∃ t', Steps (next queueSize) (fun _ l => l.calm = true) t t' ∧ t'.loop.waitIdle[i]? = some .returned) ↔
        t.loop.Served)) := by
  have ht : Delivering queueSize t := run.invariant _ _ (Delivering queueSize) _ _ (start_delivering queueSize)
    fun u l u' hu _ hn => delivering_next queueSize u u' hu l hn
  refine ⟨fun t' hnext hreturned => ?_, fun hd => ⟨?_, fun hs => served_returns queueSize t run hd hs i hi⟩⟩
  · have ht' := delivering_next queueSize t t' ht (.idle i) hnext
    obtain ⟨hpc, hs⟩ := MainLoop.check_idle _ _ i (next_eq queueSize t t' _ hnext).1
    rw [hs, List.getElem?_set_self (List.getElem?_eq_some_iff.mp hpc).1, Option.some.injEq] at hreturned
    have hidle : (t.loop.queue.isEmpty && !t.loop.busy) = true := by
      by_contra hc
      rw [if_neg hc] at hreturned
      cases hreturned
    rw [Bool.and_eq_true, List.isEmpty_iff, Bool.not_eq_true'] at hidle
    have hcommand : t.loop.worker.command = [] := by
      have hb := ht.busy.symm.trans hidle.2
      cases hw : t.loop.worker <;> rw [hw] at hb <;> first | rfl | cases hb
    refine executed_all t' ht' ?_ ?_
    · rw [hs]
      exact hidle.1
    · rw [hs]
      exact hcommand
  · rintro ⟨t', hsteps, hreturned⟩ hq hn hw
    have hstuck : t'.loop.Stuck i := hsteps.invariant _ _ (fun u => u.loop.Stuck i) _ _ ⟨hw, hq, hn, hi⟩
      fun u l u' hu hl hnext => MainLoop.stuck_next queueSize _ _ i hu l hl (next_eq queueSize u u' l hnext).1
    have hwaits := hstuck.waits
    rw [MainLoop.waits, hreturned] at hwaits
    cases hwaits

/-- A command is in the queue, its notification is on the way, and a call waits. -/
def poking : List MainLoop.Label := [.worker, .push ⟨1, 1⟩, .beginIdle, .idle 0]

theorem waitIdle_ends_iff_poking :
    ∃ t t', exec (guarded (next 128) fun _ _ => True) start poking = some t ∧ t.loop.waitIdle[0]? = some .waiting ∧
      Steps (next 128) (fun _ l => l.calm = true) t t' ∧ t'.loop.waitIdle[0]? = some .returned := by
  have hrun : (exec (guarded (next 128) fun _ _ => True) start poking).any (fun t =>
      t.loop.waitIdle[0]? = some .waiting ∧ t.loop.destructor = .stop ∧ t.loop.notifying = 1) = true := by decide
  obtain ⟨t, ht, hp⟩ := (Option.any_eq_true _ _).mp hrun
  obtain ⟨hwaiting, hd, hn⟩ := of_decide_eq_true hp
  have hi : t.loop.waits 0 = true := by
    rw [MainLoop.waits, hwaiting]
    rfl
  have hserved : t.loop.Served := by
    intro _ hzero
    rw [hn] at hzero
    cases hzero
  obtain ⟨t', hsteps, hreturned⟩ :=
    ((waitIdle_ends_iff 128 t (steps_of_guarded _ _ _ _ _ ht) 0 hi).2 hd).mpr hserved
  exact ⟨t, t', ht, hwaiting, hsteps, hreturned⟩

end Recorded

end Espbase.Emulated
