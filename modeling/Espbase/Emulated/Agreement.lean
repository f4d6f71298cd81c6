import Espbase.Emulated.Delivery
import Espbase.MainLoop.Histories

namespace Espbase.Emulated

open Espbase.Lib

namespace Recorded

section histories
variable (queueSize : Nat)

/-- Each step of the emulated loop is one of a bounded queue, or none. -/
theorem recorded_seen (t t' : Recorded) (ht : Delivering queueSize t) (l : MainLoop.Label)
    (h : t.next queueSize l = some t') :
    t'.record.history = t.record.history ∨ ∃ e, t.record.history.next queueSize e = some t'.record.history := by
  obtain ⟨hs, hr⟩ := next_eq queueSize t t' l h
  cases l with
  | push cmd =>
    right
    refine ⟨.offer cmd, ?_⟩
    rw [Fifo.next_offer queueSize _ _ ht.fifo, hr, Record.next]
    by_cases hfull : t.loop.queue.length ≥ queueSize
    · rw [if_pos hfull, if_neg (Nat.not_lt.mpr hfull)]
    · rw [if_neg hfull, if_pos (Nat.lt_of_not_le hfull)]
  | worker =>
    rw [hr, Record.next]
    cases hw : t.loop.worker with
    | lock =>
      cases hq : t.loop.queue with
      | nil =>
        left
        simp
      | cons cmd queue =>
        right
        refine ⟨.take, ?_⟩
        rw [Fifo.next_take queueSize _ _ ht.fifo, hq]
        rfl
    | execute cmd | clearBusy | notifyIdle | waiting | stopped => exact .inl rfl
  | notifyOne w | beginRun | run i | beginIdle | idle i | destroy | spurious w | spuriousIdle i =>
    left
    rw [hr]
    rfl

/-- Between two commands, with the worker awake. -/
structure Ready (t : Recorded) : Prop where
  delivering : Delivering queueSize t
  worker : t.loop.worker = .lock

/-- The emulated loop can take each step of a bounded queue. -/
theorem recorded_shown (t : Recorded) (ht : Ready queueSize t) (e : Fifo.Event AppCommand)
    (r : Fifo AppCommand) (h : t.record.history.next queueSize e = some r) :
    ∃ t', Steps (next queueSize) (fun _ _ => True) t t' ∧ Ready queueSize t' ∧ t'.record.history = r := by
  have hreached (t' : Recorded) (ls : List MainLoop.Label) (hexec : exec (next queueSize) t ls = some t')
      (hw : t'.loop.worker = .lock) (hr : t'.record.history = r) :
      ∃ t', Steps (next queueSize) (fun _ _ => True) t t' ∧ Ready queueSize t' ∧ t'.record.history = r := by
    have hsteps := steps_of_exec (next queueSize) (fun _ => True) t t' ls (fun _ _ => trivial) hexec
    have ht' : Delivering queueSize t' := hsteps.invariant _ _ (Delivering queueSize) _ _ ht.delivering
      fun u l u' hu _ hn => delivering_next queueSize u u' hu l hn
    exact ⟨t', hsteps, ⟨ht', hw⟩, hr⟩
  have hfifo := ht.delivering.fifo
  cases e with
  | offer cmd =>
    rw [Fifo.next_offer queueSize _ _ hfifo] at h
    refine hreached ⟨t.loop.pushFunc queueSize cmd, t.record.next queueSize t.loop (.push cmd)⟩ [.push cmd] rfl ?_ ?_
    · rw [MainLoop.pushFunc]
      split_ifs <;> exact ht.worker
    · dsimp only
      rw [Record.next]
      by_cases hfull : t.loop.queue.length ≥ queueSize
      · rw [if_neg (Nat.not_lt.mpr hfull)] at h
        rw [if_pos hfull, ← Option.some.inj h]
      · rw [if_pos (Nat.lt_of_not_le hfull)] at h
        rw [if_neg hfull, ← Option.some.inj h]
  | take =>
    rw [Fifo.next_take queueSize _ _ hfifo] at h
    cases hq : t.loop.queue with
    | nil =>
      rw [hq] at h
      cases h
    | cons cmd queue =>
      rw [hq] at h
      have hw := ht.worker
      -- the worker takes the command, executes it, and is at its mutex again
      refine hreached ⟨{ t.loop with queue, busy := false, waitIdle := t.loop.waitIdle.map MainLoop.woken },
        ⟨{ t.record.history with taken := t.record.history.taken ++ [cmd] },
          t.record.executed ++ [cmd].filter AppCommand.called⟩⟩ (List.replicate 4 .worker) ?_ hw (Option.some.inj h)
      simp [exec, next, MainLoop.next, MainLoop.step, hw, hq, Record.next]

/-- The histories of the emulated loop are those of a bounded queue. -/
theorem record_iff (r : Fifo AppCommand) :
    (∃ t, Steps (next queueSize) (fun _ _ => True) start t ∧ t.record.history = r) ↔
      Steps (Fifo.next queueSize) (fun _ _ => True) .empty r := by
  constructor
  · rintro ⟨t, run, rfl⟩
    exact (run.seen _ _ (Fifo.next queueSize) (fun t => t.record.history) (Delivering queueSize)
      (fun t l t' ht _ hn => ⟨delivering_next queueSize t t' ht l hn, recorded_seen queueSize t t' ht l hn⟩)
      _ _ (start_delivering queueSize)).2
  · intro run
    obtain ⟨t, hrun, -, ht⟩ := run.shown (next queueSize) (fun _ _ => True) (Fifo.next queueSize)
      (fun t => t.record.history) (Ready queueSize) (fun t e r ht he => recorded_shown queueSize t ht e r he)
      start r ⟨start_delivering queueSize, rfl⟩
    exact ⟨t, hrun, ht⟩

end histories

end Recorded

/-- A command of the device, with its pointers as pointers of the host. -/
def onHost (cmd : Espbase.MainLoop.AppCommand) : AppCommand := ⟨cmd.arg.toNat, cmd.execute.toNat⟩

def onDevice (cmd : AppCommand) : Espbase.MainLoop.AppCommand :=
  ⟨UInt32.ofNat cmd.object, UInt32.ofNat cmd.execute⟩

theorem onDevice_onHost (cmd : Espbase.MainLoop.AppCommand) : onDevice (onHost cmd) = cmd := by
  simp [onDevice, onHost]

/-- The emulated loop is the device's: of the same commands the same can enter the queue, find it full and be
taken, in the same order. -/
theorem emulation_agrees (capacity : Nat) (rate : UInt32) (memory : List Espbase.MainLoop.AppCommand)
    (r : Fifo Espbase.MainLoop.AppCommand) :
    (∃ t, Steps (Recorded.next capacity) (fun _ _ => True) .start t ∧ t.record.history = r.map onHost) ↔
      ∃ d, Steps (Espbase.MainLoop.Delivered.next capacity rate) (fun _ _ => True) (.start memory) d ∧
        d.history = r := by
  have hback : (r.map onHost).map onDevice = r := by
    simp only [Fifo.map, List.map_map]
    have hid : onDevice ∘ onHost = id := funext onDevice_onHost
    simp only [hid, List.map_id]
  rw [Recorded.record_iff, Espbase.MainLoop.history_iff]
  refine ⟨fun h => ?_, Fifo.steps_map onHost capacity r⟩
  rw [← hback]
  exact Fifo.steps_map onDevice capacity _ h

end Espbase.Emulated
