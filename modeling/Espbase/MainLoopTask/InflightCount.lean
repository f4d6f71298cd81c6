import Espbase.MainLoopTask.System
import Mathlib.Algebra.Order.Group.Nat
import Mathlib.Tactic.SplitIfs

namespace Espbase.MainLoopTask

open Espbase.Lib

/-- The count a caller has made and not yet passed on: it stands before its push. -/
def KickPc.credit : KickPc → Nat
  | .push => 1
  | _ => 0

def Call.credit : Call → Nat
  | .stop (.kick pc) => pc.credit
  | .notify (.kick pc) => pc.credit
  | .start .push => 1
  | .start .undo => 1
  | _ => 0

/-- A step counts until it has taken itself off. -/
def StepPc.credit : StepPc → Nat
  | .exitTerminate => 0
  | .exitSem => 0
  | .giveArg => 0
  | .give _ => 0
  | _ => 1

namespace State

/-- The steps queued, the step executing, and the callers between their increment and their push. -/
def outstanding (s : State) : Nat :=
  s.task.queued + (s.loop.map StepPc.credit).getD 0 + (s.callback.map KickPc.credit).getD 0 +
    (s.calls.map Call.credit).sum

def Exact (s : State) : Prop := s.task.inflightCount.toNat = s.outstanding

/-- An increment does not wrap the counter, a push finds room. -/
def KickFits (capacity : Nat) (s : State) (pc : KickPc) : Prop :=
  (pc = .add → s.task.inflightCount.toNat + 1 < 2 ^ 32) ∧
    (pc = .push → s.task.queue.length < capacity)

/-- The pushes of `notify`, `politely_request_stop` and the timer's callback find room, and
`start_internal` zeroes the counter only while nothing is outstanding. -/
def Counted (capacity : Nat) (s : State) : Label → Prop
  | .call i _ =>
    match s.calls[i]? with
    | some (.stop (.kick pc)) => s.KickFits capacity pc
    | some (.notify (.kick pc)) => s.KickFits capacity pc
    | some (.start .add) => s.task.inflightCount.toNat + 1 < 2 ^ 32
    | some (.start .count) => s.outstanding = 0
    | _ => True
  | .callback => ∀ pc, s.callback = some pc → s.KickFits capacity pc
  | _ => True

instance (capacity : Nat) (s : State) (pc : KickPc) : Decidable (s.KickFits capacity pc) :=
  inferInstanceAs (Decidable (_ ∧ _))

instance (capacity : Nat) (s : State) (l : Label) : Decidable (s.Counted capacity l) := by
  unfold Counted
  cases l
  case call i ok => dsimp only; split <;> infer_instance
  case callback => dsimp only; infer_instance
  all_goals dsimp only; infer_instance

end State

/-- A change of the task, by someone whose credit goes from `c` to `c'`, that keeps the counter
exact. -/
def Balanced (t t' : Task) (c c' : Nat) : Prop :=
  t'.inflightCount.toNat + t.queued + c = t.inflightCount.toNat + t'.queued + c'

theorem Balanced.same (t t' : Task) (c : Nat) (h : t.SameMembers t') : Balanced t t' c c := by
  unfold Balanced Task.queued
  rw [h.inflightCount, h.queue]

theorem Balanced.refl (t : Task) (c : Nat) : Balanced t t c c := rfl

theorem balanced_fetchAdd (t : Task) (h : t.inflightCount.toNat + 1 < 2 ^ 32) :
    Balanced t t.fetchAdd 0 1 := by
  have hn : (t.inflightCount + 1).toNat = t.inflightCount.toNat + 1 := by
    rw [UInt32.toNat_add]
    exact Nat.mod_eq_of_lt h
  change (t.inflightCount + 1).toNat + t.queued + 0 = t.inflightCount.toNat + t.queued + 1
  omega

theorem balanced_fetchSub (t : Task) (h : 1 ≤ t.inflightCount.toNat) :
    Balanced t t.fetchSub 1 0 := by
  have hn : (t.inflightCount - 1).toNat = t.inflightCount.toNat - 1 :=
    UInt32.toNat_sub_of_le _ _ (UInt32.le_iff_toNat_le.mpr h)
  change (t.inflightCount - 1).toNat + t.queued + 1 = t.inflightCount.toNat + t.queued + 0
  omega

theorem balanced_push (capacity : Nat) (t : Task) (h : t.queue.length < capacity) :
    Balanced t (t.push capacity .appLoopStep) 1 0 := by
  have hq : (t.push capacity .appLoopStep).queued = t.queued + 1 := by
    rw [Task.push, if_pos h]
    simp [Task.queued]
  have hi : (t.push capacity .appLoopStep).inflightCount = t.inflightCount := by
    rw [Task.push, if_pos h]
  unfold Balanced
  rw [hq, hi]
  omega

theorem balanced_kick (capacity : Nat) (s : State) (pc : KickPc) (h : s.KickFits capacity pc) :
    Balanced s.task (pc.step capacity s.task).1 pc.credit
      (((pc.step capacity s.task).2.map KickPc.credit).getD 0) := by
  cases pc with
  | timer =>
    by_cases ht : s.task.timerHandle.isSome
    · simp [KickPc.step, ht, KickPc.credit, Balanced]
    · simp [KickPc.step, ht, KickPc.credit, Balanced]
  | arg => exact .refl _ _
  | stop h => exact .same _ _ _ (Task.timerStop_same _ _)
  | add => exact balanced_fetchAdd _ (h.1 rfl)
  | push => exact balanced_push _ _ (h.2 rfl)

theorem balanced_reset (ok : Bool) (t : Task) (pc : ResetPc) (r : Task × Option ResetPc)
    (h : pc.step ok t = some r) : Balanced t r.1 0 0 := by
  cases pc <;> simp only [ResetPc.step, Option.some.injEq, Option.map_eq_some_iff] at h
  case take h' =>
    obtain ⟨t', ht, rfl⟩ := h
    exact .same _ _ _ (t.semTake_same t' ok h' ht)
  all_goals subst h
  case stop h' => exact .same _ _ _ (t.timerStop_same h')
  case delete h' => exact .same _ _ _ (t.timerDelete_same h')
  case semDelete h' => exact .same _ _ _ (t.semDelete_same h')
  all_goals rfl

theorem balanced_start (capacity : Nat) (ok : Bool) (t : Task) (pc : StartPc)
    (r : Task × Option StartPc) (h : pc.step capacity ok t = some r)
    (hadd : pc = .add → t.inflightCount.toNat + 1 < 2 ^ 32)
    (hcount : pc = .count → t.inflightCount = 0)
    (hundo : pc = .undo → 1 ≤ t.inflightCount.toNat) :
    Balanced t r.1 (Call.start pc).credit ((r.2.map (Call.credit ∘ .start)).getD 0) := by
  cases pc <;> simp only [StartPc.step, Option.some.injEq, Option.map_eq_some_iff] at h
  case fail pc =>
    obtain ⟨q, hq, rfl⟩ := h
    have := balanced_reset ok t pc q hq
    cases hc : q.2 <;> simpa [hc, Call.credit] using this
  case semCreate =>
    split_ifs at h <;> obtain rfl := Option.some.inj h <;> rfl
  case timerCreate =>
    split_ifs at h <;> obtain rfl := Option.some.inj h <;> rfl
  all_goals subst h
  case add => exact balanced_fetchAdd t (hadd rfl)
  case undo => exact balanced_fetchSub t (hundo rfl)
  case count =>
    have hz := hcount rfl
    simp [Balanced, Call.credit, Task.queued, hz]
  case push =>
    by_cases hq : t.queue.length < capacity
    · simpa [hq, Call.credit] using balanced_push capacity t hq
    · simp [hq, Call.credit, Balanced, Task.push]
  all_goals first | rfl | (split_ifs <;> rfl)

theorem balanced_step (delay : Bool) (t : Task) (pc : StepPc)
    (h : 1 ≤ pc.credit → 1 ≤ t.inflightCount.toNat) :
    Balanced t (pc.step delay t).1 pc.credit (((pc.step delay t).2.map StepPc.credit).getD 0) := by
  cases pc
  case decrement =>
    have hb := balanced_fetchSub t (h le_rfl)
    simp only [StepPc.step]
    split_ifs <;> exact hb
  case deactivate v =>
    simp only [StepPc.step]
    split_ifs <;> rfl
  case stop h' => exact .same _ _ _ (t.timerStop_same h')
  case startOnce h' => exact .same _ _ _ (t.timerStartOnce_same h')
  case give h' => exact .same _ _ _ (t.semGive_same h')
  all_goals first | rfl | (simp only [StepPc.step]; split_ifs <;> rfl)

namespace State

theorem credit_le_outstanding (s : State) (i : Nat) (c : Call) (h : s.calls[i]? = some c) :
    c.credit ≤ s.outstanding := by
  have := pool_sum s.calls i c h none Call.credit
  simp only [Option.map_none, Option.getD_none] at this
  unfold outstanding
  omega

/-- What one call does, with what the condition promises. -/
theorem balanced_call (capacity i : Nat) (ok : Bool) (s : State) (c : Call) (r : Task × Option Call)
    (hs : s.Exact) (hc : s.calls[i]? = some c) (hl : s.Counted capacity (.call i ok))
    (h : c.step capacity ok s.task = some r) :
    Balanced s.task r.1 c.credit ((r.2.map Call.credit).getD 0) := by
  have hle := s.credit_le_outstanding i c hc
  rw [← hs] at hle
  simp only [Counted, hc] at hl
  cases c with
  | stop pc =>
    cases pc <;> simp only [Call.step, StopPc.step, Option.some.injEq] at h <;> subst h
    case kick pc =>
      have := balanced_kick capacity s pc hl
      cases hk : (pc.step capacity s.task).2 <;> simpa [hk, Call.credit] using this
    all_goals first | rfl | (split_ifs <;> rfl)
  | notify pc =>
    cases pc <;> simp only [Call.step, NotifyPc.step, Option.some.injEq] at h <;> subst h
    case kick pc =>
      have := balanced_kick capacity s pc hl
      cases hk : (pc.step capacity s.task).2 <;> simpa [hk, Call.credit] using this
    all_goals first | rfl | (split_ifs <;> rfl)
  | reset pc =>
    simp only [Call.step, Option.map_eq_some_iff] at h
    obtain ⟨q, hq, rfl⟩ := h
    have := balanced_reset ok s.task pc q hq
    cases hk : q.2 <;> simpa [hk, Call.credit] using this
  | start pc =>
    simp only [Call.step, Option.map_eq_some_iff] at h
    obtain ⟨q, hq, rfl⟩ := h
    have := balanced_start capacity ok s.task pc q hq (fun hp => by subst hp; exact hl)
      (fun hp => ?_) (fun hp => by subst hp; exact hle)
    · cases hk : q.2 <;> simpa [hk] using this
    · subst hp
      exact UInt32.toNat_inj.mp (hs.trans hl)

theorem exact_call (capacity i : Nat) (ok : Bool) (s s' : State) (hs : s.Exact)
    (hl : s.Counted capacity (.call i ok)) (h : s.next capacity (.call i ok) = some s') :
    s'.Exact := by
  obtain ⟨c, task, c', hc, hr, rfl⟩ := next_call capacity s s' i ok h
  have hb := balanced_call capacity i ok s c _ hs hc hl hr
  have hp := pool_sum s.calls i c hc c' Call.credit
  unfold Exact outstanding at hs ⊢
  unfold Balanced at hb
  simp only at hb ⊢
  omega

/-- One step keeps the counter exact. -/
theorem exact_next (capacity : Nat) (s : State) (l : Label) (s' : State) (hs : s.Exact)
    (hl : s.Counted capacity l) (h : s.next capacity l = some s') : s'.Exact := by
  cases l with
  | begin e =>
    obtain rfl := Option.some.inj h
    have he : e.call.credit = 0 := by cases e <;> rfl
    simpa [Exact, outstanding, he] using hs
  | call i ok => exact exact_call capacity i ok s s' hs hl h
  | fire h' =>
    obtain ⟨hc, -, rfl⟩ := next_fire capacity s s' h' h
    simpa [Exact, outstanding, hc, KickPc.credit, Task.queued] using hs
  | callback =>
    obtain ⟨pc, hpc, rfl⟩ := next_callback capacity s s' h
    have hb := balanced_kick capacity s pc (hl pc hpc)
    simp only [Exact, outstanding, hpc, Option.map_some, Option.getD_some, Balanced] at hs hb ⊢
    omega
  | receive =>
    obtain ⟨hf, c, queue, hq, rfl⟩ := next_receive capacity s s' h
    unfold Exact outstanding Task.queued at hs ⊢
    cases c <;> simp [hf, hq, StepPc.credit] at hs ⊢ <;> omega
  | step delay =>
    obtain ⟨pc, hpc, rfl⟩ := next_step capacity s s' delay h
    simp only [Exact, outstanding, hpc, Option.map_some, Option.getD_some] at hs ⊢
    have hb := balanced_step delay s.task pc (by omega)
    unfold Balanced at hb
    omega
  | post =>
    obtain ⟨queue, rfl, hq⟩ := next_post capacity s s' h
    simpa [Exact, outstanding, Task.queued, hq] using hs

theorem constructed_exact (commands : Nat) : (constructed commands).Exact := by
  simp [Exact, outstanding, constructed, Task.constructed, Task.queued, List.count_replicate]

/-- In a run whose pushes find room and whose starts find nothing outstanding, the counter is the
number of outstanding steps in every state. -/
theorem inflightCount_exact (capacity commands : Nat) (s : State)
    (run : Steps (next capacity) (Counted capacity) (constructed commands) s) :
    s.task.inflightCount.toNat = s.outstanding :=
  run.invariant _ _ Exact _ _ (constructed_exact commands)
    fun t l t' ht hl hn => exact_next capacity t l t' ht hl hn

theorem inflightCount_exact_started :
    ∃ s, exec (guarded (next 1) (Counted 1)) (constructed 0) starting = some s ∧
      s.task.inflightCount.toNat = s.outstanding := by
  have h : ∃ s, exec (guarded (next 1) (Counted 1)) (constructed 0) starting = some s :=
    Option.isSome_iff_exists.mp (by decide)
  obtain ⟨s, hs⟩ := h
  exact ⟨s, hs, inflightCount_exact 1 0 s (steps_of_guarded _ _ _ _ _ hs)⟩

/-- `notify` on a full queue leaves its count behind. -/
theorem notify_leaks_count :
    ∃ s, exec (next 1) (constructed 0)
        (starting ++ .begin (.notify true) :: List.replicate 10 (.call 0 true)) = some s ∧
      s.calls = [] ∧ s.task.inflightCount.toNat = 2 ∧ s.outstanding = 1 := by
  refine ⟨_, rfl, ?_⟩
  decide

end State

end Espbase.MainLoopTask
