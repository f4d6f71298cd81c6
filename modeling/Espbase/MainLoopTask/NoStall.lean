import Espbase.MainLoopTask.System
import Mathlib.Tactic.SplitIfs
import Mathlib.Tactic.Tauto

namespace Espbase.MainLoopTask

open Espbase.Lib

/-- A start that has claimed the task and not yet made its timer. -/
def Call.BeforeTimer : Call → Prop
  | .start .clearStop => True
  | .start .clearTerminate => True
  | .start .version => True
  | .start .count => True
  | .start .sem => True
  | .start .semCreate => True
  | .start (.semStore _) => True
  | .start .semCheck => True
  | .start .timerCreate => True
  | _ => False

/-- A caller that is on its way to a push. -/
def Call.WillPush : Call → Prop
  | .stop (.kick _) => True
  | .notify (.kick _) => True
  | .start .add => True
  | .start .push => True
  | c => c.BeforeTimer

namespace State

/-- Running, not told to terminate, and the sequence has not come to its end. -/
def Active (s : State) : Prop :=
  s.task.running = true ∧ s.task.terminateRequested = false ∧ s.task.sequenceVersion ≠ 0

/-- Something other than the main loop carries the sequence to its next step: a queued step, an
armed timer, a dispatched callback or a caller on its way to a push. -/
def Waiting (s : State) : Prop :=
  0 < s.task.queued ∨ s.task.armed ≠ [] ∨ s.callback.isSome ∨ ∃ c ∈ s.calls, c.WillPush

/-- Every push finds room, what a start creates can be created, and there is no reset. -/
def Delivered (capacity : Nat) (s : State) : Label → Prop
  | .begin e => e ≠ .reset
  | .call i ok =>
    match s.calls[i]? with
    | some (.stop (.kick .push)) => s.task.queue.length < capacity
    | some (.notify (.kick .push)) => s.task.queue.length < capacity
    | some (.start .push) => s.task.queue.length < capacity
    | some (.start .semCreate) => ok = true
    | some (.start .timerCreate) => ok = true
    | _ => True
  | .callback => s.callback = some .push → s.task.queue.length < capacity
  | _ => True

instance (s : State) : Decidable s.Active := inferInstanceAs (Decidable (_ ∧ _ ∧ _))

instance (capacity : Nat) (s : State) : (l : Label) → Decidable (s.Delivered capacity l)
  | .begin e => inferInstanceAs (Decidable (e ≠ .reset))
  | .callback => inferInstanceAs (Decidable (s.callback = some .push → s.task.queue.length < capacity))
  | .fire _ | .receive | .step _ | .post => .isTrue trivial
  | .call i ok => by
    dsimp only [Delivered]
    generalize s.calls[i]? = c
    rcases c with - | pc | pc | pc | pc
    · exact .isTrue trivial
    · rcases pc with - | - | - | pc
      · exact .isTrue trivial
      · exact .isTrue trivial
      · exact .isTrue trivial
      · cases pc <;> dsimp only <;> infer_instance
    · rcases pc with - | - | - | - | - | pc
      · exact .isTrue trivial
      · exact .isTrue trivial
      · exact .isTrue trivial
      · exact .isTrue trivial
      · exact .isTrue trivial
      · cases pc <;> dsimp only <;> infer_instance
    · exact .isTrue trivial
    · cases pc <;> dsimp only <;> infer_instance

end State

/-- A call of such a run: no teardown, and a start that has its semaphore where it needs it. -/
def Call.Plain (t : Task) : Call → Prop
  | .reset _ => False
  | .start .undo => False
  | .start (.fail _) => False
  | .start (.semStore h) => h.isSome
  | .start .semCheck => t.joinSem.isSome
  | _ => True

/-- What a step of a call keeps: the handles stay, an armed timer is stopped only on the way to a
push, and a sequence is made active only on the way to one. -/
structure Keeps (t t' : Task) (c : Call) (c' : Option Call) : Prop where
  terminate : t.terminateRequested = false → t'.terminateRequested = false
  deleted : t'.deleted = t.deleted
  timer : t.timerHandle.isSome → t'.timerHandle.isSome
  sem : t.joinSem.isSome → t'.joinSem.isSome
  queued : t.queued ≤ t'.queued
  armed : t'.armed = t.armed ∨ ∃ d ∈ c', d.WillPush
  pushes : c.WillPush → 0 < t'.queued ∨ ∃ d ∈ c', d.WillPush
  makes : c.BeforeTimer → t'.timerHandle.isSome ∨ ∃ d ∈ c', d.BeforeTimer
  running : t'.running = t.running ∨ ∃ d ∈ c', d.BeforeTimer
  version : t'.sequenceVersion = t.sequenceVersion ∨ ∃ d ∈ c', d.WillPush
  plain : ∀ d ∈ c', d.Plain t'

theorem Call.BeforeTimer.willPush (c : Call) (h : c.BeforeTimer) : c.WillPush := by
  cases c with
  | start pc => cases pc <;> trivial
  | _ => exact h.elim

theorem push_queued (capacity : Nat) (t : Task) :
    t.queued ≤ (t.push capacity .appLoopStep).queued ∧
      (t.queue.length < capacity → 0 < (t.push capacity .appLoopStep).queued) := by
  unfold Task.push Task.queued
  split
  · simp
  · exact ⟨Nat.le_refl _, fun h => absurd h ‹_›⟩

/-- The end of a call leaves the flags and the handles, and either goes on or has pushed. -/
structure Kicked (t t' : Task) (pc' : Option KickPc) : Prop where
  terminate : t'.terminateRequested = t.terminateRequested
  deleted : t'.deleted = t.deleted
  timer : t'.timerHandle = t.timerHandle
  sem : t'.joinSem = t.joinSem
  running : t'.running = t.running
  version : t'.sequenceVersion = t.sequenceVersion
  queued : t.queued ≤ t'.queued
  armed : t'.armed = t.armed ∨ pc'.isSome
  pushes : 0 < t'.queued ∨ pc'.isSome

theorem timerStop_deleted (t : Task) (h : Option Nat) : (t.timerStop h).deleted = t.deleted := by
  cases h with
  | none => rfl
  | some h =>
    simp only [Task.timerStop]
    split <;> rfl

theorem kick_kicked (capacity : Nat) (t : Task) (pc : KickPc)
    (h : pc = .push → t.queue.length < capacity) :
    Kicked t (pc.step capacity t).1 (pc.step capacity t).2 := by
  cases pc with
  | push =>
    have hq := push_queued capacity t
    have hp : t.push capacity .appLoopStep = { t with queue := t.queue ++ [.appLoopStep] } :=
      if_pos (h rfl)
    refine ⟨?_, ?_, ?_, ?_, ?_, ?_, hq.1, .inl ?_, .inl (hq.2 (h rfl))⟩ <;>
      simp only [KickPc.step, hp]
  | stop h' =>
    have hs := t.timerStop_same h'
    exact ⟨hs.terminateRequested, timerStop_deleted t h', hs.timerHandle, hs.joinSem, hs.running,
      hs.sequenceVersion, by simp only [Task.queued, KickPc.step, hs.queue, Nat.le_refl], .inr rfl,
      .inr rfl⟩
  | _ => exact ⟨rfl, rfl, rfl, rfl, rfl, rfl, Nat.le_refl _, .inl rfl, .inr rfl⟩

/-- The same, as a step of the call that `f` makes of its end. -/
theorem Kicked.keeps (t t' : Task) (pc : KickPc) (pc' : Option KickPc) (f : KickPc → Call)
    (h : Kicked t t' pc') (hf : ∀ q, (f q).WillPush ∧ (f q).Plain t')
    (hb : ¬ (f pc).BeforeTimer) : Keeps t t' (f pc) (pc'.map f) := by
  have hc : pc'.isSome → ∃ d ∈ pc'.map f, d.WillPush := by
    intro hs
    obtain ⟨q, rfl⟩ := Option.isSome_iff_exists.mp hs
    exact ⟨f q, rfl, (hf q).1⟩
  refine ⟨fun ht => h.terminate.trans ht, h.deleted, fun ht => by rwa [h.timer],
    fun hs => by rwa [h.sem], h.queued, h.armed.imp_right hc, fun _ => h.pushes.imp_right hc,
    fun h => absurd h hb, .inl h.running, .inl h.version, ?_⟩
  intro d hd
  obtain ⟨q, -, rfl⟩ := Option.map_eq_some_iff.mp hd
  exact (hf q).2

/-- A step that changes no member a sequence depends on. -/
theorem Keeps.quiet (t t' : Task) (c : Call) (c' : Option Call)
    (ht : t' = { t with stopRequested := t'.stopRequested, inflightCount := t'.inflightCount })
    (hp : c.WillPush → ∃ d ∈ c', d.WillPush) (hm : c.BeforeTimer → ∃ d ∈ c', d.BeforeTimer)
    (hc : ∀ d ∈ c', d.Plain t') : Keeps t t' c c' := by
  rw [ht]
  exact ⟨id, rfl, id, id, Nat.le_refl _, .inl rfl, fun h => .inr (hp h), fun h => .inr (hm h),
    .inl rfl, .inl rfl, ht ▸ hc⟩

theorem plain_stop (t : Task) (pc : Option StopPc) : ∀ d ∈ pc.map Call.stop, d.Plain t := by
  intro d hd
  obtain ⟨q, -, rfl⟩ := Option.map_eq_some_iff.mp hd
  trivial

theorem plain_notify (t : Task) (pc : Option NotifyPc) :
    ∀ d ∈ pc.map Call.notify, d.Plain t := by
  intro d hd
  obtain ⟨q, -, rfl⟩ := Option.map_eq_some_iff.mp hd
  trivial

theorem keeps_stop (capacity : Nat) (t : Task) (pc : StopPc)
    (h : pc = .kick .push → t.queue.length < capacity) :
    Keeps t (pc.step capacity t).1 (.stop pc) ((pc.step capacity t).2.map .stop) := by
  cases pc with
  | kick pc =>
    have hk := kick_kicked capacity t pc fun hp => h (by rw [hp])
    have := hk.keeps t _ pc _ (.stop ∘ .kick) (fun q => ⟨trivial, trivial⟩) not_false
    simpa [StopPc.step] using this
  | _ => exact .quiet _ _ _ _ rfl nofun nofun (plain_stop _ _)

theorem keeps_notify (capacity : Nat) (spurious : Bool) (t : Task) (pc : NotifyPc)
    (h : pc = .kick .push → t.queue.length < capacity) :
    Keeps t (pc.step capacity spurious t).1 (.notify pc)
      ((pc.step capacity spurious t).2.map .notify) := by
  cases pc with
  | kick pc =>
    have hk := kick_kicked capacity t pc fun hp => h (by rw [hp])
    have := hk.keeps t _ pc _ (.notify ∘ .kick) (fun q => ⟨trivial, trivial⟩) not_false
    simpa [NotifyPc.step] using this
  | exchange prev =>
    simp only [NotifyPc.step]
    split_ifs with hx
    · -- the sequence may become active here, and the call goes on to its push
      exact ⟨id, rfl, id, id, Nat.le_refl _, .inl rfl, nofun, nofun, .inl rfl,
        .inr ⟨.notify (.kick .timer), rfl, trivial⟩, plain_notify _ _⟩
    · exact .quiet _ _ _ _ rfl nofun nofun (plain_notify _ _)
  | _ => exact .quiet _ _ _ _ rfl nofun nofun (plain_notify _ _)

theorem keeps_start (capacity : Nat) (ok : Bool) (t : Task) (pc : StartPc)
    (r : Task × Option StartPc) (hp : (Call.start pc).Plain t)
    (hpush : pc = .push → t.queue.length < capacity)
    (hok : pc = .semCreate ∨ pc = .timerCreate → ok = true)
    (h : pc.step capacity ok t = some r) : Keeps t r.1 (.start pc) (r.2.map .start) := by
  have on (t' : Task) (q : StartPc) (ht : t' = { t with
        stopRequested := t'.stopRequested, inflightCount := t'.inflightCount })
      (hb : (Call.start q).BeforeTimer) (hq : (Call.start q).Plain t') :
      Keeps t t' (.start pc) (some (.start q)) :=
    .quiet _ _ _ _ ht (fun _ => ⟨_, rfl, hb.willPush⟩) (fun _ => ⟨_, rfl, hb⟩)
      (by rintro _ ⟨⟩; exact hq)
  cases pc <;> simp only [StartPc.step, Option.some.injEq] at h
  case fail pc => exact hp.elim
  case undo => exact hp.elim
  case claim =>
    subst h
    by_cases hr : t.running = true
    · simp only [hr, if_true, Option.map_none]
      exact ⟨id, rfl, id, id, Nat.le_refl _, .inl rfl, nofun, nofun, .inl hr.symm, .inl rfl, nofun⟩
    · simp only [hr]
      exact ⟨id, rfl, id, id, Nat.le_refl _, .inl rfl, nofun, nofun, .inr ⟨_, rfl, trivial⟩,
        .inl rfl, by rintro _ ⟨⟩; trivial⟩
  case clearStop => subst h; exact on _ _ rfl trivial trivial
  case clearTerminate =>
    subst h
    exact ⟨fun _ => rfl, rfl, id, id, Nat.le_refl _, .inl rfl, fun _ => .inr ⟨_, rfl, trivial⟩,
      fun _ => .inr ⟨_, rfl, trivial⟩, .inl rfl, .inl rfl, by rintro _ ⟨⟩; trivial⟩
  case version =>
    subst h
    exact ⟨id, rfl, id, id, Nat.le_refl _, .inl rfl, fun _ => .inr ⟨_, rfl, trivial⟩,
      fun _ => .inr ⟨_, rfl, trivial⟩, .inl rfl, .inr ⟨_, rfl, trivial⟩, by rintro _ ⟨⟩; trivial⟩
  case count => subst h; exact on _ _ rfl trivial trivial
  case sem =>
    subst h
    split_ifs
    · exact on _ _ rfl trivial trivial
    · exact on _ _ rfl trivial trivial
  case semCreate =>
    rw [if_pos (hok (.inl rfl))] at h
    obtain rfl := Option.some.inj h
    exact ⟨id, rfl, id, id, Nat.le_refl _, .inl rfl, fun _ => .inr ⟨_, rfl, trivial⟩,
      fun _ => .inr ⟨_, rfl, trivial⟩, .inl rfl, .inl rfl, by rintro _ ⟨⟩; rfl⟩
  case semStore h' =>
    subst h
    exact ⟨id, rfl, id, fun _ => hp, Nat.le_refl _, .inl rfl, fun _ => .inr ⟨_, rfl, trivial⟩,
      fun _ => .inr ⟨_, rfl, trivial⟩, .inl rfl, .inl rfl, by rintro _ ⟨⟩; exact hp⟩
  case semCheck =>
    subst h
    rw [if_pos (show t.joinSem.isSome = true from hp)]
    exact on _ _ rfl trivial trivial
  case timerCreate =>
    rw [if_pos (hok (.inr rfl))] at h
    obtain rfl := Option.some.inj h
    exact ⟨id, rfl, fun _ => rfl, id, Nat.le_refl _, .inl rfl, fun _ => .inr ⟨_, rfl, trivial⟩,
      fun _ => .inl rfl, .inl rfl, .inl rfl, by rintro _ ⟨⟩; trivial⟩
  case add =>
    subst h
    exact .quiet _ _ _ _ rfl (fun _ => ⟨_, rfl, trivial⟩) nofun (by rintro _ ⟨⟩; trivial)
  case push =>
    subst h
    have hq := push_queued capacity t
    have hf : t.push capacity .appLoopStep = { t with queue := t.queue ++ [.appLoopStep] } :=
      if_pos (hpush rfl)
    simp only [if_pos (hpush rfl), Option.map_none]
    rw [hf] at hq ⊢
    exact ⟨id, rfl, id, id, hq.1, .inl rfl, fun _ => .inl (hq.2 (hpush rfl)), nofun, .inl rfl,
      .inl rfl, nofun⟩

namespace State

/-- One step of a call in such a run. -/
theorem keeps_call (capacity i : Nat) (ok : Bool) (s : State) (c : Call) (r : Task × Option Call)
    (hc : s.calls[i]? = some c) (hp : c.Plain s.task) (hl : s.Delivered capacity (.call i ok))
    (h : c.step capacity ok s.task = some r) : Keeps s.task r.1 c r.2 := by
  simp only [Delivered, hc] at hl
  cases c with
  | stop pc =>
    obtain rfl := Option.some.inj h
    exact keeps_stop capacity s.task pc fun hk => by subst hk; exact hl
  | notify pc =>
    obtain rfl := Option.some.inj h
    exact keeps_notify capacity (!ok) s.task pc fun hk => by subst hk; exact hl
  | reset pc => exact hp.elim
  | start pc =>
    simp only [Call.step, Option.map_eq_some_iff] at h
    obtain ⟨q, hq, rfl⟩ := h
    exact keeps_start capacity ok s.task pc q hp (fun hk => by subst hk; exact hl)
      (by rintro (rfl | rfl) <;> exact hl) hq

end State

/-- Where the step restarts the timer, it has one. -/
def StepPc.Restarts (t : Task) : StepPc → Prop
  | .stopArg => t.timerHandle.isSome
  | .stop _ => t.timerHandle.isSome
  | .startArg => t.timerHandle.isSome
  | .startOnce h => h.isSome
  | _ => True

/-- The running step carries the sequence itself: it has yet to sample the version, or the version
it sampled is still the current one, or it is about to restart the timer. -/
def StepPc.Carries (t : Task) : StepPc → Prop
  | .terminate v => t.sequenceVersion = v
  | .stopRequested v => t.sequenceVersion = v
  | .onStop v => t.sequenceVersion = v
  | .deactivate v => t.sequenceVersion = v
  | .onStep v => t.sequenceVersion = v
  | .decrement => False
  | .exitTerminate => False
  | .exitSem => False
  | .giveArg => False
  | .give _ => False
  | _ => True

namespace State

structure Carried (s : State) : Prop where
  terminate : s.task.terminateRequested = false
  deleted : s.task.deleted = []
  plain : ∀ c ∈ s.calls, c.Plain s.task
  timer : s.task.running = true → s.task.timerHandle.isSome ∨ ∃ c ∈ s.calls, c.BeforeTimer
  restarts : ∀ pc ∈ s.loop, pc.Restarts s.task
  token : s.Active → s.Waiting ∨ ∃ pc ∈ s.loop, pc.Carries s.task

end State

theorem Call.Plain.mono (t t' : Task) (c : Call) (h : c.Plain t)
    (hs : t.joinSem.isSome → t'.joinSem.isSome) : c.Plain t' := by
  cases c with
  | start pc => cases pc <;> first | exact hs h | exact h
  | _ => exact h

theorem StepPc.Restarts.mono (t t' : Task) (pc : StepPc) (h : pc.Restarts t)
    (ht : t.timerHandle.isSome → t'.timerHandle.isSome) : pc.Restarts t' := by
  cases pc <;> first | exact ht h | exact h

theorem StepPc.Carries.congr (t t' : Task) (pc : StepPc) (h : pc.Carries t)
    (hv : t'.sequenceVersion = t.sequenceVersion) : pc.Carries t' := by
  cases pc <;> first | exact hv.trans h | exact h

namespace State

theorem carried_call (capacity i : Nat) (ok : Bool) (s s' : State) (hs : s.Carried)
    (hl : s.Delivered capacity (.call i ok)) (h : s.next capacity (.call i ok) = some s') :
    s'.Carried := by
  obtain ⟨c, task, c', hc, hr, rfl⟩ := next_call capacity s s' i ok h
  have hcp := hs.plain c (List.mem_of_getElem? hc)
  have k := keeps_call capacity i ok s c _ hc hcp hl hr
  obtain ⟨before, after, hcalls, hnew⟩ := pool_split s.calls i c hc c'
  simp only at k
  -- a call of the new pool is the one that moved, or one that was there
  have new (P : Call → Prop) (hd : ∃ d ∈ c', P d) :
      ∃ d ∈ s.calls.take i ++ c'.toList ++ s.calls.drop (i + 1), P d := by
    obtain ⟨d, hd, hp⟩ := hd
    exact ⟨d, by rw [hnew]; simp [Option.mem_def.mp hd], hp⟩
  have old (P : Call → Prop) (d : Call) (hd : d ∈ s.calls) (hp : P d) (hne : d ≠ c) :
      ∃ d ∈ s.calls.take i ++ c'.toList ++ s.calls.drop (i + 1), P d := by
    refine ⟨d, ?_, hp⟩
    rw [hcalls] at hd
    rw [hnew]
    simp only [List.mem_append, List.mem_cons] at hd ⊢
    tauto
  have waits : s.Waiting → State.Waiting
      ⟨task, s.calls.take i ++ c'.toList ++ s.calls.drop (i + 1), s.callback, s.loop⟩ := by
    rintro (hq | ha | hcb | ⟨d, hd, hw⟩)
    · exact .inl (Nat.lt_of_lt_of_le hq k.queued)
    · rcases k.armed with he | hp
      · exact .inr (.inl (by rwa [he]))
      · exact .inr (.inr (.inr (new _ hp)))
    · exact .inr (.inr (.inl hcb))
    · by_cases hdc : d = c
      · subst hdc
        rcases k.pushes hw with hq | hp
        · exact .inl hq
        · exact .inr (.inr (.inr (new _ hp)))
      · exact .inr (.inr (.inr (old _ d hd hw hdc)))
  refine ⟨k.terminate hs.terminate, k.deleted.trans hs.deleted, ?_, ?_,
    fun pc hpc => (hs.restarts pc hpc).mono _ _ _ k.timer, ?_⟩
  · intro d hd
    simp only [hnew, List.mem_append] at hd
    rcases hd with (hd | hd) | hd
    · exact (hs.plain d (by simp [hcalls, hd])).mono _ _ _ k.sem
    · exact k.plain d (Option.mem_toList.mp hd)
    · exact (hs.plain d (by simp [hcalls, hd])).mono _ _ _ k.sem
  · intro hrun
    rcases k.running with he | hb
    · rcases hs.timer (he.symm.trans hrun) with ht | ⟨d, hd, hb⟩
      · exact .inl (k.timer ht)
      · by_cases hdc : d = c
        · subst hdc
          exact (k.makes hb).imp_right (new _)
        · exact .inr (old _ d hd hb hdc)
    · exact .inr (new _ hb)
  · intro ha
    rcases k.version with hv | hp
    · rcases k.running with he | ⟨d, hd, hb⟩
      · have hact : s.Active := ⟨he.symm.trans ha.1, hs.terminate, fun hz => ha.2.2 (hv.trans hz)⟩
        rcases hs.token hact with hw | ⟨pc, hpc, hcar⟩
        · exact .inl (waits hw)
        · exact .inr ⟨pc, hpc, hcar.congr _ _ _ hv⟩
      · exact .inl (.inr (.inr (.inr (new _ ⟨d, hd, hb.willPush⟩))))
    · exact .inl (.inr (.inr (.inr (new _ hp))))

/-- A step by neither the calls nor the main loop. -/
theorem Carried.beside (s s' : State) (hs : s.Carried) (hc : s'.calls = s.calls)
    (hl : s'.loop = s.loop) (hr : s'.task.running = s.task.running)
    (ht : s'.task.terminateRequested = s.task.terminateRequested)
    (hv : s'.task.sequenceVersion = s.task.sequenceVersion)
    (hd : s'.task.deleted = s.task.deleted) (hh : s'.task.timerHandle = s.task.timerHandle)
    (hj : s'.task.joinSem = s.task.joinSem) (hw : s.Waiting → s'.Waiting) : s'.Carried := by
  refine ⟨ht.trans hs.terminate, hd.trans hs.deleted, ?_, ?_, ?_, ?_⟩
  · rw [hc]
    exact fun c h => (hs.plain c h).mono _ _ _ (by rw [hj]; exact id)
  · rw [hc, hr, hh]
    exact hs.timer
  · rw [hl]
    exact fun pc h => (hs.restarts pc h).mono _ _ _ (by rw [hh]; exact id)
  · rintro ⟨har, -, hav⟩
    rw [hl]
    exact (hs.token ⟨hr ▸ har, hs.terminate, hv ▸ hav⟩).imp hw
      fun ⟨pc, hpc, hcar⟩ => ⟨pc, hpc, hcar.congr _ _ _ hv⟩

theorem carried_callback (capacity : Nat) (s : State) (pc : KickPc) (hs : s.Carried)
    (hl : pc = .push → s.task.queue.length < capacity) :
    Carried { s with
      task := (pc.step capacity s.task).1, callback := (pc.step capacity s.task).2 } := by
  have k := kick_kicked capacity s.task pc hl
  refine hs.beside s ⟨_, s.calls, _, s.loop⟩ rfl rfl k.running k.terminate k.version k.deleted
    k.timer k.sem ?_
  rintro (hq | ha | - | hd)
  · exact .inl (Nat.lt_of_lt_of_le hq k.queued)
  · exact k.armed.elim (fun he => .inr (.inl (by rwa [he]))) fun h => .inr (.inr (.inl h))
  · exact k.pushes.elim .inl fun h => .inr (.inr (.inl h))
  · exact .inr (.inr (.inr hd))

theorem carried_receive (s : State) (c : Command) (queue : List Command) (hs : s.Carried)
    (hl : s.loop = none) (hq : s.task.queue = c :: queue) :
    Carried { s with
      task := { s.task with queue }, loop := if c = .appLoopStep then some .version else none } := by
  refine ⟨hs.terminate, hs.deleted, hs.plain, hs.timer, ?_, ?_⟩
  · cases c <;> simp [StepPc.Restarts]
  · intro ha
    cases c with
    | appLoopStep => exact .inr ⟨.version, rfl, trivial⟩
    | other =>
      rcases hs.token ha with (hw | hw) | ⟨pc, hpc, -⟩
      · exact .inl (.inl (by simpa [Task.queued, hq] using hw))
      · exact .inl (.inr hw)
      · rw [hl] at hpc
        cases hpc

theorem timerStartOnce_armed (t : Task) (h : Option Nat) (hs : h.isSome) (hd : t.deleted = []) :
    (t.timerStartOnce h).armed ≠ [] ∧ (t.timerStartOnce h).deleted = [] := by
  obtain ⟨h, rfl⟩ := Option.isSome_iff_exists.mp hs
  simp only [Task.timerStartOnce, hd, List.not_mem_nil, if_false]
  split_ifs with ha
  · exact ⟨List.ne_nil_of_mem ha, hd⟩
  · exact ⟨List.cons_ne_nil _ _, rfl⟩

theorem semGive_deleted (t : Task) (h : Option Nat) : (t.semGive h).deleted = t.deleted ∧
    (t.semGive h).armed = t.armed := by
  cases h with
  | none => exact ⟨rfl, rfl⟩
  | some h =>
    simp only [Task.semGive]
    split_ifs <;> exact ⟨rfl, rfl⟩

/-- The main loop's own step, when it leaves the members and what else carries the sequence. -/
theorem Carried.loopStep (s : State) (hs : s.Carried) (t' : Task) (loop : Option StepPc)
    (hm : s.task.SameMembers t') (hd : t'.deleted = []) (hr : ∀ pc ∈ loop, pc.Restarts s.task)
    (hw : s.Active → (s.Waiting ∧ t'.armed = s.task.armed) ∨ t'.armed ≠ [] ∨
      ∃ pc ∈ loop, pc.Carries s.task) :
    Carried { s with task := t', loop } := by
  refine ⟨hm.terminateRequested.trans hs.terminate, hd, ?_, ?_, ?_, ?_⟩
  · exact fun c h => (hs.plain c h).mono _ _ _ (by rw [hm.joinSem]; exact id)
  · rw [hm.running, hm.timerHandle]
    exact hs.timer
  · exact fun pc h => (hr pc h).mono _ _ _ (by rw [hm.timerHandle]; exact id)
  · rintro ⟨har, -, hav⟩
    have hact : s.Active := ⟨hm.running ▸ har, hs.terminate, hm.sequenceVersion ▸ hav⟩
    rcases hw hact with ⟨hq | ha | hc | hp, he⟩ | ha | ⟨pc, hpc, hcar⟩
    · exact .inl (.inl (by simpa only [Task.queued, hm.queue] using hq))
    · exact .inl (.inr (.inl (by rwa [he])))
    · exact .inl (.inr (.inr (.inl hc)))
    · exact .inl (.inr (.inr (.inr hp)))
    · exact .inl (.inr (.inl ha))
    · exact .inr ⟨pc, hpc, hcar.congr _ _ _ hm.sequenceVersion⟩

/-- While the sampled version is current or something else carries the sequence, so it stays. -/
theorem Carried.token_of (s : State) (hs : s.Carried) (pc : StepPc) (hpc : s.loop = some pc)
    (ha : s.Active) : s.Waiting ∨ pc.Carries s.task := by
  rcases hs.token ha with hw | ⟨q, hq, hc⟩
  · exact .inl hw
  · rw [hpc] at hq
    obtain rfl := Option.some.inj hq
    exact .inr hc

theorem carried_step (delay : Bool) (s : State) (pc : StepPc) (hs : s.Carried)
    (hpc : s.loop = some pc) :
    Carried { s with task := (pc.step delay s.task).1, loop := (pc.step delay s.task).2 } := by
  have hr := hs.restarts pc hpc
  have htok := hs.token_of s pc hpc
  have on (loop : Option StepPc) (hr : ∀ q ∈ loop, q.Restarts s.task)
      (hc : s.Active → s.Waiting ∨ ∃ q ∈ loop, q.Carries s.task) :
      Carried { s with task := s.task, loop } :=
    hs.loopStep s s.task loop (.refl _) hs.deleted hr
      fun ha => (hc ha).elim (fun h => .inl ⟨h, rfl⟩) fun h => .inr (.inr h)
  have onto (q : StepPc) (hr : q.Restarts s.task) (hc : pc.Carries s.task → q.Carries s.task) :
      Carried { s with task := s.task, loop := some q } :=
    on _ (by rintro _ ⟨⟩; exact hr) fun ha => (htok ha).imp_right fun h => ⟨q, rfl, hc h⟩
  have leaves (loop : Option StepPc) (hr : ∀ q ∈ loop, q.Restarts s.task)
      (hc : s.Active → ¬ pc.Carries s.task) : Carried { s with task := s.task, loop } :=
    on _ hr fun ha => .inl ((htok ha).resolve_right (hc ha))
  cases pc with
  | version =>
    exact on _ (by rintro _ ⟨⟩; trivial) fun _ => .inr ⟨_, rfl, rfl⟩
  | terminate v =>
    simp only [StepPc.step, hs.terminate, Bool.false_eq_true, false_or]
    split_ifs with hv
    · exact leaves _ (by rintro _ ⟨⟩; trivial) fun ha hc => ha.2.2 (hc.trans hv)
    · exact onto _ trivial id
  | stopRequested v =>
    simp only [StepPc.step]
    split_ifs
    · exact onto _ trivial id
    · exact onto _ trivial id
  | onStop v => exact onto _ trivial id
  | deactivate v =>
    simp only [StepPc.step]
    split_ifs with hv
    · refine ⟨hs.terminate, hs.deleted, hs.plain, hs.timer, by rintro _ ⟨⟩; trivial, ?_⟩
      rintro ⟨-, -, hz⟩
      exact absurd rfl hz
    · exact leaves _ (by rintro _ ⟨⟩; trivial) fun _ hc => hv hc
  | onStep v =>
    simp only [StepPc.step]
    split_ifs
    · exact onto _ trivial fun _ => trivial
    · exact onto _ trivial id
  | delayTerminate =>
    simp only [StepPc.step, hs.terminate]
    exact onto _ trivial id
  | delayTimer =>
    simp only [StepPc.step]
    split_ifs with ht
    · exact onto _ ht id
    · -- the start that is still to make the timer goes on to its push
      refine on _ (by rintro _ ⟨⟩; trivial) fun ha => .inl ?_
      obtain ⟨c, hc, hb⟩ := (hs.timer ha.1).resolve_left ht
      exact .inr (.inr (.inr ⟨c, hc, hb.willPush⟩))
  | stopArg => exact onto _ hr id
  | stop h =>
    exact hs.loopStep s _ _ (s.task.timerStop_same h) ((timerStop_deleted _ h).trans hs.deleted)
      (by rintro _ ⟨⟩; exact hr) fun _ => .inr (.inr ⟨_, rfl, trivial⟩)
  | startArg => exact onto _ hr fun _ => trivial
  | startOnce h =>
    have ha := timerStartOnce_armed s.task h hr hs.deleted
    exact hs.loopStep s _ _ (s.task.timerStartOnce_same h) ha.2 (by rintro _ ⟨⟩; trivial)
      fun _ => .inr (.inl ha.1)
  | decrement =>
    simp only [StepPc.step]
    have h := leaves (if s.task.inflightCount = 1 then some .exitTerminate else none)
      (by split_ifs <;> rintro _ ⟨⟩; trivial) fun _ hc => hc
    exact ⟨h.terminate, h.deleted, h.plain, h.timer, h.restarts, h.token⟩
  | exitTerminate =>
    simp only [StepPc.step, hs.terminate]
    exact leaves _ nofun fun _ hc => hc
  | exitSem =>
    simp only [StepPc.step]
    split_ifs
    · exact onto _ trivial id
    · exact leaves _ nofun fun _ hc => hc
  | giveArg => exact onto _ trivial id
  | give h =>
    have hg := semGive_deleted s.task h
    exact hs.loopStep s _ _ (s.task.semGive_same h) (hg.1.trans hs.deleted) nofun
      fun ha => .inl ⟨(htok ha).resolve_right id, hg.2⟩

theorem carried_next (capacity : Nat) (s : State) (l : Label) (s' : State) (hs : s.Carried)
    (hl : s.Delivered capacity l) (h : s.next capacity l = some s') : s'.Carried := by
  cases l with
  | begin e =>
    obtain rfl := Option.some.inj h
    have hp (t : Task) : e.call.Plain t := by
      cases e with
      | reset => exact absurd rfl hl
      | _ => trivial
    refine ⟨hs.terminate, hs.deleted, ?_, ?_, hs.restarts, ?_⟩
    · intro c hc
      rcases List.mem_append.mp hc with hc | hc
      · exact hs.plain c hc
      · obtain rfl := List.mem_singleton.mp hc
        exact hp _
    · intro hr
      exact (hs.timer hr).imp_right fun ⟨c, hc, hb⟩ => ⟨c, List.mem_append_left _ hc, hb⟩
    · intro ha
      apply (hs.token ha).imp_left
      rintro (hq | hq | hq | ⟨c, hc, hw⟩)
      · exact .inl hq
      · exact .inr (.inl hq)
      · exact .inr (.inr (.inl hq))
      · exact .inr (.inr (.inr ⟨c, List.mem_append_left _ hc, hw⟩))
  | call i ok => exact carried_call capacity i ok s s' hs hl h
  | fire h' =>
    obtain ⟨-, -, rfl⟩ := next_fire capacity s s' h' h
    exact hs.beside s ⟨_, s.calls, _, s.loop⟩ rfl rfl rfl rfl rfl rfl rfl rfl
      fun _ => .inr (.inr (.inl rfl))
  | callback =>
    obtain ⟨pc, hpc, rfl⟩ := next_callback capacity s s' h
    exact carried_callback capacity s pc hs fun hp => hl (by rw [hpc, hp])
  | receive =>
    obtain ⟨hf, c, queue, hq, rfl⟩ := next_receive capacity s s' h
    exact carried_receive s c queue hs hf hq
  | step delay =>
    obtain ⟨pc, hpc, rfl⟩ := next_step capacity s s' delay h
    exact carried_step delay s pc hs hpc
  | post =>
    obtain ⟨queue, rfl, hq⟩ := next_post capacity s s' h
    refine hs.beside s ⟨_, s.calls, s.callback, s.loop⟩ rfl rfl rfl rfl rfl rfl rfl rfl ?_
    rintro (hw | hw)
    · exact .inl (Nat.lt_of_lt_of_eq hw hq.symm)
    · exact .inr hw

theorem constructed_carried (commands : Nat) : (constructed commands).Carried :=
  ⟨rfl, rfl, nofun, nofun, nofun, fun h => absurd h.1 Bool.false_ne_true⟩

/-- In a run whose pushes find room, a sequence that is active has a queued or running step, an
armed timer or a caller on its way to a push, in every state. -/
theorem active_carried (capacity commands : Nat) (s : State)
    (run : Steps (next capacity) (Delivered capacity) (constructed commands) s) (ha : s.Active) :
    0 < s.task.queued ∨ s.loop.isSome ∨ s.task.armed ≠ [] ∨ s.callback.isSome ∨
      ∃ c ∈ s.calls, c.WillPush := by
  have h : s.Carried := run.invariant _ _ Carried _ _ (constructed_carried commands)
    fun t l t' ht hl hn => carried_next capacity t l t' ht hl hn
  rcases h.token ha with (hq | hw) | ⟨pc, hpc, -⟩
  · exact .inl hq
  · exact .inr (.inr hw)
  · exact .inr (.inl (Option.isSome_of_mem hpc))

/-- Between two steps the timer carries the sequence. -/
theorem active_carried_delayed :
    ∃ s, exec (guarded (next 1) (Delivered 1)) (constructed 0) (starting ++ stepping) = some s ∧
      s.Active ∧ (0 < s.task.queued ∨ s.loop.isSome ∨ s.task.armed ≠ [] ∨ s.callback.isSome ∨
        ∃ c ∈ s.calls, c.WillPush) := by
  have h : ∃ s, exec (guarded (next 1) (Delivered 1)) (constructed 0) (starting ++ stepping) =
      some s ∧ s.Active := ⟨_, rfl, by decide⟩
  obtain ⟨s, hs, ha⟩ := h
  exact ⟨s, hs, ha, active_carried 1 0 s (steps_of_guarded _ _ _ _ _ hs) ha⟩

/-- `notify` on a full queue stops the timer and then fails to push. -/
theorem notify_stalls :
    ∃ s, exec (next 1) (constructed 0) (starting ++ stepping ++
        .post :: .begin (.notify true) :: List.replicate 10 (.call 0 true)) = some s ∧
      s.Active ∧ s.task.queued = 0 ∧ s.loop = none ∧ s.task.armed = [] ∧ s.callback = none ∧
      s.calls = [] := by
  refine ⟨_, rfl, ?_⟩
  decide

end State

end Espbase.MainLoopTask
