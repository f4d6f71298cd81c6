import Espbase.YieldingTask.Trampoline

namespace Espbase.YieldingTask

open Espbase.Lib

/-- A place in the loop relative to an activation. -/
inductive Stage where
  | outside
  /-- the locks are being acquired -/
  | starting
  | inside
  /-- the locks are being released -/
  | ending
  deriving DecidableEq

def LoopPc.stage : LoopPc → Stage
  | .terminate isActive => if isActive then .inside else .outside
  | .active isActive => if isActive then .inside else .outside
  | .acquireSleep => .starting
  | .acquireApb => .starting
  | .stopRequested => .inside
  | .stepFunc => .inside
  | .timer _ => .inside
  | .startArg _ => .inside
  | .startOnce _ _ => .inside
  | .waitTimer => .inside
  | .stopArg => .inside
  | .stop _ => .inside
  | .waitTicks _ => .inside
  | .stopFunc _ => .inside
  | .releaseApb _ => .ending
  | .releaseSleep _ => .ending
  | .exit isActive => if isActive then .inside else .outside
  | .wait => .outside
  | .leaveApb => .outside
  | .leaveSleep => .outside
  | .giveJoin => .outside
  | .store => .outside
  | .delete => .outside
  | .terminated => .outside

/-- What is counted beside a run: activations begun, and calls of the stop function. -/
structure Count where
  activations : Nat
  stops : Nat
  deriving DecidableEq

/-- 1, where the next step begins an activation -/
def LoopPc.begins : LoopPc → Nat
  | .active false => 1
  | _ => 0

/-- 1, where the next step is the one that calls the stop function -/
def LoopPc.calls : LoopPc → Nat
  | .stopFunc _ => 1
  | _ => 0

def Count.next (stopFunc : Bool) (n : Count) (s : State) : Label → Count
  | .loop _ _ => ⟨n.activations + s.loop.begins, n.stops + if stopFunc then s.loop.calls else 0⟩
  | _ => n

structure Counted where
  state : State
  count : Count
  deriving DecidableEq

namespace Counted

def next (stepFunc stopFunc : Bool) (t : Counted) (l : Label) : Option Counted :=
  (t.state.next stepFunc l).map fun s => ⟨s, t.count.next stopFunc t.state l⟩

def start (s : State) : Counted := ⟨s, 0, 0⟩

end Counted

/-- The loop is at its beginning, and no lock is held; calls may be in progress. -/
structure State.AtStart (s : State) : Prop where
  loop : s.loop = .terminate false
  sleepLock : s.task.sleepLock.acquired = false ∧ s.task.sleepLock.held = 0
  apbLock : s.task.apbLock.acquired = false ∧ s.task.apbLock.held = 0

/-- The lock is held, if it is enabled and is to be held. -/
structure PmLock.Holds (l : PmLock) (hold : Bool) : Prop where
  acquired : l.acquired = (l.handle && hold)
  held : l.held = if l.handle && hold then 1 else 0

def PmLock.AtMostOnce (l : PmLock) : Prop := l.held = 0 ∨ (l.handle = true ∧ l.held = 1)

section locks
variable (l : PmLock)

theorem PmLock.Holds.acquire (h : l.Holds false) : l.acquireIfEnabled.Holds true := by
  have ha := h.acquired
  have hh := h.held
  rw [Bool.and_false] at ha hh
  unfold acquireIfEnabled
  cases he : l.handle with
  | false => exact ⟨by simp [ha, he], by simp [hh, he]⟩
  | true => exact ⟨by simp [ha], by simp [ha, hh]⟩

theorem PmLock.Holds.release (hold : Bool) (h : l.Holds hold) : l.release.Holds false := by
  have ha := h.acquired
  have hh := h.held
  unfold PmLock.release
  cases he : l.handle with
  | false =>
    rw [he, Bool.false_and] at ha hh
    exact ⟨by simp [ha], by simp [hh]⟩
  | true =>
    rw [he, Bool.true_and] at ha hh
    cases hold with
    | false => exact ⟨by simp [ha], by simp [ha, hh]⟩
    | true => exact ⟨by simp [ha], by simp [ha, hh]⟩

theorem PmLock.Holds.atMostOnce (hold : Bool) (h : l.Holds hold) : l.AtMostOnce := by
  have hh := h.held
  unfold PmLock.AtMostOnce
  cases he : l.handle with
  | false =>
    rw [he] at hh
    exact .inl hh
  | true =>
    rw [he] at hh
    cases hold with
    | false => exact .inl hh
    | true => exact .inr ⟨rfl, hh⟩

end locks

def LoopPc.holdsSleep : LoopPc → Bool
  | .acquireApb => true
  | .releaseApb _ => true
  | .releaseSleep _ => true
  | pc => pc.stage = .inside

def LoopPc.holdsApb : LoopPc → Bool
  | .releaseApb _ => true
  | pc => pc.stage = .inside

theorem LoopPc.holds_of_stage (pc : LoopPc) (h : pc.stage = .outside ∨ pc.stage = .inside) :
    pc.holdsSleep = decide (pc.stage = .inside) ∧ pc.holdsApb = decide (pc.stage = .inside) := by
  cases pc with
  | acquireApb => exact h.elim nofun nofun
  | releaseApb e => exact h.elim nofun nofun
  | releaseSleep e => exact h.elim nofun nofun
  | _ => exact ⟨rfl, rfl⟩

/-- The stop function is still to be called in the activation. -/
def LoopPc.owed (pc : LoopPc) : Nat := if pc.stage = .starting ∨ pc.stage = .inside then 1 else 0

section steps
variable (t t' : Task)

structure SameLocks (t t' : Task) : Prop where
  sleepLock : t'.sleepLock = t.sleepLock
  apbLock : t'.apbLock = t.apbLock

theorem timerStop_locks (h : Bool) : SameLocks t (t.timerStop h) := by
  unfold Task.timerStop
  split_ifs <;> exact ⟨rfl, rfl⟩

theorem timerStartOnce_locks (h : Bool) : SameLocks t (t.timerStartOnce h) := by
  unfold Task.timerStartOnce
  split_ifs <;> exact ⟨rfl, rfl⟩

theorem timerDelete_locks (h : Bool) : SameLocks t (t.timerDelete h) := by
  unfold Task.timerDelete
  split_ifs <;> exact ⟨rfl, rfl⟩

theorem take_locks (ok : Bool) (h : t.take ok = some t') : SameLocks t t' := by
  unfold Task.take at h
  split_ifs at h
  · rw [← Option.some.inj h]
    exact ⟨rfl, rfl⟩
  · rw [← Option.some.inj h]
    exact ⟨rfl, rfl⟩

/-- The other parties do not touch the locks. -/
theorem call_locks (c : CallPc) : SameLocks t (c.step t).1 := by
  cases c with
  | stop h => exact timerStop_locks t h
  | delete h => exact timerDelete_locks t h
  | _ => exact ⟨rfl, rfl⟩

structure Locked (t : Task) (pc : LoopPc) : Prop where
  sleepLock : t.sleepLock.Holds pc.holdsSleep
  apbLock : t.apbLock.Holds pc.holdsApb

theorem Locked.same (pc pc' : LoopPc) (h : Locked t pc) (hl : SameLocks t t')
    (hs : pc'.holdsSleep = pc.holdsSleep) (ha : pc'.holdsApb = pc.holdsApb) : Locked t' pc' := by
  refine ⟨?_, ?_⟩
  · rw [hl.sleepLock, hs]
    exact h.sleepLock
  · rw [hl.apbLock, ha]
    exact h.apbLock

theorem locked_loop (stepFunc : Bool) (delay : Option UInt32) (ok : Bool) (pc pc' : LoopPc)
    (h : Locked t pc) (hstep : pc.step stepFunc delay ok t = some (t', pc')) : Locked t' pc' := by
  cases pc with
  | acquireSleep =>
    obtain ⟨rfl, rfl⟩ := Prod.mk.inj (Option.some.inj hstep)
    exact ⟨h.sleepLock.acquire, h.apbLock⟩
  | acquireApb =>
    obtain ⟨rfl, rfl⟩ := Prod.mk.inj (Option.some.inj hstep)
    exact ⟨h.sleepLock, h.apbLock.acquire⟩
  | releaseApb e =>
    obtain ⟨rfl, rfl⟩ := Prod.mk.inj (Option.some.inj hstep)
    exact ⟨h.sleepLock, h.apbLock.release⟩
  | releaseSleep e =>
    obtain ⟨rfl, rfl⟩ := Prod.mk.inj (Option.some.inj hstep)
    cases e
    all_goals exact ⟨h.sleepLock.release, h.apbLock⟩
  | leaveApb =>
    obtain ⟨rfl, rfl⟩ := Prod.mk.inj (Option.some.inj hstep)
    exact ⟨h.sleepLock, h.apbLock.release⟩
  | leaveSleep =>
    obtain ⟨rfl, rfl⟩ := Prod.mk.inj (Option.some.inj hstep)
    exact ⟨h.sleepLock.release, h.apbLock⟩
  | startOnce handle delay =>
    obtain ⟨rfl, rfl⟩ := Prod.mk.inj (Option.some.inj hstep)
    exact h.same t _ _ _ (timerStartOnce_locks t handle) rfl rfl
  | stop handle =>
    obtain ⟨rfl, rfl⟩ := Prod.mk.inj (Option.some.inj hstep)
    exact h.same t _ _ _ (timerStop_locks t handle) rfl rfl
  | waitTimer =>
    obtain ⟨u, hu, hr⟩ := Option.map_eq_some_iff.mp hstep
    obtain ⟨rfl, rfl⟩ := Prod.mk.inj hr
    exact h.same t _ _ _ (take_locks t u true hu) rfl rfl
  | waitTicks delay =>
    obtain ⟨u, hu, hr⟩ := Option.map_eq_some_iff.mp hstep
    obtain ⟨rfl, rfl⟩ := Prod.mk.inj hr
    exact h.same t _ _ _ (take_locks t u ok hu) rfl rfl
  | wait =>
    obtain ⟨u, hu, hr⟩ := Option.map_eq_some_iff.mp hstep
    obtain ⟨rfl, rfl⟩ := Prod.mk.inj hr
    exact h.same t _ _ _ (take_locks t u true hu) rfl rfl
  | active isActive =>
    obtain ⟨rfl, rfl⟩ := Prod.mk.inj (Option.some.inj hstep)
    apply h.same t t _ _ ⟨rfl, rfl⟩
    all_goals cases isActive <;> rfl
  | exit isActive =>
    obtain ⟨rfl, rfl⟩ := Prod.mk.inj (Option.some.inj hstep)
    apply h.same t t _ _ ⟨rfl, rfl⟩
    all_goals cases isActive <;> rfl
  | giveJoin =>
    obtain ⟨rfl, rfl⟩ := Prod.mk.inj (Option.some.inj hstep)
    exact ⟨h.sleepLock, h.apbLock⟩
  | store =>
    obtain ⟨rfl, rfl⟩ := Prod.mk.inj (Option.some.inj hstep)
    exact ⟨h.sleepLock, h.apbLock⟩
  | terminated => cases hstep
  | _ =>
    obtain ⟨rfl, rfl⟩ := Prod.mk.inj (Option.some.inj hstep)
    apply h.same t t _ _ ⟨rfl, rfl⟩
    all_goals first | rfl | (split <;> rfl)

/-- The stop function becomes due when an activation begins, until it is called. -/
theorem owed_loop (stepFunc : Bool) (delay : Option UInt32) (ok : Bool) (pc pc' : LoopPc)
    (hstep : pc.step stepFunc delay ok t = some (t', pc')) :
    pc'.owed + pc.calls = pc.owed + pc.begins := by
  cases pc with
  | active isActive =>
    obtain ⟨rfl, rfl⟩ := Prod.mk.inj (Option.some.inj hstep)
    cases isActive <;> rfl
  | exit isActive =>
    obtain ⟨rfl, rfl⟩ := Prod.mk.inj (Option.some.inj hstep)
    cases isActive <;> rfl
  | releaseSleep e =>
    obtain ⟨rfl, rfl⟩ := Prod.mk.inj (Option.some.inj hstep)
    cases e <;> rfl
  | waitTimer =>
    obtain ⟨u, -, hr⟩ := Option.map_eq_some_iff.mp hstep
    obtain ⟨rfl, rfl⟩ := Prod.mk.inj hr
    rfl
  | waitTicks delay =>
    obtain ⟨u, -, hr⟩ := Option.map_eq_some_iff.mp hstep
    obtain ⟨rfl, rfl⟩ := Prod.mk.inj hr
    rfl
  | wait =>
    obtain ⟨u, -, hr⟩ := Option.map_eq_some_iff.mp hstep
    obtain ⟨rfl, rfl⟩ := Prod.mk.inj hr
    rfl
  | terminated => cases hstep
  | _ =>
    obtain ⟨rfl, rfl⟩ := Prod.mk.inj (Option.some.inj hstep)
    first | rfl | (split <;> rfl)

end steps

structure Balanced (stopFunc : Bool) (t : Counted) : Prop where
  locked : Locked t.state.task t.state.loop
  stops : stopFunc = true → t.count.activations = t.count.stops + t.state.loop.owed
  none : stopFunc = false → t.count.stops = 0

section run
variable (stepFunc stopFunc : Bool)

theorem balanced_loop (t : Counted) (delay : Option UInt32) (ok : Bool) (task : Task) (loop : LoopPc)
    (h : Balanced stopFunc t)
    (hstep : t.state.loop.step stepFunc delay ok t.state.task = some (task, loop)) :
    Balanced stopFunc ⟨{ t.state with task, loop },
      t.count.next stopFunc t.state (.loop delay ok)⟩ := by
  have howed := owed_loop t.state.task task stepFunc delay ok t.state.loop loop hstep
  refine ⟨locked_loop t.state.task task stepFunc delay ok t.state.loop loop h.locked hstep, ?_, ?_⟩
  · intro hf
    have hstops := h.stops hf
    show t.count.activations + t.state.loop.begins =
      t.count.stops + (if stopFunc then t.state.loop.calls else 0) + loop.owed
    rw [if_pos hf]
    omega
  · intro hf
    have hnone := h.none hf
    show t.count.stops + (if stopFunc then t.state.loop.calls else 0) = 0
    rw [if_neg (by simp [hf]), hnone]

theorem balanced_next (t : Counted) (l : Label) (t' : Counted) (h : Balanced stopFunc t)
    (hn : t.next stepFunc stopFunc l = some t') : Balanced stopFunc t' := by
  obtain ⟨s, hs, rfl⟩ := Option.map_eq_some_iff.mp hn
  cases l with
  | loop delay ok =>
    obtain ⟨task, loop, hstep, rfl⟩ := State.next_loop stepFunc t.state s delay ok hs
    exact balanced_loop stepFunc stopFunc t delay ok task loop h hstep
  | begin e =>
    obtain rfl := Option.some.inj hs
    exact ⟨h.locked, h.stops, h.none⟩
  | call i =>
    obtain ⟨c, hc, rfl⟩ := State.next_call stepFunc t.state s i hs
    exact ⟨h.locked.same _ _ _ _ (call_locks t.state.task c) rfl rfl, h.stops, h.none⟩
  | fire =>
    obtain rfl := State.next_fire stepFunc t.state s hs
    exact ⟨⟨h.locked.sleepLock, h.locked.apbLock⟩, h.stops, h.none⟩
  | callback =>
    obtain rfl := State.next_callback stepFunc t.state s hs
    exact ⟨⟨h.locked.sleepLock, h.locked.apbLock⟩, h.stops, h.none⟩

theorem start_balanced (s : State) (hs : s.AtStart) : Balanced stopFunc (.start s) := by
  have hloop : (Counted.start s).state.loop = .terminate false := hs.loop
  refine ⟨⟨?_, ?_⟩, ?_, fun _ => rfl⟩
  · rw [hloop]
    exact ⟨by simp [Counted.start, hs.sleepLock.1, LoopPc.holdsSleep, LoopPc.stage],
      by simp [Counted.start, hs.sleepLock.2, LoopPc.holdsSleep, LoopPc.stage]⟩
  · rw [hloop]
    exact ⟨by simp [Counted.start, hs.apbLock.1, LoopPc.holdsApb, LoopPc.stage],
      by simp [Counted.start, hs.apbLock.2, LoopPc.holdsApb, LoopPc.stage]⟩
  · intro _
    rw [hloop]
    rfl

/-- No lock is held outside of an activation, and each that is enabled is held inside of one, once. The stop
function, if there is one, has been called once in each activation that is ending or has ended. -/
theorem activation_balanced (s : State) (hs : s.AtStart) (t : Counted)
    (run : Steps (Counted.next stepFunc stopFunc) (fun _ _ => True) (.start s) t) :
    (t.state.loop.stage = .outside → t.state.task.sleepLock.held = 0 ∧ t.state.task.apbLock.held = 0) ∧
    (t.state.loop.stage = .inside →
      t.state.task.sleepLock.held = (if t.state.task.sleepLock.handle then 1 else 0) ∧
      t.state.task.apbLock.held = if t.state.task.apbLock.handle then 1 else 0) ∧
    t.state.task.sleepLock.AtMostOnce ∧ t.state.task.apbLock.AtMostOnce ∧
    (stopFunc = true → t.count.activations = t.count.stops +
      if t.state.loop.stage = .starting ∨ t.state.loop.stage = .inside then 1 else 0) := by
  have h : Balanced stopFunc t := run.invariant _ _ (Balanced stopFunc) _ _ (start_balanced stopFunc s hs)
    fun t l t' ht _ hn => balanced_next stepFunc stopFunc t l t' ht hn
  have hsleep := h.locked.sleepLock.held
  have hapb := h.locked.apbLock.held
  refine ⟨?_, ?_, h.locked.sleepLock.atMostOnce, h.locked.apbLock.atMostOnce, h.stops⟩
  · intro hout
    obtain ⟨hs, ha⟩ := t.state.loop.holds_of_stage (.inl hout)
    rw [hs, hout] at hsleep
    rw [ha, hout] at hapb
    exact ⟨by simpa using hsleep, by simpa using hapb⟩
  · intro hin
    obtain ⟨hs, ha⟩ := t.state.loop.holds_of_stage (.inr hin)
    rw [hs, hin] at hsleep
    rw [ha, hin] at hapb
    exact ⟨by simpa using hsleep, by simpa using hapb⟩

/-- The first activation is stopped after a delay; the second is terminated during one. -/
def Counted.stoppedTerminated : List Label :=
  List.flatten [List.replicate 8 (.loop (some 5) false), [.begin .requestStop, .call 0],
    List.replicate 6 (.loop none true), [.call 0, .begin (.notify true), .call 0],
    List.replicate 8 (.loop (some 5) true), [.begin .reset], List.replicate 4 (.call 1),
    List.replicate 11 (.loop none false)]

omit stepFunc stopFunc in
theorem activation_balanced_terminated :
    ∃ t, exec (guarded (Counted.next true true) fun _ _ => True) (.start (.created true true false))
        Counted.stoppedTerminated = some t ∧ t.state.loop = .terminated ∧ t.count = ⟨2, 2⟩ ∧
      t.state.task.sleepLock.held = 0 ∧ t.state.task.apbLock.held = 0 := by
  have hrun : (exec (guarded (Counted.next true true) fun _ _ => True) (.start (.created true true false))
      Counted.stoppedTerminated).any (fun t => t.state.loop = .terminated ∧ t.count = ⟨2, 2⟩) = true := by
    decide
  obtain ⟨t, ht, hp⟩ := (Option.any_eq_true _ _).mp hrun
  obtain ⟨hloop, hcount⟩ := of_decide_eq_true hp
  have h := activation_balanced true true (.created true true false) ⟨rfl, ⟨rfl, rfl⟩, ⟨rfl, rfl⟩⟩ t
    (steps_of_guarded _ _ _ _ _ ht)
  exact ⟨t, ht, hloop, hcount, h.1 (by rw [hloop]; rfl)⟩

end run

end Espbase.YieldingTask
