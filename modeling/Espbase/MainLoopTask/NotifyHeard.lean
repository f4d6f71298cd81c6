import Espbase.MainLoopTask.System
import Mathlib.Logic.Function.Iterate

namespace Espbase.MainLoopTask

open Espbase.Lib

section version

theorem nextVersion_toNat (v : UInt32) (h : v ≠ 0) :
    (nextVersion v).toNat = v.toNat % (2 ^ 32 - 1) + 1 := by
  have hlt := v.toNat_lt
  have hpos : 0 < v.toNat := Nat.pos_of_ne_zero fun hz => h (UInt32.toNat_inj.mp hz)
  have hadd : (v + 1).toNat = (v.toNat + 1) % 2 ^ 32 := UInt32.toNat_add v 1
  unfold nextVersion
  simp only [if_neg h]
  by_cases hwrap : v + 1 = 0
  · rw [hwrap, UInt32.toNat_zero] at hadd
    rw [if_pos hwrap]
    have hmax : v.toNat = 2 ^ 32 - 1 := by omega
    rw [hmax]
    decide
  · rw [if_neg hwrap, hadd]
    have hne : (v + 1).toNat ≠ 0 := fun hz => hwrap (UInt32.toNat_inj.mp hz)
    rw [hadd] at hne
    omega

theorem nextVersion_ne_zero (v : UInt32) : nextVersion v ≠ 0 := by
  unfold nextVersion
  dsimp only
  split
  · split
    · decide
    · assumption
  · split
    · decide
    · assumption

theorem nextVersion_iterate (v : UInt32) (h : v ≠ 0) (k : Nat) :
    nextVersion^[k] v ≠ 0 ∧ (nextVersion^[k] v).toNat = (v.toNat - 1 + k) % (2 ^ 32 - 1) + 1 := by
  have hlt := v.toNat_lt
  have hpos : 0 < v.toNat := Nat.pos_of_ne_zero fun hz => h (UInt32.toNat_inj.mp hz)
  induction k with
  | zero =>
    refine ⟨h, ?_⟩
    rw [Function.iterate_zero, id]
    omega
  | succ k ih =>
    rw [Function.iterate_succ_apply']
    refine ⟨nextVersion_ne_zero _, ?_⟩
    rw [nextVersion_toNat _ ih.1, ih.2]
    omega

/-- Too few notifies to come round to the same version. -/
theorem nextVersion_returns (v : UInt32) (h : v ≠ 0) (k : Nat) (hk : k < 2 ^ 32 - 1)
    (hv : nextVersion^[k] v = v) : k = 0 := by
  have hlt := v.toNat_lt
  have hpos : 0 < v.toNat := Nat.pos_of_ne_zero fun hz => h (UInt32.toNat_inj.mp hz)
  have hiter := (nextVersion_iterate v h k).2
  rw [hv] at hiter
  omega

end version

/-- Whether the next step of a call advances the version. -/
def Call.advances (t : Task) (ok : Bool) : Call → Bool
  | .notify (.exchange prev) => t.sequenceVersion = prev ∧ ok = true
  | _ => false

/-- What is recorded beside a run. Notifies are numbered in the order in which they advance the
version; every call in progress and every queued command carries the number of its notify. -/
structure Trace where
  calls : List (Option Nat)
  queue : List (Option Nat)
  /-- the notify whose command the main loop runs -/
  loop : Option Nat
  /-- notifies that have advanced the version -/
  advanced : Nat
  /-- of these, the ones before the last step read the version -/
  sampled : Nat
  /-- of these, the ones before `on_step()` or `on_stop()` last began -/
  begun : Nat
  /-- notifies whose command was taken and processed -/
  processed : List Nat
  deriving DecidableEq

def pushed (s s' : State) : Bool := s.task.queue.length < s'.task.queue.length

def Trace.next (r : Trace) (s s' : State) : Label → Trace
  | .begin _ => { r with calls := r.calls ++ [none] }
  | .call i ok =>
    let advances := s.calls[i]?.any (Call.advances s.task ok)
    let number := if advances then some r.advanced else r.calls[i]?.join
    { r with
      calls := r.calls.take i ++ (if s'.calls.length = s.calls.length then [number] else []) ++
        r.calls.drop (i + 1)
      queue := r.queue ++ if pushed s s' then [number] else []
      advanced := if advances then r.advanced + 1 else r.advanced }
  | .fire _ => r
  | .callback => { r with queue := r.queue ++ if pushed s s' then [none] else [] }
  | .receive => { r with loop := r.queue.head?.join, queue := r.queue.tail }
  | .step _ =>
    match s.loop with
    | some .version => { r with sampled := r.advanced }
    | some (.onStep _) => { r with begun := r.advanced }
    | some (.onStop _) => { r with begun := r.advanced }
    | _ =>
      if s'.loop = none then { r with loop := none, processed := r.processed ++ r.loop.toList }
      else r
  | .post => { r with queue := r.queue ++ if pushed s s' then [none] else [] }

structure Traced where
  state : State
  trace : Trace
  deriving DecidableEq

namespace Traced

def next (capacity : Nat) (t : Traced) (l : Label) : Option Traced := do
  let s ← t.state.next capacity l
  some ⟨s, t.trace.next t.state s l⟩

/-- Nothing is recorded yet. -/
def start (s : State) : Traced :=
  ⟨s, s.calls.map fun _ => none, s.task.queue.map fun _ => none, none, 0, 0, 0, []⟩

/-- No reset begins, and fewer than 2^32 - 1 notifies advance the version during one step. -/
def Allowed (t : Traced) (l : Label) : Prop :=
  l ≠ .begin .reset ∧ ∀ pc ∈ t.state.loop, pc ≠ .version →
    t.trace.advanced - t.trace.sampled < 2 ^ 32 - 1

instance (t : Traced) (l : Label) : Decidable (t.Allowed l) := inferInstanceAs (Decidable (_ ∧ _))

end Traced

/-- The calls of a task that is running and stays so: no reset, and no start that could claim it. -/
def Call.Settled : Call → Prop
  | .stop _ => True
  | .notify _ => True
  | .start .claim => True
  | _ => False

/-- The version that a step between its read and its exchange goes on with. -/
def StepPc.read : StepPc → Option UInt32
  | .terminate v => if v = 0 then none else some v
  | .stopRequested v => some v
  | .onStep v => some v
  | .onStop v => some v
  | .deactivate v => some v
  | _ => none

/-- A start has returned; a step that runs already has read the version as it is. -/
structure State.StartReturned (s : State) : Prop where
  running : s.task.running = true
  terminate : s.task.terminateRequested = false
  calls : ∀ c ∈ s.calls, c.Settled
  loop : ∀ pc ∈ s.loop, ∀ v ∈ pc.read, v ≠ 0 ∧ s.task.sequenceVersion = v

section steps
variable (capacity : Nat) (t t' : Task)

/-- The members that decide whether the sequence goes on. -/
structure SameFlags (t t' : Task) : Prop where
  running : t'.running = t.running
  terminate : t'.terminateRequested = t.terminateRequested
  version : t'.sequenceVersion = t.sequenceVersion

theorem SameFlags.of_same (h : t.SameMembers t') : SameFlags t t' :=
  ⟨h.running, h.terminateRequested, h.sequenceVersion⟩

theorem push_flags (c : Command) : SameFlags t (t.push capacity c) := by
  unfold Task.push
  split <;> exact ⟨rfl, rfl, rfl⟩

theorem kick_flags (pc : KickPc) : SameFlags t (pc.step capacity t).1 := by
  cases pc with
  | stop h => exact .of_same _ _ (t.timerStop_same h)
  | push => exact push_flags capacity t .appLoopStep
  | _ => exact ⟨rfl, rfl, rfl⟩

/-- A call changes the version only by advancing it. -/
theorem settled_step (ok : Bool) (c : Call) (c' : Option Call) (hc : c.Settled) (hr : t.running = true)
    (h : c.step capacity ok t = some (t', c')) :
    t'.running = true ∧ t'.terminateRequested = t.terminateRequested ∧ (∀ d ∈ c', d.Settled) ∧
      t'.sequenceVersion =
        if c.advances t ok then nextVersion t.sequenceVersion else t.sequenceVersion := by
  cases c with
  | stop pc =>
    obtain ⟨rfl, rfl⟩ := Prod.mk.inj (Option.some.inj h)
    have hflags : SameFlags t (pc.step capacity t).1 := by
      cases pc with
      | kick pc => exact kick_flags capacity t pc
      | _ => exact ⟨rfl, rfl, rfl⟩
    refine ⟨hflags.running.trans hr, hflags.terminate, ?_, hflags.version⟩
    intro d hd
    obtain ⟨q, -, rfl⟩ := Option.map_eq_some_iff.mp hd
    trivial
  | notify pc =>
    obtain ⟨rfl, rfl⟩ := Prod.mk.inj (Option.some.inj h)
    have hnext : ∀ d ∈ ((pc.step capacity (!ok) t).2.map Call.notify), d.Settled := by
      intro d hd
      obtain ⟨q, -, rfl⟩ := Option.map_eq_some_iff.mp hd
      trivial
    cases pc with
    | exchange prev =>
      simp only [NotifyPc.step, Call.advances, Bool.not_eq_false']
      by_cases hadv : t.sequenceVersion = prev ∧ ok = true
      · simp only [hadv, and_self, if_true, decide_true]
        exact ⟨hr, trivial, fun d hd => by rw [← Option.some.inj hd]; trivial, trivial⟩
      · simp only [hadv, if_false, decide_false, Bool.false_eq_true]
        exact ⟨hr, trivial, fun d hd => by rw [← Option.some.inj hd]; trivial, trivial⟩
    | kick pc =>
      have hflags := kick_flags capacity t pc
      exact ⟨hflags.running.trans hr, hflags.terminate, hnext, hflags.version⟩
    | _ => exact ⟨hr, rfl, hnext, rfl⟩
  | reset pc => exact hc.elim
  | start pc =>
    cases pc with
    | claim =>
      simp only [Call.step, StartPc.step, Option.map_some, hr, if_true, Option.map_none,
        Option.some.injEq, Prod.mk.injEq] at h
      obtain ⟨rfl, rfl⟩ := h
      exact ⟨rfl, rfl, nofun, rfl⟩
    | _ => exact hc.elim

end steps

section invariant

/-- The version is the one that the step has read, advanced by the notifies since. -/
def Trace.Advanced (r : Trace) (version read : UInt32) : Prop :=
  read ≠ 0 ∧ version = nextVersion^[r.advanced - r.sampled] read

/-- What a step that has come to a point knows. At its exit, a callback began after the version was read, or
the sequence had ended before and every notify until then was heard. -/
def StepPc.Knows (version : UInt32) (r : Trace) : StepPc → Prop
  | .version => True
  | .terminate v => (v = 0 → r.sampled ≤ r.begun) ∧ (v ≠ 0 → r.Advanced version v)
  | .stopRequested v => r.Advanced version v
  | .onStep v => r.Advanced version v
  | .onStop v => r.Advanced version v
  | .deactivate v => r.Advanced version v ∧ r.sampled ≤ r.begun
  | _ => r.sampled ≤ r.begun

structure Heard (t : Traced) : Prop where
  running : t.state.task.running = true
  terminate : t.state.task.terminateRequested = false
  calls : ∀ c ∈ t.state.calls, c.Settled
  callNumbers : ∀ n, some n ∈ t.trace.calls → n < t.trace.advanced
  queueNumbers : ∀ n, some n ∈ t.trace.queue → n < t.trace.advanced
  sampled : t.trace.sampled ≤ t.trace.advanced
  begun : t.trace.begun ≤ t.trace.advanced
  loopNumber : ∀ n ∈ t.trace.loop, n < t.trace.advanced
  inside : ∀ pc ∈ t.state.loop, pc ≠ .version → ∀ n ∈ t.trace.loop, n < t.trace.sampled
  knows : ∀ pc ∈ t.state.loop, pc.Knows t.state.task.sequenceVersion t.trace
  idle : t.state.task.sequenceVersion = 0 → t.trace.begun = t.trace.advanced
  processed : ∀ n ∈ t.trace.processed, n < t.trace.begun

theorem start_heard (s : State) (h : s.StartReturned) : Heard (.start s) where
  running := h.running
  terminate := h.terminate
  calls := h.calls
  callNumbers := by simp [Traced.start]
  queueNumbers := by simp [Traced.start]
  sampled := Nat.le_refl 0
  begun := Nat.le_refl 0
  loopNumber := nofun
  inside := nofun
  knows := by
    intro pc hpc
    have hread := h.loop pc hpc
    cases pc with
    | version => trivial
    | terminate v =>
      refine ⟨fun _ => Nat.le_refl 0, fun hv => hread v ?_⟩
      simp [StepPc.read, hv]
    | stopRequested v => exact hread v rfl
    | onStep v => exact hread v rfl
    | onStop v => exact hread v rfl
    | deactivate v => exact ⟨hread v rfl, Nat.le_refl 0⟩
    | _ => exact Nat.le_refl 0
  idle := fun _ => rfl
  processed := nofun

/-- A step of neither the main loop nor a notify that advances the version. -/
theorem Heard.beside (t : Traced) (s' : State) (r' : Trace) (h : Heard t)
    (hflags : SameFlags t.state.task s'.task) (hloop : s'.loop = t.state.loop)
    (hcalls : ∀ c ∈ s'.calls, c.Settled)
    (hr : r' = { t.trace with calls := r'.calls, queue := r'.queue })
    (hc : ∀ n, some n ∈ r'.calls → some n ∈ t.trace.calls)
    (hq : ∀ n, some n ∈ r'.queue → some n ∈ t.trace.queue ∨ some n ∈ t.trace.calls) :
    Heard ⟨s', r'⟩ := by
  obtain ⟨calls, queue, loop, advanced, sampled, begun, processed⟩ := r'
  simp only [Trace.mk.injEq, true_and] at hr
  obtain ⟨rfl, rfl, rfl, rfl, rfl⟩ := hr
  refine ⟨hflags.running.trans h.running, hflags.terminate.trans h.terminate, hcalls,
    fun n hn => h.callNumbers n (hc n hn), ?_, h.sampled, h.begun, h.loopNumber, ?_, ?_, ?_,
    h.processed⟩
  · intro n hn
    exact (hq n hn).elim (h.queueNumbers n) (h.callNumbers n)
  · show ∀ pc ∈ s'.loop, _
    rw [hloop]
    exact h.inside
  · show ∀ pc ∈ s'.loop, pc.Knows s'.task.sequenceVersion _
    rw [hloop, hflags.version]
    exact h.knows
  · intro hz
    exact h.idle (hflags.version.symm.trans hz)

theorem StepPc.Knows.advance (version : UInt32) (r : Trace) (pc : StepPc) (h : pc.Knows version r)
    (hs : r.sampled ≤ r.advanced) (calls queue : List (Option Nat)) :
    pc.Knows (nextVersion version) { r with calls, queue, advanced := r.advanced + 1 } := by
  have hadv (read : UInt32) (ha : r.Advanced version read) :
      Trace.Advanced { r with calls, queue, advanced := r.advanced + 1 } (nextVersion version) read := by
    refine ⟨ha.1, ?_⟩
    show nextVersion version = nextVersion^[r.advanced + 1 - r.sampled] read
    rw [Nat.succ_sub hs, Function.iterate_succ_apply', ← ha.2]
  cases pc with
  | terminate v => exact ⟨h.1, fun hv => hadv v (h.2 hv)⟩
  | stopRequested v => exact hadv v h
  | onStep v => exact hadv v h
  | onStop v => exact hadv v h
  | deactivate v => exact ⟨hadv v h.1, h.2⟩
  | _ => exact h

theorem mem_of_join {l : List (Option Nat)} {i n : Nat} (h : l[i]?.join = some n) : some n ∈ l :=
  List.mem_of_getElem? (Option.join_eq_some_iff.mp h)

theorem mem_numbers {l : List (Option Nat)} {i n : Nat} {number : Option Nat} {goesOn : Prop}
    [Decidable goesOn]
    (h : some n ∈ l.take i ++ (if goesOn then [number] else []) ++ l.drop (i + 1)) :
    some n ∈ l ∨ number = some n := by
  rcases List.mem_append.mp h with h | h
  · rcases List.mem_append.mp h with h | h
    · exact .inl (List.mem_of_mem_take h)
    · split at h
      · exact .inr (List.mem_singleton.mp h).symm
      · cases h
  · exact .inl (List.mem_of_mem_drop h)

theorem mem_queue {l : List (Option Nat)} {n : Nat} {number : Option Nat} {grown : Bool}
    (h : some n ∈ l ++ if grown then [number] else []) : some n ∈ l ∨ number = some n := by
  rcases List.mem_append.mp h with h | h
  · exact .inl h
  · split at h
    · exact .inr (List.mem_singleton.mp h).symm
    · cases h

theorem heard_call (capacity i : Nat) (ok : Bool) (t : Traced) (s' : State) (h : Heard t)
    (hn : t.state.next capacity (.call i ok) = some s') :
    Heard ⟨s', t.trace.next t.state s' (.call i ok)⟩ := by
  obtain ⟨c, task, c', hc, hstep, rfl⟩ := next_call capacity t.state s' i ok hn
  obtain ⟨hr, ht, hnew, hv⟩ := settled_step capacity t.state.task task ok c c'
    (h.calls c (List.mem_of_getElem? hc)) h.running hstep
  have hcalls : ∀ d ∈ t.state.calls.take i ++ c'.toList ++ t.state.calls.drop (i + 1), d.Settled := by
    intro d hd
    exact (pool_mem t.state.calls i c' d hd).elim (hnew d) (h.calls d)
  cases hadv : c.advances t.state.task ok with
  | false =>
    rw [hadv] at hv
    refine h.beside t _ _ ⟨hr.trans h.running.symm, ht, hv⟩ rfl hcalls ?_ ?_ ?_
    · simp [Trace.next, hc, hadv]
    · intro n hm
      simp only [Trace.next, hc, Option.any_some, hadv, Bool.false_eq_true, if_false] at hm
      exact (mem_numbers hm).elim id mem_of_join
    · intro n hm
      simp only [Trace.next, hc, Option.any_some, hadv, Bool.false_eq_true, if_false] at hm
      exact (mem_queue hm).imp id mem_of_join
  | true =>
    rw [hadv, if_pos rfl] at hv
    have hlt := Nat.lt_succ_self t.trace.advanced
    have hnext (s' : State) : t.trace.next t.state s' (.call i ok) = { t.trace with
        calls := t.trace.calls.take i ++
          (if s'.calls.length = t.state.calls.length then [some t.trace.advanced] else []) ++
          t.trace.calls.drop (i + 1)
        queue := t.trace.queue ++ if pushed t.state s' then [some t.trace.advanced] else []
        advanced := t.trace.advanced + 1 } := by
      simp [Trace.next, hc, hadv]
    rw [hnext]
    refine ⟨hr, ht.trans h.terminate, hcalls, ?_, ?_, Nat.le_succ_of_le h.sampled,
      Nat.le_succ_of_le h.begun, fun n hm => Nat.lt_succ_of_lt (h.loopNumber n hm), h.inside, ?_, ?_,
      h.processed⟩
    · intro n hm
      rcases mem_numbers hm with hm | hm
      · exact Nat.lt_succ_of_lt (h.callNumbers n hm)
      · rwa [← Option.some.inj hm]
    · intro n hm
      rcases mem_queue hm with hm | hm
      · exact Nat.lt_succ_of_lt (h.queueNumbers n hm)
      · rwa [← Option.some.inj hm]
    · intro pc hpc
      show pc.Knows task.sequenceVersion _
      rw [hv]
      exact (h.knows pc hpc).advance _ _ _ h.sampled _ _
    · intro hz
      exact absurd (hv.symm.trans hz) (nextVersion_ne_zero _)

/-- A step that leaves the flags and the record. -/
theorem Heard.loopStep (t : Traced) (h : Heard t) (task : Task) (loop : Option StepPc)
    (hflags : SameFlags t.state.task task) (hinside : ∀ n ∈ t.trace.loop, n < t.trace.sampled)
    (hknows : ∀ pc ∈ loop, pc.Knows t.state.task.sequenceVersion t.trace) :
    Heard ⟨{ t.state with task, loop }, t.trace⟩ where
  running := hflags.running.trans h.running
  terminate := hflags.terminate.trans h.terminate
  calls := h.calls
  callNumbers := h.callNumbers
  queueNumbers := h.queueNumbers
  sampled := h.sampled
  begun := h.begun
  loopNumber := h.loopNumber
  inside := fun _ _ _ => hinside
  knows := by
    intro pc hpc
    show pc.Knows task.sequenceVersion t.trace
    rw [hflags.version]
    exact hknows pc hpc
  idle := fun hz => h.idle (hflags.version.symm.trans hz)
  processed := h.processed

/-- When a callback begins, all notifies until then are heard. -/
theorem Heard.begin (t : Traced) (h : Heard t) :
    Heard ⟨t.state, { t.trace with begun := t.trace.advanced }⟩ where
  running := h.running
  terminate := h.terminate
  calls := h.calls
  callNumbers := h.callNumbers
  queueNumbers := h.queueNumbers
  sampled := h.sampled
  begun := Nat.le_refl _
  loopNumber := h.loopNumber
  inside := h.inside
  knows := by
    intro pc hpc
    have hk := h.knows pc hpc
    cases pc with
    | version => trivial
    | terminate v => exact ⟨fun _ => h.sampled, hk.2⟩
    | stopRequested v => exact hk
    | onStep v => exact hk
    | onStop v => exact hk
    | deactivate v => exact ⟨hk.1, h.sampled⟩
    | _ => exact h.sampled
  idle := fun _ => rfl
  processed := fun n hn => Nat.lt_of_lt_of_le (h.processed n hn) h.begun

/-- The step reads the version. -/
theorem Heard.sample (t : Traced) (h : Heard t) (hpc : t.state.loop = some .version) :
    Heard ⟨t.state, { t.trace with sampled := t.trace.advanced }⟩ where
  running := h.running
  terminate := h.terminate
  calls := h.calls
  callNumbers := h.callNumbers
  queueNumbers := h.queueNumbers
  sampled := Nat.le_refl _
  begun := h.begun
  loopNumber := h.loopNumber
  inside := fun _ _ _ => h.loopNumber
  knows := by
    intro pc hm
    rw [← Option.some.inj (hpc.symm.trans hm)]
    trivial
  idle := h.idle
  processed := h.processed

/-- The exchange finds the version that the step has read only when no notify has advanced it since: the
callback before it began after all of them. -/
theorem Heard.deactivate (t : Traced) (h : Heard t) (v : UInt32) (hpc : t.state.loop = some (.deactivate v))
    (hfew : t.trace.advanced - t.trace.sampled < 2 ^ 32 - 1) (hv : t.state.task.sequenceVersion = v) :
    Heard ⟨{ t.state with
      task := { t.state.task with sequenceVersion := 0 }, loop := some .decrement }, t.trace⟩ := by
  obtain ⟨⟨hne, hadv⟩, hbegun⟩ := h.knows _ hpc
  have hinside := h.inside _ hpc nofun
  have hnone : t.trace.advanced - t.trace.sampled = 0 :=
    nextVersion_returns v hne _ hfew (hadv.symm.trans hv)
  have hheard : t.trace.begun = t.trace.advanced := by
    have := h.begun
    omega
  refine ⟨h.running, h.terminate, h.calls, h.callNumbers, h.queueNumbers, h.sampled, h.begun, h.loopNumber,
    fun _ _ _ => hinside, ?_, fun _ => hheard, h.processed⟩
  intro pc hm
  rw [← Option.some.inj hm]
  exact hbegun

/-- A point behind the callbacks and the exchange. -/
def StepPc.PastExchange : StepPc → Prop
  | .version => False
  | .terminate _ => False
  | .stopRequested _ => False
  | .onStep _ => False
  | .onStop _ => False
  | .deactivate _ => False
  | _ => True

theorem StepPc.PastExchange.knows (pc : StepPc) (h : pc.PastExchange) (version : UInt32) (r : Trace) :
    pc.Knows version r ↔ r.sampled ≤ r.begun := by
  cases pc <;> first | exact h.elim | exact Iff.rfl

theorem pastExchange_step (delay : Bool) (t : Task) (pc : StepPc) (hl : pc.PastExchange) :
    SameFlags t (pc.step delay t).1 ∧ ∀ q ∈ (pc.step delay t).2, q.PastExchange := by
  have next (p : Prop) [Decidable p] (q q' : StepPc) (hq : q.PastExchange) (hq' : q'.PastExchange) :
      (if p then q else q').PastExchange := by
    split <;> assumption
  have last (p : Prop) [Decidable p] (q : StepPc) (hq : q.PastExchange) :
      ∀ q' ∈ (if p then some q else none), q'.PastExchange := by
    intro q' h'
    split at h'
    · rw [← Option.some.inj h']
      exact hq
    · cases h'
  have one (q : StepPc) (hq : q.PastExchange) : ∀ q' ∈ some q, q'.PastExchange := by
    intro q' h'
    rw [← Option.some.inj h']
    exact hq
  cases pc with
  | delayTerminate => exact ⟨⟨rfl, rfl, rfl⟩, one _ (next _ _ _ trivial trivial)⟩
  | delayTimer => exact ⟨⟨rfl, rfl, rfl⟩, one _ (next _ _ _ trivial trivial)⟩
  | stop h => exact ⟨.of_same _ _ (t.timerStop_same h), one _ trivial⟩
  | startOnce h => exact ⟨.of_same _ _ (t.timerStartOnce_same h), one _ trivial⟩
  | decrement => exact ⟨⟨rfl, rfl, rfl⟩, last _ _ trivial⟩
  | exitTerminate => exact ⟨⟨rfl, rfl, rfl⟩, last _ _ trivial⟩
  | exitSem => exact ⟨⟨rfl, rfl, rfl⟩, last _ _ trivial⟩
  | give h => exact ⟨.of_same _ _ (t.semGive_same h), nofun⟩
  | stopArg => exact ⟨⟨rfl, rfl, rfl⟩, one _ trivial⟩
  | startArg => exact ⟨⟨rfl, rfl, rfl⟩, one _ trivial⟩
  | giveArg => exact ⟨⟨rfl, rfl, rfl⟩, one _ trivial⟩
  | _ => exact hl.elim

/-- Behind the exchange a step has been heard; so has its notify, when it ends. -/
theorem heard_pastExchange (delay : Bool) (t : Traced) (pc : StepPc) (h : Heard t) (hpc : t.state.loop = some pc)
    (hl : pc.PastExchange) (s' : State) (hs : s' = { t.state with
      task := (pc.step delay t.state.task).1, loop := (pc.step delay t.state.task).2 }) :
    Heard ⟨s', t.trace.next t.state s' (.step delay)⟩ := by
  obtain ⟨hflags, hnext⟩ := pastExchange_step delay t.state.task pc hl
  have hheard : t.trace.sampled ≤ t.trace.begun := (hl.knows _ _ _).mp (h.knows pc hpc)
  have hinside := h.inside pc hpc (by rintro rfl; exact hl)
  have hmoved := h.loopStep t _ (pc.step delay t.state.task).2 hflags hinside fun q hq =>
    ((hnext q hq).knows _ _ _).mpr hheard
  rw [← hs] at hmoved
  have htrace : t.trace.next t.state s' (.step delay) = if s'.loop = none then { t.trace with
      loop := none, processed := t.trace.processed ++ t.trace.loop.toList } else t.trace := by
    unfold Trace.next
    rw [hpc]
    cases pc <;> first | exact hl.elim | rfl
  rw [htrace]
  split
  · refine ⟨hmoved.running, hmoved.terminate, hmoved.calls, hmoved.callNumbers, hmoved.queueNumbers,
      hmoved.sampled, hmoved.begun, nofun, fun _ _ _ => nofun, hmoved.knows, hmoved.idle, ?_⟩
    intro n hn
    rcases List.mem_append.mp hn with hn | hn
    · exact h.processed n hn
    · exact Nat.lt_of_lt_of_le (hinside n (Option.mem_toList.mp hn)) hheard
  · exact hmoved

/-- One case for each point that a step can have come to. -/
theorem heard_step (delay : Bool) (t : Traced) (pc : StepPc) (h : Heard t) (hpc : t.state.loop = some pc)
    (hfew : pc ≠ .version → t.trace.advanced - t.trace.sampled < 2 ^ 32 - 1) (s' : State)
    (hs : s' = { t.state with
      task := (pc.step delay t.state.task).1, loop := (pc.step delay t.state.task).2 }) :
    Heard ⟨s', t.trace.next t.state s' (.step delay)⟩ := by
  by_cases hl : pc.PastExchange
  · exact heard_pastExchange delay t pc h hpc hl s' hs
  have hknows := h.knows pc hpc
  have hinside := h.inside pc hpc
  have hsame : SameFlags t.state.task t.state.task := ⟨rfl, rfl, rfl⟩
  have one (v : UInt32) (r : Trace) (q : StepPc) (hq : q.Knows v r) : ∀ q' ∈ some q, q'.Knows v r := by
    intro q' h'
    rw [← Option.some.inj h']
    exact hq
  subst hs
  cases pc with
  | version =>
    have hadv : t.state.task.sequenceVersion ≠ 0 →
        Trace.Advanced { t.trace with sampled := t.trace.advanced } t.state.task.sequenceVersion
          t.state.task.sequenceVersion := by
      intro hv
      refine ⟨hv, ?_⟩
      show _ = Nat.iterate nextVersion (t.trace.advanced - t.trace.advanced) _
      rw [Nat.sub_self]
      rfl
    have hidle : t.state.task.sequenceVersion = 0 → t.trace.advanced ≤ t.trace.begun :=
      fun hv => Nat.le_of_eq (h.idle hv).symm
    rw [Trace.next, hpc]
    exact (h.sample t hpc).loopStep _ t.state.task (some (.terminate t.state.task.sequenceVersion)) hsame
      h.loopNumber (one _ _ _ ⟨hidle, hadv⟩)
  | terminate v =>
    rw [Trace.next, hpc]
    apply h.loopStep t t.state.task _ hsame (hinside nofun)
    apply one
    by_cases hv : v = 0
    · rw [if_pos (Or.inr hv)]
      exact hknows.1 hv
    · rw [if_neg (by simp [h.terminate, hv])]
      exact hknows.2 hv
  | stopRequested v =>
    rw [Trace.next, hpc]
    apply h.loopStep t t.state.task _ hsame (hinside nofun)
    apply one
    split
    · exact hknows
    · exact hknows
  | onStop v =>
    rw [Trace.next, hpc]
    exact (h.begin t).loopStep _ t.state.task (some (.deactivate v)) hsame (hinside nofun)
      (one _ _ _ ⟨hknows, h.sampled⟩)
  | onStep v =>
    rw [Trace.next, hpc]
    apply (h.begin t).loopStep _ t.state.task _ hsame (hinside nofun)
    apply one
    split
    · exact h.sampled
    · exact hknows
  | deactivate v =>
    rw [Trace.next, hpc]
    by_cases hv : t.state.task.sequenceVersion = v
    · simp only [StepPc.step, hv, if_true]
      exact h.deactivate t v hpc (hfew nofun) hv
    · simp only [StepPc.step, hv, if_false]
      exact h.loopStep t t.state.task (some .decrement) hsame (hinside nofun) (one _ _ _ hknows.2)
  | _ => exact absurd trivial hl

theorem heard_next (capacity : Nat) (t : Traced) (l : Label) (t' : Traced) (h : Heard t) (hl : t.Allowed l)
    (hn : t.next capacity l = some t') : Heard t' := by
  simp only [Traced.next, Option.bind_eq_bind, Option.bind_eq_some_iff, Option.some.injEq] at hn
  obtain ⟨s', hn, rfl⟩ := hn
  have hsame : SameFlags t.state.task t.state.task := ⟨rfl, rfl, rfl⟩
  cases l with
  | begin e =>
    obtain rfl := Option.some.inj hn
    have he : e.call.Settled := by
      cases e with
      | reset => exact absurd rfl hl.1
      | _ => trivial
    refine h.beside t _ _ hsame rfl ?_ rfl ?_ fun _ => .inl
    · intro c hc
      rcases List.mem_append.mp hc with hc | hc
      · exact h.calls c hc
      · rwa [List.mem_singleton.mp hc]
    · intro n hm
      simpa [Trace.next] using hm
  | call i ok => exact heard_call capacity i ok t s' h hn
  | fire h' =>
    obtain ⟨-, -, rfl⟩ := next_fire capacity t.state s' h' hn
    exact h.beside t _ _ ⟨rfl, rfl, rfl⟩ rfl h.calls rfl (fun _ => id) fun _ => .inl
  | callback =>
    obtain ⟨pc, -, rfl⟩ := next_callback capacity t.state s' hn
    refine h.beside t _ _ (kick_flags capacity t.state.task pc) rfl h.calls rfl (fun _ => id) ?_
    intro n hm
    exact .inl ((mem_queue hm).resolve_right nofun)
  | receive =>
    obtain ⟨-, c, queue, -, rfl⟩ := next_receive capacity t.state s' hn
    have hnew : ∀ pc ∈ if c = .appLoopStep then some StepPc.version else none, pc = .version := by
      intro pc hpc
      split at hpc
      · exact (Option.some.inj hpc).symm
      · cases hpc
    refine ⟨h.running, h.terminate, h.calls, h.callNumbers, ?_, h.sampled, h.begun,
      ?_, ?_, ?_, h.idle, h.processed⟩
    · intro n hm
      exact h.queueNumbers n (List.mem_of_mem_tail hm)
    · intro n hm
      exact h.queueNumbers n (List.mem_of_head? (Option.join_eq_some_iff.mp hm))
    · intro pc hpc hv
      exact absurd (hnew pc hpc) hv
    · intro pc hpc
      rw [hnew pc hpc]
      trivial
  | step delay =>
    obtain ⟨pc, hpc, hs⟩ := next_step capacity t.state s' delay hn
    exact heard_step delay t pc h hpc (hl.2 pc hpc) s' hs
  | post =>
    obtain ⟨queue, rfl, -⟩ := next_post capacity t.state s' hn
    refine h.beside t _ _ ⟨rfl, rfl, rfl⟩ rfl h.calls rfl (fun _ => id) ?_
    intro n hm
    exact .inl ((mem_queue hm).resolve_right nofun)

end invariant

/-- No notify is lost. The notifies are numbered as they advance the version; the callbacks have heard of
the first `begun` of them. A notify whose command was processed is one of these, and while the sequence
is inactive all are. -/
theorem notify_heard (capacity : Nat) (s : State) (t : Traced) (hs : s.StartReturned)
    (run : Steps (Traced.next capacity) Traced.Allowed (.start s) t) :
    (∀ n ∈ t.trace.processed, n < t.trace.begun) ∧
      (t.state.task.sequenceVersion = 0 → t.trace.begun = t.trace.advanced) := by
  have h : Heard t := run.invariant _ _ Heard _ _ (start_heard s hs)
    fun t l t' ht hl hn => heard_next capacity t l t' ht hl hn
  exact ⟨h.processed, h.idle⟩

/-- The task behind its first start: its step is queued. -/
def State.firstQueued : State where
  task := ⟨true, false, false, 1, 1, some 1, some 0, [.appLoopStep], [], [], [], 2, false⟩
  calls := []
  callback := none
  loop := none

/-- A notify advances the version while the last step of the sequence is about to deactivate it. -/
def Traced.notifying : List Label :=
  List.flatten [[.receive], List.replicate 5 (.step false), [.begin (.notify false)],
    List.replicate 4 (.call 0 true), List.replicate 3 (.step false), List.replicate 5 (.call 0 true),
    [.receive], List.replicate 8 (.step false)]

theorem notify_heard_finishing :
    exec (State.next 2) (.constructed 0) State.starting = some .firstQueued ∧
    ∃ t, exec (guarded (Traced.next 2) Traced.Allowed) (.start .firstQueued) Traced.notifying = some t ∧
      t.trace.processed = [0] ∧ ((∀ n ∈ t.trace.processed, n < t.trace.begun) ∧
        (t.state.task.sequenceVersion = 0 → t.trace.begun = t.trace.advanced)) := by
  refine ⟨rfl, ?_⟩
  have hrun : (exec (guarded (Traced.next 2) Traced.Allowed) (.start .firstQueued) Traced.notifying).any
      (fun t => t.trace.processed = [0]) = true := by decide
  obtain ⟨t, ht, hp⟩ := (Option.any_eq_true _ _).mp hrun
  have hs : State.firstQueued.StartReturned := ⟨rfl, rfl, nofun, nofun⟩
  exact ⟨t, ht, of_decide_eq_true hp, notify_heard 2 .firstQueued t hs (steps_of_guarded _ _ _ _ _ ht)⟩

end Espbase.MainLoopTask
