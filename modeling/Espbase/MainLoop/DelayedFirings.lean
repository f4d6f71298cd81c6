import Espbase.MainLoop.DelayedPool

namespace Espbase.MainLoop

open Espbase.Lib

/-- What is recorded beside a run. A post is accepted when its timer is started; the accepted posts are
numbered in that order. -/
structure Trace where
  /-- slot and command of each accepted post -/
  accepted : List (Nat × AppCommand)
  /-- for each slot, the post that its timer was started for and has not fired for -/
  armer : List (Option Nat)
  /-- the post for which the callback runs, until it pushes -/
  firing : Option Nat
  /-- for which post what was pushed by the callbacks -/
  fired : List (Option Nat × AppCommand)
  deriving DecidableEq

def Trace.next (r : Trace) (s : State) : Label → Trace
  | .call i true =>
    match s.callers[i]? with
    | some ⟨p, .changePeriod slot⟩ => { r with
        accepted := r.accepted ++ [(slot, p.cmd)]
        armer := r.armer.set slot (some r.accepted.length) }
    | _ => r
  | .fire slot => { r with armer := r.armer.set slot none, firing := r.armer[slot]?.join }
  | .callback =>
    match s.callback with
    | some (.push _ cmd) => { r with firing := none, fired := r.fired ++ [(r.firing, cmd)] }
    | _ => r
  | _ => r

structure Traced where
  state : State
  trace : Trace
  deriving DecidableEq

namespace Traced

def next (capacity : Nat) (rate : UInt32) (t : Traced) (l : Label) : Option Traced :=
  (t.state.next capacity rate l).map fun s => ⟨s, t.trace.next t.state l⟩

def start (memory : List AppCommand) : Traced :=
  ⟨.constructed memory, [], memory.map fun _ => none, none, []⟩

end Traced

section commands
variable (m : Loop) (slot slot' : Nat)

def Loop.cmd : Option AppCommand := m.delayedTasks[slot]?.map (·.cmd)

theorem map_modify_keep (l : List DelayedTask) (f : DelayedTask → DelayedTask)
    (h : ∀ d, (f d).cmd = d.cmd) :
    ((l.modify slot f)[slot']?.map fun d => d.cmd) = l[slot']?.map fun d => d.cmd := by
  rw [List.getElem?_modify]
  split
  · rw [Option.map_eq_map, Option.map_map]
    exact congrArg (Option.map · _) (funext h)
  · rw [Option.map_eq_map, Option.map_id_fun']
    rfl

theorem cmd_of_inUse (h : m.inUse slot = true) : ∃ cmd, m.cmd slot = some cmd := by
  obtain ⟨d, hd, -⟩ := (Option.any_eq_true _ _).mp h
  exact ⟨d.cmd, Option.map_eq_some_iff.mpr ⟨d, hd, rfl⟩⟩

theorem cmd_eq (d : DelayedTask) (cmd : AppCommand) (hd : m.delayedTasks[slot]? = some d)
    (h : m.cmd slot = some cmd) : d.cmd = cmd := by
  rw [Loop.cmd, hd] at h
  exact Option.some.inj h

@[simp] theorem setInUse_cmd (b : Bool) : (m.setInUse slot b).cmd slot' = m.cmd slot' :=
  map_modify_keep slot slot' _ _ fun _ => rfl

@[simp] theorem setTimer_cmd (t : Option UInt32) : (m.setTimer slot t).cmd slot' = m.cmd slot' :=
  map_modify_keep slot slot' _ _ fun _ => rfl

@[simp] theorem pushFunc_cmd (capacity : Nat) (cmd : AppCommand) :
    (m.pushFunc capacity cmd).1.cmd slot = m.cmd slot := by
  unfold Loop.cmd
  rw [pushFunc_delayedTasks]

theorem setArg_cmd (v : UInt32) : (m.setArg slot v).cmd slot =
    (m.cmd slot).map fun cmd => { cmd with arg := v } := by
  unfold Loop.cmd Loop.setArg
  rw [List.getElem?_modify_eq, Option.map_eq_map, Option.map_map, Option.map_map]
  rfl

theorem setExecute_cmd (v : UInt32) : (m.setExecute slot v).cmd slot =
    (m.cmd slot).map fun cmd => { cmd with execute := v } := by
  unfold Loop.cmd Loop.setExecute
  rw [List.getElem?_modify_eq, Option.map_eq_map, Option.map_map, Option.map_map]
  rfl

variable {slot slot'} (h : slot ≠ slot')
include h

theorem setArg_cmd_of_ne (v : UInt32) : (m.setArg slot v).cmd slot' = m.cmd slot' := by
  unfold Loop.cmd Loop.setArg
  rw [List.getElem?_modify_ne _ _ h]

theorem setExecute_cmd_of_ne (v : UInt32) : (m.setExecute slot v).cmd slot' = m.cmd slot' := by
  unfold Loop.cmd Loop.setExecute
  rw [List.getElem?_modify_ne _ _ h]

end commands

/-- What a call has stored is still there. -/
def Caller.Stored (m : Loop) (c : Caller) : Prop :=
  match c.pc with
  | .storeExecute slot => (m.cmd slot).map (·.arg) = some c.post.cmd.arg
  | .changePeriod slot => m.cmd slot = some c.post.cmd
  | _ => True

/-- The callback reads the command of the post for which it runs. -/
def CallbackPc.Reads (m : Loop) (r : Trace) : CallbackPc → Prop
  | .readExecute slot => ∃ i cmd, r.firing = some i ∧ r.accepted[i]? = some (slot, cmd) ∧
      m.cmd slot = some cmd
  | .readArg slot execute => ∃ i cmd, r.firing = some i ∧ r.accepted[i]? = some (slot, cmd) ∧
      m.cmd slot = some cmd ∧ execute = cmd.execute
  | .push slot cmd => ∃ i, r.firing = some i ∧ r.accepted[i]? = some (slot, cmd)
  | .free _ => r.firing = none

structure Filed (t : Traced) : Prop where
  owned : t.state.Owned
  callers : ∀ c ∈ t.state.callers, c.Stored t.state.loop
  slots : t.trace.armer.length = t.state.loop.delayedTasks.length
  armer : ∀ slot, t.trace.armer[slot]?.any (·.isSome) = t.state.loop.armed slot
  armed : ∀ slot i, t.trace.armer[slot]? = some (some i) →
    ∃ cmd, t.trace.accepted[i]? = some (slot, cmd) ∧ t.state.loop.cmd slot = some cmd
  idle : t.state.callback = none → t.trace.firing = none
  callback : ∀ pc ∈ t.state.callback, pc.Reads t.state.loop t.trace
  fired : ∀ e ∈ t.trace.fired, ∃ i slot, e.1 = some i ∧ t.trace.accepted[i]? = some (slot, e.2)
  /-- an accepted post is armed, firing or fired -/
  once : ∀ i, (t.trace.fired.map Prod.fst).count (some i) + t.trace.armer.count (some i) +
    (if t.trace.firing = some i then 1 else 0) = if i < t.trace.accepted.length then 1 else 0

theorem Caller.Stored.same (m m' : Loop) (c : Caller) (h : c.Stored m)
    (hm : ∀ slot, c.pc.slot = some slot → m'.cmd slot = m.cmd slot) : c.Stored m' := by
  unfold Stored at h ⊢
  split
  · rename_i slot hpc
    rw [hpc] at h
    rw [hm slot (by rw [hpc]; rfl)]
    exact h
  · rename_i slot hpc
    rw [hpc] at h
    rw [hm slot (by rw [hpc]; rfl)]
    exact h
  · trivial

theorem CallbackPc.Reads.same (m m' : Loop) (r r' : Trace) (pc : CallbackPc) (h : pc.Reads m r)
    (hm : m'.cmd pc.slot = m.cmd pc.slot) (hf : r'.firing = r.firing)
    (ha : ∀ (i : Nat) e, r.accepted[i]? = some e → r'.accepted[i]? = some e) : pc.Reads m' r' := by
  cases pc with
  | readExecute slot =>
    obtain ⟨i, cmd, hi, he, hc⟩ := h
    exact ⟨i, cmd, hf.trans hi, ha _ _ he, hm.trans hc⟩
  | readArg slot execute =>
    obtain ⟨i, cmd, hi, he, hc, hx⟩ := h
    exact ⟨i, cmd, hf.trans hi, ha _ _ he, hm.trans hc, hx⟩
  | push slot cmd =>
    obtain ⟨i, hi, he⟩ := h
    exact ⟨i, hf.trans hi, ha _ _ he⟩
  | free slot => exact hf.trans h

theorem mem_of_mem_others {l : List Caller} {i : Nat} {d : Caller} (h : d ∈ l.take i ++ l.drop (i + 1)) :
    d ∈ l := by
  rcases List.mem_append.mp h with h | h
  · exact List.mem_of_mem_take h
  · exact List.mem_of_mem_drop h

/-- Two calls do not hold the same slot. -/
theorem owned_apart (s : State) (hs : s.Owned) (i : Nat) (c : Caller) (hc : s.callers[i]? = some c)
    (slot : Nat) (h : c.pc.slot = some slot) (d : Caller)
    (hd : d ∈ s.callers.take i ++ s.callers.drop (i + 1)) : d.pc.slot ≠ some slot := by
  intro he
  have hle := State.owned_alone s hs slot
  have hsum := pool_sum s.callers i c hc none fun c => c.pc.holds slot
  have hone : c.pc.holds slot = 1 := if_pos h
  rw [hone, Option.map_none, Option.getD_none, Option.toList_none, List.append_nil] at hsum
  obtain ⟨j, hj⟩ := List.getElem?_of_mem hd
  have hrest := pool_sum (s.callers.take i ++ s.callers.drop (i + 1)) j d hj none fun c => c.pc.holds slot
  have htwo : d.pc.holds slot = 1 := if_pos he
  rw [htwo, Option.map_none, Option.getD_none] at hrest
  omega

theorem count_set_add (l : List (Option Nat)) (i : Nat) (o : Option Nat) (h : l[i]? = some o)
    (a b : Option Nat) : (l.set i a).count b + (if o = b then 1 else 0) =
      l.count b + if a = b then 1 else 0 := by
  obtain ⟨hi, rfl⟩ := List.getElem?_eq_some_iff.mp h
  have hpos : l[i] = b → 0 < l.count b := by
    intro he
    apply List.count_pos_iff.mpr
    rw [← he]
    exact List.getElem_mem hi
  rw [List.count_set hi]
  simp only [beq_iff_eq]
  split <;> split <;> simp_all

section step
variable (t : Traced) (h : Filed t)
include h

/-- The timer of a slot runs when it has been started for a post. -/
theorem Filed.armed_of (slot i : Nat) (ha : t.trace.armer[slot]? = some (some i)) :
    t.state.loop.armed slot = true := by
  rw [← h.armer slot, ha]
  rfl

/-- A call stores to the slot it holds, or to none. -/
theorem filed_store (i : Nat) (c : Caller) (hc : t.state.callers[i]? = some c) (m : Loop)
    (c' : Option Caller) (hm : ∀ slot, c.pc.slot ≠ some slot → m.cmd slot = t.state.loop.cmd slot)
    (hlen : m.delayedTasks.length = t.state.loop.delayedTasks.length)
    (ha : ∀ slot, m.armed slot = t.state.loop.armed slot) (hc' : ∀ d ∈ c', d.Stored m) (s : State)
    (hs : s = { t.state with
      loop := m, callers := t.state.callers.take i ++ c'.toList ++ t.state.callers.drop (i + 1) })
    (ho : s.Owned) : Filed ⟨s, t.trace⟩ := by
  have hapart := owned_apart t.state h.owned i c hc
  have hcaller := State.owned_caller t.state h.owned c (List.mem_of_getElem? hc)
  subst hs
  refine ⟨ho, ?_, h.slots.trans hlen.symm, fun slot => (h.armer slot).trans (ha slot).symm, ?_, h.idle, ?_,
    h.fired, h.once⟩
  · intro d hd
    have hold (hd : d ∈ t.state.callers.take i ++ t.state.callers.drop (i + 1)) : d.Stored m := by
      refine (h.callers d (mem_of_mem_others hd)).same _ _ _ fun slot hslot => hm slot ?_
      intro he
      exact hapart slot he d hd hslot
    rcases List.mem_append.mp hd with hd | hd
    · rcases List.mem_append.mp hd with hd | hd
      · exact hold (List.mem_append_left _ hd)
      · exact hc' d (Option.mem_toList.mp hd)
    · exact hold (List.mem_append_right _ hd)
  · intro slot n hn
    obtain ⟨cmd, he, hcmd⟩ := h.armed slot n hn
    refine ⟨cmd, he, (hm slot ?_).trans hcmd⟩
    intro hslot
    have harmed := h.armed_of t slot n hn
    rw [(hcaller slot hslot).2.1] at harmed
    cases harmed
  · intro pc hpc
    refine (h.callback pc hpc).same _ _ _ _ _ (hm _ ?_) rfl fun _ _ => id
    intro hslot
    exact (hcaller _ hslot).2.2 pc hpc rfl

/-- Where no timer runs, none has been started. -/
theorem Filed.unarmed (slot : Nat) (hu : t.state.loop.inUse slot = true)
    (ha : t.state.loop.armed slot = false) : t.trace.armer[slot]? = some none := by
  have hlt : slot < t.trace.armer.length := h.slots ▸ lt_of_inUse _ _ hu
  have hnone := h.armer slot
  rw [ha, List.getElem?_eq_getElem hlt] at hnone
  rw [List.getElem?_eq_getElem hlt]
  exact congrArg some (Option.not_isSome_iff_eq_none.mp (ne_true_of_eq_false hnone))

/-- The timer is started for a post. -/
theorem filed_accept (rate : UInt32) (i slot : Nat) (p : Post)
    (hc : t.state.callers[i]? = some ⟨p, .changePeriod slot⟩) (s : State)
    (hs : s = { t.state with
      loop := t.state.loop.setTimer slot (some (ticks rate p.delay))
      callers := t.state.callers.take i ++ [] ++ t.state.callers.drop (i + 1) })
    (ho : s.Owned) : Filed ⟨s, { t.trace with
        accepted := t.trace.accepted ++ [(slot, p.cmd)]
        armer := t.trace.armer.set slot (some t.trace.accepted.length) }⟩ := by
  obtain ⟨hu, hnot, hback⟩ := State.owned_caller t.state h.owned _ (List.mem_of_getElem? hc) slot rfl
  have hlt := lt_of_inUse _ _ hu
  have hnone := h.unarmed t slot hu hnot
  have hstored : t.state.loop.cmd slot = some p.cmd := h.callers _ (List.mem_of_getElem? hc)
  have hold (n : Nat) (e : Nat × AppCommand) (he : t.trace.accepted[n]? = some e) :
      (t.trace.accepted ++ [(slot, p.cmd)])[n]? = some e := by
    rw [List.getElem?_append_left (List.getElem?_eq_some_iff.mp he).1]
    exact he
  subst hs
  refine ⟨ho, ?_, ?_, ?_, ?_, h.idle, ?_, ?_, ?_⟩
  · intro d hd
    rw [List.append_nil] at hd
    exact (h.callers d (mem_of_mem_others hd)).same _ _ _ fun slot' _ => setTimer_cmd _ _ _ _
  · rw [List.length_set, h.slots]
    exact (List.length_modify _ _ _).symm
  · intro slot'
    rw [setTimer_armed _ _ _ _ hlt, List.getElem?_set]
    split
    · rw [if_pos (h.slots ▸ hlt)]
      rfl
    · exact h.armer slot'
  · intro slot' n hn
    rw [List.getElem?_set] at hn
    split at hn
    · rename_i he
      subst he
      rw [if_pos (h.slots ▸ hlt), Option.some.injEq, Option.some.injEq] at hn
      subst hn
      exact ⟨p.cmd, List.getElem?_concat_length, (setTimer_cmd _ _ _ _).trans hstored⟩
    · obtain ⟨cmd, he, hcmd⟩ := h.armed slot' n hn
      exact ⟨cmd, hold n _ he, (setTimer_cmd _ _ _ _).trans hcmd⟩
  · intro pc hpc
    exact (h.callback pc hpc).same _ _ _ _ _ (setTimer_cmd _ _ _ _) rfl hold
  · intro e he
    obtain ⟨n, slot', hn, ha⟩ := h.fired e he
    exact ⟨n, slot', hn, hold n _ ha⟩
  · intro n
    have honce := h.once n
    have hcount := count_set_add t.trace.armer slot none hnone (some t.trace.accepted.length) (some n)
    simp only [reduceCtorEq, if_false, Option.some.injEq] at hcount
    dsimp only
    rw [List.length_append, List.length_singleton]
    by_cases hn : t.trace.accepted.length = n
    · rw [if_pos hn] at hcount
      have hbefore : ¬ n < t.trace.accepted.length := by omega
      have hnow : n < t.trace.accepted.length + 1 := by omega
      rw [if_neg hbefore] at honce
      rw [if_pos hnow]
      omega
    · rw [if_neg hn] at hcount
      have hsame : n < t.trace.accepted.length + 1 ↔ n < t.trace.accepted.length := by omega
      simp only [hsame]
      omega

theorem filed_fire (slot : Nat) (hb : t.state.callback = none) (ha : t.state.loop.armed slot = true)
    (s : State) (hs : s = { t.state with
      loop := t.state.loop.setTimer slot none, callback := some (.readExecute slot) })
    (ho : s.Owned) : Filed ⟨s, { t.trace with
        armer := t.trace.armer.set slot none, firing := t.trace.armer[slot]?.join }⟩ := by
  have hlt := lt_of_armed _ _ ha
  obtain ⟨o, ho', hsome⟩ := (Option.any_eq_true _ _).mp ((h.armer slot).trans ha)
  obtain ⟨n, rfl⟩ := Option.isSome_iff_exists.mp hsome
  obtain ⟨cmd, he, hcmd⟩ := h.armed slot n ho'
  have hfiring : t.trace.armer[slot]?.join = some n := by
    rw [ho']
    rfl
  subst hs
  refine ⟨ho, ?_, ?_, ?_, ?_, nofun, ?_, h.fired, ?_⟩
  · intro d hd
    exact (h.callers d hd).same _ _ _ fun slot' _ => setTimer_cmd _ _ _ _
  · rw [List.length_set, h.slots]
    exact (List.length_modify _ _ _).symm
  · intro slot'
    rw [setTimer_armed _ _ _ _ hlt, List.getElem?_set]
    split
    · rw [if_pos (h.slots ▸ hlt)]
      rfl
    · exact h.armer slot'
  · intro slot' i hi
    rw [List.getElem?_set] at hi
    split at hi
    · split at hi
      · cases Option.some.inj hi
      · cases hi
    · obtain ⟨cmd, he, hcmd⟩ := h.armed slot' i hi
      exact ⟨cmd, he, (setTimer_cmd _ _ _ _).trans hcmd⟩
  · intro pc hpc
    rw [← Option.some.inj hpc]
    exact ⟨n, cmd, hfiring, he, (setTimer_cmd _ _ _ _).trans hcmd⟩
  · intro i
    have honce := h.once i
    have hcount := count_set_add t.trace.armer slot (some n) ho' none (some i)
    rw [h.idle hb] at honce
    simp only [reduceCtorEq, if_false, Option.some.injEq] at hcount honce
    simp only [hfiring, Option.some.injEq]
    omega

theorem filed_callback (capacity : Nat) (pc : CallbackPc) (hpc : t.state.callback = some pc) (loop : Loop)
    (callback : Option CallbackPc) (hstep : pc.step capacity t.state.loop = some (loop, callback))
    (s : State) (hs : s = { t.state with loop, callback }) (ho : s.Owned) :
    Filed ⟨s, t.trace.next t.state .callback⟩ := by
  have hreads := h.callback pc hpc
  subst hs
  cases pc with
  | readExecute slot =>
    obtain ⟨d, hd, hr⟩ := Option.map_eq_some_iff.mp hstep
    obtain ⟨rfl, rfl⟩ := Prod.mk.inj hr
    obtain ⟨n, cmd, hn, he, hcmd⟩ := hreads
    have hcmd' := cmd_eq _ slot d cmd hd hcmd
    rw [Trace.next, hpc]
    refine ⟨ho, h.callers, h.slots, h.armer, h.armed, nofun, ?_, h.fired, h.once⟩
    intro pc hpc
    rw [← Option.some.inj hpc]
    exact ⟨n, cmd, hn, he, hcmd, congrArg AppCommand.execute hcmd'⟩
  | readArg slot execute =>
    obtain ⟨d, hd, hr⟩ := Option.map_eq_some_iff.mp hstep
    obtain ⟨rfl, rfl⟩ := Prod.mk.inj hr
    obtain ⟨n, cmd, hn, he, hcmd, rfl⟩ := hreads
    have hcmd' := cmd_eq _ slot d cmd hd hcmd
    rw [Trace.next, hpc]
    refine ⟨ho, h.callers, h.slots, h.armer, h.armed, nofun, ?_, h.fired, h.once⟩
    intro pc hpc
    rw [← Option.some.inj hpc, hcmd']
    exact ⟨n, hn, he⟩
  | push slot cmd =>
    obtain ⟨rfl, rfl⟩ := Prod.mk.inj (Option.some.inj hstep)
    obtain ⟨n, hn, he⟩ := hreads
    rw [Trace.next, hpc]
    have ht := pushFunc_delayedTasks t.state.loop capacity cmd
    refine ⟨ho, ?_, ?_, ?_, ?_, fun _ => rfl, ?_, ?_, ?_⟩
    · intro d hd
      exact (h.callers d hd).same _ _ _ fun slot' _ => pushFunc_cmd _ _ _ _
    · exact h.slots.trans (congrArg List.length ht.symm)
    · intro slot'
      exact (h.armer slot').trans (pushFunc_armed _ _ _ _).symm
    · intro slot' i hi
      obtain ⟨cmd, he, hcmd⟩ := h.armed slot' i hi
      exact ⟨cmd, he, (pushFunc_cmd _ _ _ _).trans hcmd⟩
    · intro pc hpc
      rw [← Option.some.inj hpc]
      rfl
    · intro e hm
      rcases List.mem_append.mp hm with hm | hm
      · exact h.fired e hm
      · rw [List.mem_singleton.mp hm]
        exact ⟨n, slot, hn, he⟩
    · intro i
      have honce := h.once i
      rw [hn] at honce ⊢
      simp only [List.map_append, List.map_cons, List.map_nil, List.count_append, List.count_singleton,
        beq_iff_eq, reduceCtorEq, if_false]
      omega
  | free slot =>
    obtain ⟨rfl, rfl⟩ := Prod.mk.inj (Option.some.inj hstep)
    rw [Trace.next, hpc]
    refine ⟨ho, ?_, ?_, ?_, ?_, fun _ => hreads, nofun, h.fired, h.once⟩
    · intro d hd
      exact (h.callers d hd).same _ _ _ fun slot' _ => setInUse_cmd _ _ _ _
    · rw [h.slots]
      exact (List.length_modify _ _ _).symm
    · intro slot'
      exact (h.armer slot').trans (setInUse_armed _ _ _ _).symm
    · intro slot' i hi
      obtain ⟨cmd, he, hcmd⟩ := h.armed slot' i hi
      exact ⟨cmd, he, (setInUse_cmd _ _ _ _).trans hcmd⟩

omit h in
/-- A call that starts no timer. -/
theorem stored_filed (i : Nat) (ok : Bool) (p : Post) (pc : PostPc)
    (hc : t.state.callers[i]? = some ⟨p, pc⟩) (hpc : ok = false ∨ ∀ slot, pc ≠ .changePeriod slot) (s : State) (hf : Filed ⟨s, t.trace⟩) :
    Filed ⟨s, t.trace.next t.state (.call i ok)⟩ := by
  have hsame : t.trace.next t.state (.call i ok) = t.trace := by
    cases ok with
    | false => rfl
    | true =>
      rw [Trace.next, hc]
      cases pc with
      | changePeriod slot => exact absurd rfl (hpc.resolve_left nofun slot)
      | _ => rfl
  rw [hsame]
  exact hf

theorem filed_call (capacity i : Nat) (rate : UInt32) (ok : Bool) (s : State)
    (hn : t.state.next capacity rate (.call i ok) = some s) :
    Filed ⟨s, t.trace.next t.state (.call i ok)⟩ := by
  have ho := State.owned_call capacity i rate ok t.state s h.owned hn
  obtain ⟨⟨p, pc⟩, hc, hs⟩ := State.next_call capacity rate t.state s i ok hn
  have hstore := filed_store t h i ⟨p, pc⟩ hc
  cases pc with
  | delay =>
    apply stored_filed t i ok p _ hc (.inr fun slot => PostPc.noConfusion)
    have ht := pushFunc_delayedTasks t.state.loop capacity p.cmd
    simp only [Post.step] at hs
    split at hs
    · exact hstore _ none (fun _ _ => pushFunc_cmd _ _ _ _) (congrArg List.length ht)
        (fun _ => pushFunc_armed _ _ _ _) (fun d hd => by cases hd) s hs ho
    · refine hstore _ (some ⟨p, .claim⟩) (fun _ _ => rfl) rfl (fun _ => rfl) ?_ s hs ho
      intro d hd
      rw [← Option.some.inj hd]
      trivial
  | claim =>
    apply stored_filed t i ok p _ hc (.inr fun slot => PostPc.noConfusion)
    simp only [Post.step] at hs
    split at hs
    · rename_i slot hslot
      refine hstore _ (some ⟨p, .storeArg slot⟩) (fun _ _ => setInUse_cmd _ _ _ _)
        (List.length_modify _ _ _) (fun _ => setInUse_armed _ _ _ _) ?_ s hs ho
      intro d hd
      rw [← Option.some.inj hd]
      trivial
    · exact hstore _ none (fun _ _ => rfl) rfl (fun _ => rfl) (fun d hd => by cases hd) s hs ho
  | storeArg slot =>
    apply stored_filed t i ok p _ hc (.inr fun slot => PostPc.noConfusion)
    obtain ⟨hu, -, -⟩ := State.owned_caller t.state h.owned _ (List.mem_of_getElem? hc) slot rfl
    obtain ⟨cmd, hcmd⟩ := cmd_of_inUse t.state.loop slot hu
    refine hstore _ (some ⟨p, .storeExecute slot⟩)
      (fun slot' hne => setArg_cmd_of_ne _ (fun he => hne (congrArg some he)) _) (List.length_modify _ _ _)
      (fun _ => setArg_armed _ _ _ _) ?_ s hs ho
    intro d hd
    rw [← Option.some.inj hd]
    show ((t.state.loop.setArg slot p.cmd.arg).cmd slot).map (·.arg) = some p.cmd.arg
    rw [setArg_cmd, hcmd]
    rfl
  | storeExecute slot =>
    apply stored_filed t i ok p _ hc (.inr fun slot => PostPc.noConfusion)
    obtain ⟨cmd, hcmd, harg⟩ := Option.map_eq_some_iff.mp (h.callers _ (List.mem_of_getElem? hc))
    refine hstore _ (some ⟨p, .changePeriod slot⟩)
      (fun slot' hne => setExecute_cmd_of_ne _ (fun he => hne (congrArg some he)) _)
      (List.length_modify _ _ _) (fun _ => setExecute_armed _ _ _ _) ?_ s hs ho
    intro d hd
    rw [← Option.some.inj hd]
    show (t.state.loop.setExecute slot p.cmd.execute).cmd slot = some p.cmd
    rw [setExecute_cmd, hcmd, Option.map_some, harg]
  | changePeriod slot =>
    cases ok with
    | false =>
      apply stored_filed t i false p _ hc (.inl rfl)
      refine hstore _ (some ⟨p, .rollback slot⟩) (fun _ _ => rfl) rfl (fun _ => rfl) ?_ s hs ho
      intro d hd
      rw [← Option.some.inj hd]
      trivial
    | true =>
      rw [Trace.next, hc]
      exact filed_accept t h rate i slot p hc s hs ho
  | rollback slot =>
    apply stored_filed t i ok p _ hc (.inr fun slot => PostPc.noConfusion)
    exact hstore _ none (fun _ _ => setInUse_cmd _ _ _ _) (List.length_modify _ _ _)
      (fun _ => setInUse_armed _ _ _ _) (fun d hd => by cases hd) s hs ho

/-- The pool, the calls and the callback are the same. -/
theorem filed_same (s : State) (ht : s.loop.delayedTasks = t.state.loop.delayedTasks)
    (hc : ∀ c ∈ s.callers, c ∈ t.state.callers ∨ c.pc = .delay) (hb : s.callback = t.state.callback)
    (ho : s.Owned) : Filed ⟨s, t.trace⟩ := by
  have hcmd (slot : Nat) : s.loop.cmd slot = t.state.loop.cmd slot := by
    unfold Loop.cmd
    rw [ht]
  refine ⟨ho, ?_, h.slots.trans (congrArg List.length ht.symm), ?_, ?_, ?_, ?_, h.fired, h.once⟩
  · intro c hm
    rcases hc c hm with hm | hpc
    · exact (h.callers c hm).same _ _ _ fun slot _ => hcmd slot
    · unfold Caller.Stored
      rw [hpc]
      trivial
  · intro slot
    show _ = s.loop.armed slot
    unfold Loop.armed
    rw [ht]
    exact h.armer slot
  · intro slot i hi
    obtain ⟨cmd, he, hm⟩ := h.armed slot i hi
    exact ⟨cmd, he, (hcmd slot).trans hm⟩
  · intro hnone
    exact h.idle (hb.symm.trans hnone)
  · intro pc hpc
    rw [hb] at hpc
    exact (h.callback pc hpc).same _ _ _ _ _ (hcmd _) rfl fun _ _ => id

theorem filed_next (capacity : Nat) (rate : UInt32) (l : Label) (t' : Traced)
    (hn : t.next capacity rate l = some t') : Filed t' := by
  obtain ⟨s, hs, rfl⟩ := Option.map_eq_some_iff.mp hn
  have ho := State.owned_next capacity rate t.state l s h.owned hs
  cases l with
  | begin p =>
    obtain rfl := Option.some.inj hs
    refine filed_same t h _ rfl ?_ rfl ho
    intro c hc
    rcases List.mem_append.mp hc with hc | hc
    · exact .inl hc
    · exact .inr (by rw [List.mem_singleton.mp hc])
  | call i ok => exact filed_call t h capacity i rate ok s hs
  | fire slot =>
    obtain ⟨hb, ha, hs⟩ := State.next_fire capacity rate t.state s slot hs
    exact filed_fire t h slot hb ha s hs ho
  | callback =>
    obtain ⟨pc, loop, callback, hpc, hstep, hs⟩ := State.next_callback capacity rate t.state s hs
    exact filed_callback t h capacity pc hpc loop callback hstep s hs ho
  | receive =>
    obtain ⟨cmd, queue, -, rfl⟩ := State.next_receive capacity rate t.state s hs
    exact filed_same t h _ rfl (fun _ => .inl) rfl ho
  | push cmd =>
    obtain rfl := Option.some.inj hs
    exact filed_same t h _ (pushFunc_delayedTasks t.state.loop capacity cmd) (fun _ => .inl) rfl ho

end step

theorem start_filed (memory : List AppCommand) : Filed (.start memory) := by
  have hnone (o : Option Nat) (h : o ∈ (Traced.start memory).trace.armer) : o = none := by
    obtain ⟨cmd, -, hcmd⟩ := List.mem_map.mp h
    exact hcmd.symm
  refine ⟨State.constructed_owned memory, nofun, ?_, ?_, ?_, fun _ => rfl, nofun, nofun, ?_⟩
  · simp [Traced.start, State.constructed, Loop.constructed]
  · intro slot
    simp only [Traced.start, State.constructed, Loop.constructed, Loop.armed, List.getElem?_map,
      Option.any_map]
    rfl
  · intro slot i hi
    cases hnone _ (List.mem_of_getElem? hi)
  · intro i
    have hcount : (Traced.start memory).trace.armer.count (some i) = 0 :=
      List.count_eq_zero.mpr fun hm => Option.some_ne_none i (hnone _ hm)
    rw [hcount]
    rfl

/-- The callback has pushed for the post. -/
def Trace.Fired (r : Trace) (i : Nat) : Prop := some i ∈ r.fired.map Prod.fst

/-- A post is still to fire: its slot's timer runs for it, or the callback does. -/
def Traced.Pending (t : Traced) (i slot : Nat) : Prop :=
  (t.trace.armer[slot]? = some (some i) ∧ t.state.loop.armed slot = true) ∨
    (t.trace.firing = some i ∧ ∃ pc ∈ t.state.callback, pc.slot = slot)

section posts
variable (t : Traced) (h : Filed t)
include h

theorem Filed.pending (i slot : Nat) (cmd : AppCommand) (ha : t.trace.accepted[i]? = some (slot, cmd))
    (hf : ¬ t.trace.Fired i) : t.Pending i slot := by
  have honce := h.once i
  rw [List.count_eq_zero.mpr hf, if_pos (List.getElem?_eq_some_iff.mp ha).1] at honce
  by_cases hfiring : t.trace.firing = some i
  · right
    refine ⟨hfiring, ?_⟩
    cases hb : t.state.callback with
    | none =>
      rw [h.idle hb] at hfiring
      cases hfiring
    | some pc =>
      have hslot (n slot' : Nat) (cmd' : AppCommand) (hn : t.trace.firing = some n)
          (he : t.trace.accepted[n]? = some (slot', cmd')) : slot' = slot := by
        rw [hfiring] at hn
        rw [← Option.some.inj hn, ha] at he
        exact (congrArg Prod.fst (Option.some.inj he)).symm
      refine ⟨pc, rfl, ?_⟩
      have hreads := h.callback pc hb
      cases pc with
      | readExecute k =>
        obtain ⟨n, cmd', hn, he, -⟩ := hreads
        exact hslot n k cmd' hn he
      | readArg k execute =>
        obtain ⟨n, cmd', hn, he, -⟩ := hreads
        exact hslot n k cmd' hn he
      | push k cmd' =>
        obtain ⟨n, hn, he⟩ := hreads
        exact hslot n k cmd' hn he
      | free k => cases hfiring.symm.trans hreads
  · left
    rw [if_neg hfiring] at honce
    have hpos : 0 < t.trace.armer.count (some i) := by omega
    obtain ⟨k, hk⟩ := List.getElem?_of_mem (List.count_pos_iff.mp hpos)
    obtain ⟨cmd', he, -⟩ := h.armed k i hk
    have hslot : slot = k := congrArg Prod.fst (Option.some.inj (ha.symm.trans he))
    rw [hslot]
    exact ⟨hk, h.armed_of t k i hk⟩

/-- An armed timer and a callback do not hold the same slot. -/
theorem Filed.armed_apart (slot : Nat) (ha : t.state.loop.armed slot = true) (pc : CallbackPc)
    (hpc : pc ∈ t.state.callback) : pc.slot ≠ slot := by
  intro he
  have hle := State.owned_alone t.state h.owned slot
  rw [ha, Option.mem_def.mp hpc, Option.map_some, Option.getD_some, CallbackPc.holds, if_pos he] at hle
  simp only [Bool.toNat_true] at hle
  omega

theorem Filed.exclusive (i j slot : Nat) (hi : t.Pending i slot) (hj : t.Pending j slot) : i = j := by
  rcases hi with ⟨hi, ha⟩ | ⟨hi, pc, hpc, hs⟩
  · rcases hj with ⟨hj, -⟩ | ⟨-, pc, hpc, hs⟩
    · exact Option.some.inj (Option.some.inj (hi.symm.trans hj))
    · exact absurd hs (h.armed_apart t slot ha pc hpc)
  · rcases hj with ⟨-, ha⟩ | ⟨hj, -⟩
    · exact absurd hs (h.armed_apart t slot ha pc hpc)
    · exact Option.some.inj (hi.symm.trans hj)

theorem Filed.fired_nodup : (t.trace.fired.map Prod.fst).Nodup := by
  apply List.nodup_iff_count.mpr
  intro o
  cases o with
  | none =>
    have hnone : none ∉ t.trace.fired.map Prod.fst := by
      intro hm
      obtain ⟨e, he, hn⟩ := List.mem_map.mp hm
      obtain ⟨i, slot, hi, -⟩ := h.fired e he
      cases hn.symm.trans hi
    rw [List.count_eq_zero.mpr hnone]
    exact Nat.zero_le 1
  | some i =>
    have honce := h.once i
    have hle : (if i < t.trace.accepted.length then 1 else 0) ≤ 1 := by
      split
      · exact Nat.le_refl 1
      · exact Nat.zero_le 1
    omega

omit h in
/-- A slot in use has a holder. -/
theorem holder_of_inUse (s : State) (hs : s.Owned) (slot : Nat) (hu : s.loop.inUse slot = true) :
    (∃ c ∈ s.callers, c.pc.slot = some slot) ∨ s.loop.armed slot = true ∨
      ∃ pc ∈ s.callback, pc.slot = slot := by
  by_contra hnone
  push Not at hnone
  obtain ⟨hc, ha, hb⟩ := hnone
  have hcallers : (s.callers.map fun c => c.pc.holds slot).sum = 0 := by
    apply List.sum_eq_zero_iff_forall_eq_nat.mpr
    intro n hn
    obtain ⟨c, hm, rfl⟩ := List.mem_map.mp hn
    exact if_neg (hc c hm)
  have hcallback : (s.callback.map (CallbackPc.holds slot)).getD 0 = 0 := by
    cases hpc : s.callback with
    | none => rfl
    | some pc => exact if_neg (hb pc hpc)
  have hone := hs slot
  rw [State.holders, hcallers, hcallback, hu, eq_false_of_ne_true ha] at hone
  cases hone

end posts

end Espbase.MainLoop
