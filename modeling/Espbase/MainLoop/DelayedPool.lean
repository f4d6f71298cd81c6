import Espbase.MainLoop.DelayedTask

namespace Espbase.MainLoop

open Espbase.Lib

section slots
variable (m : Loop) (slot slot' : Nat)

def Loop.inUse : Bool := m.delayedTasks[slot]?.any (·.inUse)

def Loop.armed : Bool := m.delayedTasks[slot]?.any (·.timer.isSome)

theorem pushFunc_delayedTasks (capacity : Nat) (cmd : AppCommand) :
    (m.pushFunc capacity cmd).1.delayedTasks = m.delayedTasks := by
  unfold Loop.pushFunc
  split <;> rfl

@[simp] theorem pushFunc_inUse (capacity : Nat) (cmd : AppCommand) :
    (m.pushFunc capacity cmd).1.inUse slot = m.inUse slot := by
  unfold Loop.inUse
  rw [pushFunc_delayedTasks]

@[simp] theorem pushFunc_armed (capacity : Nat) (cmd : AppCommand) :
    (m.pushFunc capacity cmd).1.armed slot = m.armed slot := by
  unfold Loop.armed
  rw [pushFunc_delayedTasks]

theorem any_modify (l : List DelayedTask) (f : DelayedTask → DelayedTask) (p : DelayedTask → Bool) :
    (l.modify slot f)[slot']?.any p =
      if slot = slot' then l[slot']?.any fun d => p (f d) else l[slot']?.any p := by
  rw [List.getElem?_modify]
  split
  · exact Option.any_map
  · rw [Option.map_eq_map, Option.map_id_fun']
    rfl

theorem any_modify_keep (l : List DelayedTask) (f : DelayedTask → DelayedTask) (p : DelayedTask → Bool)
    (h : ∀ d, p (f d) = p d) : (l.modify slot f)[slot']?.any p = l[slot']?.any p := by
  rw [any_modify, funext h, ite_self]

theorem any_modify_const (l : List DelayedTask) (f : DelayedTask → DelayedTask) (p : DelayedTask → Bool)
    (b : Bool) (hs : slot < l.length) (h : ∀ d, p (f d) = b) :
    (l.modify slot f)[slot']?.any p = if slot = slot' then b else l[slot']?.any p := by
  rw [any_modify]
  split
  · subst slot'
    rw [List.getElem?_eq_getElem hs]
    exact h _
  · rfl

@[simp] theorem setArg_inUse (v : UInt32) : (m.setArg slot v).inUse slot' = m.inUse slot' :=
  any_modify_keep slot slot' _ _ _ fun _ => rfl

@[simp] theorem setArg_armed (v : UInt32) : (m.setArg slot v).armed slot' = m.armed slot' :=
  any_modify_keep slot slot' _ _ _ fun _ => rfl

@[simp] theorem setExecute_inUse (v : UInt32) : (m.setExecute slot v).inUse slot' = m.inUse slot' :=
  any_modify_keep slot slot' _ _ _ fun _ => rfl

@[simp] theorem setExecute_armed (v : UInt32) : (m.setExecute slot v).armed slot' = m.armed slot' :=
  any_modify_keep slot slot' _ _ _ fun _ => rfl

@[simp] theorem setInUse_armed (b : Bool) : (m.setInUse slot b).armed slot' = m.armed slot' :=
  any_modify_keep slot slot' _ _ _ fun _ => rfl

@[simp] theorem setTimer_inUse (t : Option UInt32) : (m.setTimer slot t).inUse slot' = m.inUse slot' :=
  any_modify_keep slot slot' _ _ _ fun _ => rfl

theorem setInUse_inUse (b : Bool) (hs : slot < m.delayedTasks.length) :
    (m.setInUse slot b).inUse slot' = if slot = slot' then b else m.inUse slot' :=
  any_modify_const slot slot' _ _ _ b hs fun _ => rfl

theorem setTimer_armed (t : Option UInt32) (hs : slot < m.delayedTasks.length) :
    (m.setTimer slot t).armed slot' = if slot = slot' then t.isSome else m.armed slot' :=
  any_modify_const slot slot' _ _ _ t.isSome hs fun _ => rfl

theorem lt_of_inUse (h : m.inUse slot = true) : slot < m.delayedTasks.length := by
  obtain ⟨d, hd, -⟩ := (Option.any_eq_true _ _).mp h
  exact (List.getElem?_eq_some_iff.mp hd).1

theorem lt_of_armed (h : m.armed slot = true) : slot < m.delayedTasks.length := by
  obtain ⟨d, hd, -⟩ := (Option.any_eq_true _ _).mp h
  exact (List.getElem?_eq_some_iff.mp hd).1

end slots

/-- The slot that a call has claimed and not given away. -/
def PostPc.slot : PostPc → Option Nat
  | .delay => none
  | .claim => none
  | .storeArg slot => some slot
  | .storeExecute slot => some slot
  | .changePeriod slot => some slot
  | .rollback slot => some slot

def CallbackPc.slot : CallbackPc → Nat
  | .readExecute slot => slot
  | .readArg slot _ => slot
  | .push slot _ => slot
  | .free slot => slot

def PostPc.holds (slot : Nat) (pc : PostPc) : Nat := if pc.slot = some slot then 1 else 0

def CallbackPc.holds (slot : Nat) (pc : CallbackPc) : Nat := if pc.slot = slot then 1 else 0

namespace State

/-- The calls, armed timers and callbacks that a slot has. -/
def holders (s : State) (slot : Nat) : Nat :=
  (s.callers.map fun c => c.pc.holds slot).sum + (s.loop.armed slot).toNat +
    (s.callback.map (CallbackPc.holds slot)).getD 0

/-- A slot in use has one holder, and a free one has none. -/
def Owned (s : State) : Prop := ∀ slot, s.holders slot = (s.loop.inUse slot).toNat

/-- Its holder has a slot to itself. -/
theorem owned_alone (s : State) (hs : s.Owned) (slot : Nat) :
    (s.callers.map fun c => c.pc.holds slot).sum + (s.loop.armed slot).toNat +
      (s.callback.map (CallbackPc.holds slot)).getD 0 ≤ 1 := by
  have h := hs slot
  have hle := Bool.toNat_le (s.loop.inUse slot)
  unfold holders at h
  omega

theorem inUse_of_holder (s : State) (hs : s.Owned) (slot : Nat) (h : 0 < s.holders slot) :
    s.loop.inUse slot = true := by
  rw [hs slot] at h
  cases hu : s.loop.inUse slot with
  | true => rfl
  | false =>
    rw [hu] at h
    cases h

theorem callers_hold (s : State) (c : Caller) (hc : c ∈ s.callers) (slot : Nat)
    (h : c.pc.slot = some slot) : 0 < (s.callers.map fun c => c.pc.holds slot).sum := by
  obtain ⟨i, hi⟩ := List.getElem?_of_mem hc
  have hsum := pool_sum s.callers i c hi none fun c => c.pc.holds slot
  have hone : c.pc.holds slot = 1 := if_pos h
  rw [hone, Option.map_none, Option.getD_none] at hsum
  omega

/-- The slot that a call holds is in use, and its timer does not run. -/
theorem owned_caller (s : State) (hs : s.Owned) (c : Caller) (hc : c ∈ s.callers) (slot : Nat)
    (h : c.pc.slot = some slot) : s.loop.inUse slot = true ∧ s.loop.armed slot = false ∧
      ∀ pc ∈ s.callback, pc.slot ≠ slot := by
  have hpos := callers_hold s c hc slot h
  have hle := owned_alone s hs slot
  refine ⟨inUse_of_holder s hs slot (by unfold holders; omega), ?_, ?_⟩
  · apply Bool.toNat_eq_zero.mp
    omega
  · intro pc hpc he
    rw [Option.mem_def.mp hpc, Option.map_some, Option.getD_some, CallbackPc.holds, if_pos he] at hle
    omega

/-- A step of a call changes the holders of a slot as it changes its use. -/
theorem owned_post (capacity : Nat) (rate : UInt32) (ok : Bool) (m : Loop) (p : Post) (pc : PostPc)
    (hpc : ∀ slot, pc.slot = some slot → m.inUse slot = true ∧ m.armed slot = false) (slot : Nat) :
    let r := p.step capacity rate ok m pc
    (r.2.getLeft?.map (PostPc.holds slot)).getD 0 + (r.1.armed slot).toNat + (m.inUse slot).toNat =
      pc.holds slot + (m.armed slot).toNat + (r.1.inUse slot).toNat := by
  cases pc with
  | delay =>
    simp only [Post.step]
    split
    · simp [PostPc.holds, PostPc.slot]
    · rfl
  | claim =>
    simp only [Post.step]
    split
    · rename_i k hk
      obtain ⟨hlt, hfreeK, -⟩ := List.findIdx?_eq_some_iff_getElem.mp hk
      have hold : m.inUse k = false := by
        unfold Loop.inUse
        rw [List.getElem?_eq_getElem hlt]
        simpa using hfreeK
      simp only [setInUse_armed, setInUse_inUse m k slot true hlt]
      by_cases he : k = slot
      · subst he
        simp [PostPc.holds, PostPc.slot, hold]
        omega
      · simp [PostPc.holds, PostPc.slot, he]
    · rfl
  | storeArg k =>
    simp only [Post.step, setArg_armed, setArg_inUse]
    rfl
  | storeExecute k =>
    simp only [Post.step, setExecute_armed, setExecute_inUse]
    rfl
  | changePeriod k =>
    obtain ⟨hu, ha⟩ := hpc k rfl
    simp only [Post.step]
    split
    · simp only [setTimer_armed m k slot _ (lt_of_inUse m k hu), setTimer_inUse]
      by_cases he : k = slot
      · subst he
        simp [PostPc.holds, PostPc.slot, ha]
      · simp [PostPc.holds, PostPc.slot, he]
    · rfl
  | rollback k =>
    obtain ⟨hu, -⟩ := hpc k rfl
    simp only [Post.step, setInUse_armed, setInUse_inUse m k slot false (lt_of_inUse m k hu)]
    by_cases he : k = slot
    · subst he
      simp [PostPc.holds, PostPc.slot, hu]
      omega
    · simp [PostPc.holds, PostPc.slot, he]

theorem owned_call (capacity i : Nat) (rate : UInt32) (ok : Bool) (s s' : State) (hs : s.Owned)
    (h : s.next capacity rate (.call i ok) = some s') : s'.Owned := by
  obtain ⟨c, hc, rfl⟩ := next_call capacity rate s s' i ok h
  intro slot
  have hslots : ∀ k, c.pc.slot = some k → s.loop.inUse k = true ∧ s.loop.armed k = false := by
    intro k hk
    obtain ⟨hu, ha, -⟩ := owned_caller s hs c (List.mem_of_getElem? hc) k hk
    exact ⟨hu, ha⟩
  have hstep := owned_post capacity rate ok s.loop c.post c.pc hslots slot
  have hsum := pool_sum s.callers i c hc
    ((c.post.step capacity rate ok s.loop c.pc).2.getLeft?.map (Caller.mk c.post)) fun c => c.pc.holds slot
  have hnow := hs slot
  rw [Option.map_map] at hsum
  unfold holders at hnow ⊢
  have hcomp : (fun c : Caller => c.pc.holds slot) ∘ Caller.mk c.post = PostPc.holds slot := rfl
  rw [hcomp] at hsum
  dsimp only at hstep ⊢
  omega

theorem owned_fire (s : State) (slot : Nat) (hs : s.Owned) (hc : s.callback = none)
    (ha : s.loop.armed slot = true) :
    Owned { s with loop := s.loop.setTimer slot none, callback := some (.readExecute slot) } := by
  intro k
  have hnow := hs k
  unfold holders at hnow ⊢
  simp only [setTimer_armed s.loop slot k none (lt_of_armed s.loop slot ha), setTimer_inUse, hc,
    Option.map_none, Option.map_some, Option.getD_none, Option.getD_some, CallbackPc.holds,
    CallbackPc.slot] at hnow ⊢
  by_cases he : slot = k
  · subst he
    simp [ha] at hnow ⊢
    omega
  · simpa [he] using hnow

theorem owned_callback (capacity : Nat) (s : State) (pc : CallbackPc) (loop : Loop)
    (callback : Option CallbackPc) (hs : s.Owned) (hpc : s.callback = some pc)
    (h : pc.step capacity s.loop = some (loop, callback)) : Owned { s with loop, callback } := by
  intro k
  have hnow := hs k
  cases pc with
  | readExecute slot =>
    obtain ⟨d, -, hd⟩ := Option.map_eq_some_iff.mp h
    obtain ⟨rfl, rfl⟩ := Prod.mk.inj hd
    unfold holders at hnow ⊢
    rw [hpc] at hnow
    exact hnow
  | readArg slot execute =>
    obtain ⟨d, -, hd⟩ := Option.map_eq_some_iff.mp h
    obtain ⟨rfl, rfl⟩ := Prod.mk.inj hd
    unfold holders at hnow ⊢
    rw [hpc] at hnow
    exact hnow
  | push slot cmd =>
    obtain ⟨rfl, rfl⟩ := Prod.mk.inj (Option.some.inj h)
    unfold holders at hnow ⊢
    rw [hpc] at hnow
    rw [pushFunc_armed, pushFunc_inUse]
    exact hnow
  | free slot =>
    obtain ⟨rfl, rfl⟩ := Prod.mk.inj (Option.some.inj h)
    have hu : s.loop.inUse slot = true :=
      inUse_of_holder s hs slot (by simp [holders, hpc, CallbackPc.holds, CallbackPc.slot])
    unfold holders at hnow ⊢
    simp only [hpc, setInUse_armed, setInUse_inUse s.loop slot k false (lt_of_inUse s.loop slot hu),
      Option.map_none, Option.map_some, Option.getD_none, Option.getD_some, CallbackPc.holds,
      CallbackPc.slot] at hnow ⊢
    by_cases he : slot = k
    · subst he
      simp [hu] at hnow ⊢
      omega
    · simpa [he] using hnow

/-- The pool is the same, and so are its holders. -/
theorem owned_same (s s' : State) (hs : s.Owned) (ht : s'.loop.delayedTasks = s.loop.delayedTasks)
    (hc : ∀ slot, (s'.callers.map fun c => c.pc.holds slot).sum =
      (s.callers.map fun c => c.pc.holds slot).sum) (hb : s'.callback = s.callback) : s'.Owned := by
  intro slot
  have hnow := hs slot
  unfold holders Loop.armed Loop.inUse at hnow ⊢
  rw [ht, hc, hb]
  exact hnow

theorem owned_next (capacity : Nat) (rate : UInt32) (s : State) (l : Label) (s' : State) (hs : s.Owned)
    (h : s.next capacity rate l = some s') : s'.Owned := by
  cases l with
  | begin p =>
    obtain rfl := Option.some.inj h
    refine owned_same s _ hs rfl ?_ rfl
    intro slot
    simp [PostPc.holds, PostPc.slot]
  | call i ok => exact owned_call capacity i rate ok s s' hs h
  | fire slot =>
    obtain ⟨hc, ha, rfl⟩ := next_fire capacity rate s s' slot h
    exact owned_fire s slot hs hc ha
  | callback =>
    obtain ⟨pc, loop, callback, hpc, hstep, rfl⟩ := next_callback capacity rate s s' h
    exact owned_callback capacity s pc loop callback hs hpc hstep
  | receive =>
    obtain ⟨cmd, queue, -, rfl⟩ := next_receive capacity rate s s' h
    exact owned_same s _ hs rfl (fun _ => rfl) rfl
  | push cmd =>
    obtain rfl := Option.some.inj h
    exact owned_same s _ hs (pushFunc_delayedTasks s.loop capacity cmd) (fun _ => rfl) rfl

theorem constructed_owned (memory : List AppCommand) : (constructed memory).Owned := by
  intro slot
  have hnone (p : DelayedTask → Bool) (h : ∀ cmd, p ⟨cmd, none, false⟩ = false) :
      (constructed memory).loop.delayedTasks[slot]?.any p = false := by
    simp only [constructed, Loop.constructed, List.getElem?_map, Option.any_map]
    cases memory[slot]? with
    | none => rfl
    | some cmd => exact h cmd
  unfold holders Loop.armed Loop.inUse
  rw [hnone _ fun _ => rfl, hnone _ fun _ => rfl]
  rfl

end State

end Espbase.MainLoop
