import Espbase.EspTask.System
import Mathlib.Tactic.Tauto

namespace Espbase.EspTask

open Espbase.Lib

/-- A start that has claimed the object and not yet created its task. -/
def Call.Building : Call → Prop
  | .start (.claim _) => False
  | .start .spin => False
  | .start .notifyClear => False
  | .start .notifySync => False
  | .start .notifyArg => False
  | .start (.notifyGive _) => False
  | .start (.store _) => False
  | .start _ => True
  | .reset _ => False

/-- A start between its claim of the object and its last store to `task_handle_`. -/
def Call.Claimed : Call → Prop
  | .start (.store _) => True
  | c => c.Building

instance : DecidablePred Call.Building := fun c =>
  match c with
  | .reset _ => .isFalse id
  | .start pc => by cases pc <;> first | exact .isFalse id | exact .isTrue trivial

instance : DecidablePred Call.Claimed := fun c =>
  match c with
  | .reset _ => .isFalse id
  | .start pc => by cases pc <;> first | exact .isFalse id | exact .isTrue trivial

namespace State

/-- The order of steps under which the handle says what it should.
- a start claims the object only after every task created before has terminated;
- a start stores the handle of its task before that task stores its null;
- `reset()` stores its null only while no start stands between its claim and its last store;
- the wait of `reset()` gets its token. -/
def Exclusive (s : State) : Label → Prop
  | .begin _ => True
  | .task _ _ => True
  | .call i ok =>
    match s.calls[i]? with
    | some (.start (.claim _)) => s.object.taskHandle = .null → ∀ pc ∈ s.tasks, pc = .terminated
    | some (.start (.store id)) => ∀ pc ∈ s.tasks[id]?, ¬ pc.Cleared
    | some (.reset .store) => ∀ c ∈ s.calls, ¬ c.Claimed
    | some (.reset (.take _)) => ok = true
    | _ => True

instance (s : State) (l : Label) : Decidable (s.Exclusive l) := by
  unfold Exclusive
  cases l
  case call i ok => dsimp only; split <;> infer_instance
  all_goals dsimp only; infer_instance

end State

/-- A start holds the flag until its last store, or until its task has stored its null. -/
def Call.holds (tasks : List TaskPc) : Call → Nat
  | .start (.store id) => if ∃ pc ∈ tasks[id]?, pc.Cleared then 0 else 1
  | c => if c.Building then 1 else 0

theorem holds_of_not_claimed (tasks : List TaskPc) (c : Call) (h : ¬ c.Claimed) :
    c.holds tasks = 0 := by
  cases c with
  | reset pc => rfl
  | start pc => cases pc <;> first | rfl | exact absurd trivial h

theorem holds_of_building (tasks : List TaskPc) (c : Call) (h : c.Building) :
    c.holds tasks = 1 := by
  cases c with
  | reset pc => exact h.elim
  | start pc => cases pc <;> first | rfl | exact h.elim

theorem holds_congr (tasks tasks' : List TaskPc) (c : Call)
    (h : ∀ id : Nat, (∃ pc ∈ tasks'[id]?, pc.Cleared) ↔ ∃ pc ∈ tasks[id]?, pc.Cleared) :
    c.holds tasks' = c.holds tasks := by
  cases c with
  | reset pc => rfl
  | start pc =>
    cases pc
    case store id => simp only [Call.holds, h]
    all_goals rfl

/-- A new task has not stored its null. -/
theorem holds_create (tasks : List TaskPc) (c : Call) :
    c.holds (tasks ++ [.acquire]) = c.holds tasks := by
  apply holds_congr _ _ c
  intro id
  by_cases hid : id < tasks.length
  · rw [List.getElem?_append_left hid]
  · rw [List.getElem?_append_right (by omega), List.getElem?_eq_none (l := tasks) (by omega)]
    refine ⟨?_, nofun⟩
    rintro ⟨pc, hpc, hcl⟩
    obtain rfl := List.mem_singleton.mp (List.mem_of_getElem? hpc)
    exact hcl.elim

theorem holds_set (tasks : List TaskPc) (id : Nat) (pc pc' : TaskPc) (c : Call)
    (h : tasks[id]? = some pc) (hc : pc'.Cleared ↔ pc.Cleared) :
    c.holds (tasks.set id pc') = c.holds tasks := by
  apply holds_congr _ _ c
  intro i
  have hid := (List.getElem?_eq_some_iff.mp h).1
  by_cases hi : id = i
  · subst hi
    rw [List.getElem?_set_self hid, h]
    simpa using hc
  · rw [List.getElem?_set_ne hi]

namespace State

structure Protocol (s : State) : Prop where
  holders : (s.calls.map (Call.holds s.tasks)).sum ≤ if s.object.taskHandle = .starting then 1 else 0
  building : ∀ c ∈ s.calls, c.Building → ∀ pc ∈ s.tasks, pc = .terminated
  storing : ∀ id, .start (.store id) ∈ s.calls → id < s.tasks.length
  killing : ∀ c ∈ s.calls, c ≠ .reset .killArg ∧ ∀ h, c ≠ .reset (.kill h)
  held : ∀ id, s.object.taskHandle = .task id → ∃ pc ∈ s.tasks[id]?, ¬ pc.Cleared
  single : ∀ (i j : Nat) (p q : TaskPc), s.tasks[i]? = some p → s.tasks[j]? = some q → p ≠ .terminated →
    q ≠ .terminated → i = j

theorem constructed_protocol : constructed.Protocol :=
  ⟨Nat.le_refl 0, nofun, nofun, nofun, nofun, nofun⟩

/-- What a step of a call must show to keep the protocol. -/
theorem Protocol.call (s : State) (hs : s.Protocol) (i : Nat) (c : Call) (c' : Option Call)
    (o : Object) (hc : s.calls[i]? = some c)
    (hsum : (s.calls.map (Call.holds s.tasks)).sum + (c'.map (Call.holds s.tasks)).getD 0 ≤
      (if o.taskHandle = .starting then 1 else 0) + c.holds s.tasks)
    (hb : ∀ d ∈ c', d.Building → ∀ pc ∈ s.tasks, pc = .terminated)
    (hst : ∀ id, .start (.store id) ∈ c' → id < s.tasks.length)
    (hk : ∀ d ∈ c', d ≠ .reset .killArg ∧ ∀ h, d ≠ .reset (.kill h))
    (hh : ∀ id, o.taskHandle = .task id → ∃ pc ∈ s.tasks[id]?, ¬ pc.Cleared) :
    Protocol { s with
      object := o, calls := s.calls.take i ++ c'.toList ++ s.calls.drop (i + 1) } := by
  have hp := pool_sum s.calls i c hc c' (Call.holds s.tasks)
  refine ⟨?_, ?_, ?_, ?_, hh, hs.single⟩
  · dsimp only
    omega
  · intro d hd
    rcases pool_mem s.calls i c' d hd with hd | hd
    · exact hb d hd
    · exact hs.building d hd
  · intro id hd
    rcases pool_mem s.calls i c' _ hd with hd | hd
    · exact hst id hd
    · exact hs.storing id hd
  · intro d hd
    rcases pool_mem s.calls i c' d hd with hd | hd
    · exact hk d hd
    · exact hs.killing d hd

/-- A step that leaves the handle and takes no more than the call had. -/
theorem Protocol.quiet (s : State) (hs : s.Protocol) (i : Nat) (c : Call) (c' : Option Call)
    (o : Object) (hc : s.calls[i]? = some c) (ho : o.taskHandle = s.object.taskHandle)
    (hd : ∀ d ∈ c', d.holds s.tasks ≤ c.holds s.tasks ∧ (d.Building → c.Building) ∧
      (∀ id, d ≠ .start (.store id)) ∧ d ≠ .reset .killArg ∧ ∀ h, d ≠ .reset (.kill h)) :
    Protocol { s with
      object := o, calls := s.calls.take i ++ c'.toList ++ s.calls.drop (i + 1) } := by
  have hmem := List.mem_of_getElem? hc
  refine hs.call s i c c' o hc ?_ ?_ ?_ ?_ ?_
  · rw [ho]
    have := hs.holders
    cases c' with
    | none => simp only [Option.map_none, Option.getD_none]; omega
    | some d =>
      have := (hd d rfl).1
      simp only [Option.map_some, Option.getD_some]
      omega
  · intro d h hb
    exact hs.building c hmem ((hd d h).2.1 hb)
  · intro id h
    exact absurd rfl ((hd _ h).2.2.1 id)
  · intro d h
    exact (hd d h).2.2.2
  · intro id h
    exact hs.held id (ho ▸ h)

end State

theorem semGive_handle (o : Object) (h : Option Nat) :
    (o.semGive h).taskHandle = o.taskHandle := by
  cases h <;> simp only [Object.semGive]
  · rfl
  · split_ifs <;> rfl

theorem semReset_handle (o : Object) (h : Option Nat) :
    (o.semReset h).taskHandle = o.taskHandle := by
  cases h <;> simp only [Object.semReset]
  · rfl
  · split_ifs <;> rfl

theorem semDelete_handle (o : Object) (h : Option Nat) :
    (o.semDelete h).taskHandle = o.taskHandle := by
  cases h <;> simp only [Object.semDelete]
  · rfl
  · split_ifs <;> rfl

theorem semTake_handle (o o' : Object) (ok : Bool) (h : Option Nat) (ho : o.semTake ok h = some o') :
    o'.taskHandle = o.taskHandle := by
  cases h with
  | none =>
    obtain rfl := Option.some.inj ho
    rfl
  | some h =>
    simp only [Object.semTake] at ho
    split_ifs at ho <;> obtain rfl := Option.some.inj ho <;> rfl

namespace State

theorem protocol_reset (s : State) (hs : s.Protocol) (i : Nat) (ok : Bool) (pc : ResetPc)
    (o : Object) (e : Effect) (pc' : Option ResetPc) (hc : s.calls[i]? = some (.reset pc))
    (hl : s.Exclusive (.call i ok)) (h : pc.step ok s.object = some (o, e, pc')) :
    Protocol (State.effect { s with
      object := o
      calls := s.calls.take i ++ (pc'.map Call.reset).toList ++ s.calls.drop (i + 1) } e) := by
  have hmem := List.mem_of_getElem? hc
  simp only [Exclusive, hc] at hl
  have quiet (o : Object) (pc' : Option ResetPc) (ho : o.taskHandle = s.object.taskHandle)
      (hk : ∀ q ∈ pc', q ≠ .killArg ∧ ∀ h, q ≠ .kill h) : Protocol { s with
        object := o
        calls := s.calls.take i ++ (pc'.map Call.reset).toList ++ s.calls.drop (i + 1) } := by
    apply hs.quiet s i _ _ o hc ho
    intro d hd
    obtain ⟨q, hq, rfl⟩ := Option.map_eq_some_iff.mp hd
    have := hk q hq
    exact ⟨Nat.le_refl _, id, nofun, fun he => this.1 (Call.reset.inj he),
      fun h he => this.2 h (Call.reset.inj he)⟩
  cases pc <;> simp only [ResetPc.step, Option.some.injEq, Prod.mk.injEq] at h
  case killArg => exact absurd rfl (hs.killing _ hmem).1
  case kill h' => exact absurd rfl ((hs.killing _ hmem).2 h')
  case take h' =>
    subst hl
    obtain ⟨o', ho', he⟩ := Option.map_eq_some_iff.mp h
    simp only [if_true, Prod.mk.injEq] at he
    obtain ⟨rfl, rfl, rfl⟩ := he
    exact quiet _ _ (semTake_handle _ _ _ _ ho') (by rintro _ ⟨⟩; exact ⟨nofun, nofun⟩)
  all_goals obtain ⟨rfl, rfl, rfl⟩ := h
  case store =>
    -- no start holds the flag, so nobody's claim is undone
    have hz : (s.calls.map (Call.holds s.tasks)).sum = 0 := by
      apply List.sum_eq_zero_iff_forall_eq_nat.mpr
      intro x hx
      obtain ⟨c, hcm, rfl⟩ := List.mem_map.mp hx
      exact holds_of_not_claimed s.tasks c (hl c hcm)
    refine hs.call s i _ _ _ hc ?_ (by rintro _ ⟨⟩; exact fun h => h.elim) (by rintro id ⟨⟩)
      (by rintro _ ⟨⟩; exact ⟨nofun, nofun⟩) nofun
    simp [hz, Call.holds, Call.Building]
  case syncGive h' =>
    exact quiet _ _ (semGive_handle _ h') (by rintro _ ⟨⟩; exact ⟨nofun, nofun⟩)
  case dropSyncDelete h' =>
    exact quiet _ _ (semDelete_handle _ h') (by rintro _ ⟨⟩; exact ⟨nofun, nofun⟩)
  case dropJoinDelete h' =>
    exact quiet _ _ (semDelete_handle _ h') (by rintro _ ⟨⟩; exact ⟨nofun, nofun⟩)
  all_goals
    refine quiet _ _ rfl ?_
    first | (split_ifs <;> rintro _ ⟨⟩ <;> exact ⟨nofun, nofun⟩) |
      (rintro _ ⟨⟩ <;> exact ⟨nofun, nofun⟩)

/-- A building start has the object to itself. -/
theorem Protocol.alone (s : State) (hs : s.Protocol) (i : Nat) (c : Call)
    (hc : s.calls[i]? = some c) (hb : c.Building) : s.object.taskHandle = .starting ∧
      ∀ d ∈ s.calls.take i ++ s.calls.drop (i + 1), ¬ d.Building := by
  have hsum := pool_sum s.calls i c hc none (Call.holds s.tasks)
  have hhold := hs.holders
  have hone := holds_of_building s.tasks c hb
  simp only [Option.map_none, Option.getD_none, Option.toList_none, List.append_nil] at hsum
  refine ⟨?_, ?_⟩
  · by_contra hne
    rw [if_neg hne] at hhold
    omega
  · intro d hd hdb
    have hle : (if s.object.taskHandle = .starting then 1 else 0) ≤ 1 := by split_ifs <;> omega
    have hz : ((s.calls.take i ++ s.calls.drop (i + 1)).map (Call.holds s.tasks)).sum = 0 := by
      omega
    have := List.sum_eq_zero_iff_forall_eq_nat.mp hz _ (List.mem_map_of_mem hd)
    rw [holds_of_building s.tasks d hdb] at this
    cases this

/-- The task a building start creates is the only one. -/
theorem protocol_create (s : State) (hs : s.Protocol) (i : Nat)
    (hc : s.calls[i]? = some (.start .create)) : Protocol { s with
      tasks := s.tasks ++ [.acquire]
      calls := s.calls.take i ++ [.start (.store s.tasks.length)] ++ s.calls.drop (i + 1) } := by
  have hmem := List.mem_of_getElem? hc
  have hterm := hs.building _ hmem trivial
  obtain ⟨hst, hothers⟩ := hs.alone s i _ hc trivial
  have hsum := pool_sum s.calls i _ hc (some (.start (.store s.tasks.length))) (Call.holds s.tasks)
  have hhold := hs.holders
  refine ⟨?_, ?_, ?_, ?_, ?_, ?_⟩
  · have hnew : (Call.start (.store s.tasks.length)).holds s.tasks = 1 := by
      simp [Call.holds]
    simp only [Option.map_some, Option.getD_some, hnew, Option.toList_some] at hsum
    rw [funext (holds_create s.tasks)]
    rw [show (Call.start StartPc.create).holds s.tasks = 1 from rfl] at hsum
    dsimp only
    omega
  · intro d hd hb
    simp only [List.mem_append, List.mem_singleton] at hd
    rcases hd with (hd | rfl) | hd
    · exact absurd hb (hothers d (List.mem_append_left _ hd))
    · exact hb.elim
    · exact absurd hb (hothers d (List.mem_append_right _ hd))
  · intro id hd
    rw [List.length_append]
    rcases pool_mem s.calls i (some _) _ hd with hd | hd
    · obtain rfl : s.tasks.length = id := by simpa using hd
      exact Nat.lt_succ_self _
    · exact Nat.lt_add_right _ (hs.storing id hd)
  · intro d hd
    rcases pool_mem s.calls i (some _) d hd with hd | hd
    · obtain rfl := Option.some.inj hd
      exact ⟨nofun, nofun⟩
    · exact hs.killing d hd
  · intro id hid
    rw [hst] at hid
    cases hid
  · have last (i : Nat) (p : TaskPc) (hp : (s.tasks ++ [TaskPc.acquire])[i]? = some p)
        (hne : p ≠ .terminated) : i = s.tasks.length := by
      by_contra h
      rcases Nat.lt_or_gt_of_ne h with h | h
      · rw [List.getElem?_append_left h] at hp
        exact hne (hterm p (List.mem_of_getElem? hp))
      · rw [List.getElem?_eq_none (by simp; omega)] at hp
        cases hp
    intro i j p q hp hq hpn hqn
    rw [last i p hp hpn, last j q hq hqn]

theorem protocol_start (s : State) (hs : s.Protocol) (i : Nat) (ok : Bool) (pc : StartPc)
    (hc : s.calls[i]? = some (.start pc)) (hl : s.Exclusive (.call i ok)) :
    Protocol (State.effect { s with
      object := (pc.step ok s.tasks.length s.object).1
      calls := s.calls.take i ++ (pc.step ok s.tasks.length s.object).2.2.toList ++
        s.calls.drop (i + 1) } (pc.step ok s.tasks.length s.object).2.1) := by
  have hmem := List.mem_of_getElem? hc
  have hhold := hs.holders
  simp only [Exclusive, hc] at hl
  -- a start that goes on to another place with the same claim
  have quiet (o : Object) (q : StartPc) (ho : o.taskHandle = s.object.taskHandle)
      (hq : (Call.start q).holds s.tasks ≤ (Call.start pc).holds s.tasks)
      (hb : (Call.start q).Building → (Call.start pc).Building) (hst : ∀ id, q ≠ .store id) :
      Protocol { s with
        object := o, calls := s.calls.take i ++ [.start q] ++ s.calls.drop (i + 1) } :=
    hs.quiet s i _ (some (.start q)) o hc ho fun d hd => by
      obtain rfl := Option.some.inj hd
      exact ⟨hq, hb, fun id he => hst id (Call.start.inj he), nofun, nofun⟩
  have leave (o : Object) (ho : o.taskHandle = s.object.taskHandle) : Protocol { s with
      object := o, calls := s.calls.take i ++ [] ++ s.calls.drop (i + 1) } :=
    hs.quiet s i _ none o hc ho nofun
  have hle : (s.calls.map (Call.holds s.tasks)).sum ≤ 1 := by
    split_ifs at hhold <;> omega
  cases pc
  case claim notifyIfStarted =>
    simp only [StartPc.step]
    split_ifs with h0 hn
    · have h1 : (s.calls.map (Call.holds s.tasks)).sum ≤ 0 := by
        rwa [h0, if_neg nofun] at hhold
      refine hs.call s i _ (some (.start .clearStop)) _ hc ?_ (by rintro _ ⟨⟩ -; exact hl h0)
        (by rintro id ⟨⟩) (by rintro _ ⟨⟩; exact ⟨nofun, nofun⟩) nofun
      simpa [Call.holds, Call.Building] using h1
    · exact quiet _ _ rfl (Nat.le_refl _) id nofun
    · exact leave _ rfl
  case spin | sync | join | checkSync | checkJoin =>
    simp only [StartPc.step]
    split_ifs
    · exact quiet _ _ rfl (Nat.le_refl _) id nofun
    · exact quiet _ _ rfl (Nat.le_refl _) id nofun
  case claimed | syncCreate | joinCreate =>
    cases ok
    · exact quiet _ _ rfl (Nat.le_refl _) id nofun
    · exact quiet _ _ rfl (Nat.le_refl _) id nofun
  case notifySync =>
    simp only [StartPc.step]
    split_ifs
    · exact quiet _ _ rfl (Nat.le_refl _) id nofun
    · exact leave _ rfl
  case notifyGive h => exact leave _ (semGive_handle _ h)
  case refuse =>
    refine hs.call s i _ none _ hc ?_ nofun nofun nofun nofun
    simpa [StartPc.step, Call.holds, Call.Building] using hle
  case syncReset h => exact quiet _ _ (semReset_handle _ h) (Nat.le_refl _) id nofun
  case joinReset h => exact quiet _ _ (semReset_handle _ h) (Nat.le_refl _) id nofun
  case create =>
    cases ok
    · exact quiet _ _ rfl (Nat.le_refl _) id nofun
    · exact protocol_create s hs i hc
  case store id =>
    have hid := hs.storing id hmem
    obtain ⟨pc, hpc⟩ : ∃ pc, s.tasks[id]? = some pc := ⟨_, List.getElem?_eq_getElem hid⟩
    refine hs.call s i _ none _ hc ?_ nofun nofun nofun ?_
    · simpa [StartPc.step, Call.holds, hpc, hl pc hpc] using hle
    · rintro _ ⟨⟩
      exact ⟨pc, hpc, hl pc hpc⟩
  case fail =>
    refine hs.call s i _ (some (.reset .handle)) _ hc ?_ (by rintro _ ⟨⟩; exact fun h => h.elim)
      (by rintro id ⟨⟩) (by rintro _ ⟨⟩; exact ⟨nofun, nofun⟩) nofun
    simpa [StartPc.step, Call.holds, Call.Building] using hle
  all_goals exact quiet _ _ rfl (Nat.le_refl _) id nofun

/-- A task that takes a step was running before it. -/
theorem Protocol.single_set (s : State) (hs : s.Protocol) (id : Nat) (pc pc' : TaskPc)
    (hpc : s.tasks[id]? = some pc) (hne : pc ≠ .terminated) (i j : Nat) (p q : TaskPc)
    (hp : (s.tasks.set id pc')[i]? = some p) (hq : (s.tasks.set id pc')[j]? = some q)
    (hpn : p ≠ .terminated) (hqn : q ≠ .terminated) : i = j := by
  have back (i : Nat) (p : TaskPc) (hp : (s.tasks.set id pc')[i]? = some p)
      (hpn : p ≠ .terminated) : ∃ q, s.tasks[i]? = some q ∧ q ≠ .terminated := by
    by_cases h : id = i
    · subst h
      exact ⟨pc, hpc, hne⟩
    · rw [List.getElem?_set_ne h] at hp
      exact ⟨p, hp, hpn⟩
  obtain ⟨p', hp', hpn'⟩ := back i p hp hpn
  obtain ⟨q', hq', hqn'⟩ := back j q hq hqn
  exact hs.single i j p' q' hp' hq' hpn' hqn'

/-- A step of a task that is not its store to the handle: whether it is cleared, and whether the
handle may name it, stays. -/
theorem Protocol.setTask (s : State) (hs : s.Protocol) (id : Nat) (pc pc' : TaskPc) (o : Object)
    (hpc : s.tasks[id]? = some pc) (hne : pc ≠ .terminated)
    (ho : o.taskHandle = s.object.taskHandle) (hc : pc'.Cleared ↔ pc.Cleared) :
    Protocol { s with object := o, tasks := s.tasks.set id pc' } := by
  have hid := (List.getElem?_eq_some_iff.mp hpc).1
  refine ⟨?_, ?_, ?_, hs.killing, ?_, ?_⟩
  · rw [funext fun c => holds_set s.tasks id pc pc' c hpc hc]
    dsimp only
    rw [ho]
    exact hs.holders
  · intro c hcm hb
    exact absurd (hs.building c hcm hb pc (List.mem_of_getElem? hpc)) hne
  · intro i hi
    rw [List.length_set]
    exact hs.storing i hi
  · intro i hi
    obtain ⟨q, hq, hncl⟩ := hs.held i (ho ▸ hi)
    by_cases h : id = i
    · subst h
      obtain rfl : pc = q := Option.some.inj (hpc.symm.trans hq)
      exact ⟨pc', List.getElem?_set_self hid, mt hc.mp hncl⟩
    · exact ⟨q, by rw [List.getElem?_set_ne h]; exact hq, hncl⟩
  · exact hs.single_set s id pc pc' hpc hne

/-- The store of a task's null leaves no start that holds the flag. -/
theorem protocol_store (s : State) (hs : s.Protocol) (id : Nat)
    (hpc : s.tasks[id]? = some .store) : Protocol { s with
      object := { s.object with taskHandle := .null }, tasks := s.tasks.set id .delete } := by
  have hid := (List.getElem?_eq_some_iff.mp hpc).1
  refine ⟨?_, ?_, ?_, hs.killing, nofun, ?_⟩
  · refine Nat.le_of_eq (List.sum_eq_zero_iff_forall_eq_nat.mpr ?_)
    intro x hx
    obtain ⟨c, hcm, rfl⟩ := List.mem_map.mp hx
    by_cases hb : c.Building
    · exact absurd (hs.building c hcm hb _ (List.mem_of_getElem? hpc)) nofun
    · by_cases hcl : c.Claimed
      · obtain ⟨i, rfl⟩ : ∃ i, c = .start (.store i) := by
          cases c with
          | reset pc => exact hcl.elim
          | start pc => cases pc <;> first | exact ⟨_, rfl⟩ | exact absurd hcl hb
        obtain ⟨p, hp⟩ : ∃ p, s.tasks[i]? = some p :=
          ⟨_, List.getElem?_eq_getElem (hs.storing i hcm)⟩
        refine if_pos ?_
        by_cases hi : id = i
        · subst hi
          exact ⟨.delete, List.getElem?_set_self hid, trivial⟩
        · -- the only task that runs is the one that stores
          have hpt : p = .terminated := by
            by_contra hpn
            exact hi (hs.single id i _ p hpc hp nofun hpn)
          subst hpt
          exact ⟨.terminated, by dsimp only; rw [List.getElem?_set_ne hi]; exact hp, trivial⟩
      · exact holds_of_not_claimed _ c hcl
  · intro c hcm hb
    exact absurd (hs.building c hcm hb _ (List.mem_of_getElem? hpc)) nofun
  · intro i hi
    rw [List.length_set]
    exact hs.storing i hi
  · exact hs.single_set s id .store .delete hpc nofun

theorem protocol_task (s : State) (hs : s.Protocol) (id : Nat) (ok : Bool) (pc pc' : TaskPc)
    (o : Object) (hpc : s.tasks[id]? = some pc) (h : pc.step ok s.object = some (o, pc')) :
    Protocol { s with object := o, tasks := s.tasks.set id pc' } := by
  cases pc <;> simp only [TaskPc.step, Option.some.injEq, Prod.mk.injEq] at h
  case wait h' =>
    obtain ⟨o', ho', he⟩ := Option.map_eq_some_iff.mp h
    obtain ⟨rfl, rfl⟩ := Prod.mk.inj he
    exact hs.setTask s id _ _ _ hpc nofun (semTake_handle _ _ _ _ ho') Iff.rfl
  case terminated => cases h
  all_goals obtain ⟨rfl, rfl⟩ := h
  case func =>
    refine hs.setTask s id _ _ _ hpc nofun rfl ?_
    split_ifs <;> exact Iff.rfl
  case give jSem =>
    refine hs.setTask s id _ _ _ hpc nofun ?_ Iff.rfl
    split_ifs
    · exact semGive_handle _ jSem
    · rfl
  case store => exact protocol_store s hs id hpc
  all_goals exact hs.setTask s id _ _ _ hpc nofun rfl Iff.rfl

theorem protocol_next (s : State) (l : Label) (s' : State) (hs : s.Protocol) (hl : s.Exclusive l)
    (h : s.next l = some s') : s'.Protocol := by
  cases l with
  | begin e =>
    obtain rfl := Option.some.inj h
    have hz : e.call.holds s.tasks = 0 := by cases e <;> rfl
    refine ⟨?_, fun c hc => ?_, fun id hid => ?_, fun c hc => ?_, hs.held, hs.single⟩
    · simpa [hz] using hs.holders
    all_goals simp only [List.mem_append, List.mem_singleton] at *
    · rcases hc with hc | rfl
      · exact hs.building c hc
      · cases e <;> exact fun h => h.elim
    · rcases hid with hid | hid
      · exact hs.storing id hid
      · cases e <;> cases hid
    · rcases hc with hc | rfl
      · exact hs.killing c hc
      · cases e <;> exact ⟨nofun, nofun⟩
  | call i ok =>
    obtain ⟨c, object, effect, c', hc, hr, rfl⟩ := next_call s s' i ok h
    cases c with
    | start pc =>
      obtain ⟨rfl, rfl, rfl⟩ : (pc.step ok s.tasks.length s.object).1 = object ∧
          (pc.step ok s.tasks.length s.object).2.1 = effect ∧
          (pc.step ok s.tasks.length s.object).2.2 = c' := by
        have := Option.some.inj hr
        rw [this]
        exact ⟨rfl, rfl, rfl⟩
      exact protocol_start s hs i ok pc hc hl
    | reset pc =>
      obtain ⟨⟨o, e, pc'⟩, hq, he⟩ := Option.map_eq_some_iff.mp hr
      simp only [Prod.mk.injEq] at he
      obtain ⟨rfl, rfl, rfl⟩ := he
      exact protocol_reset s hs i ok pc o e pc' hc hl hq
  | task id ok =>
    obtain ⟨pc, object, pc', hpc, hr, rfl⟩ := next_task s s' id ok h
    exact protocol_task s hs id ok pc pc' object hpc hr

/-- In a run whose claims and stores come in order, at most one created task has not terminated,
and a handle in `task_handle_` names a task that has not. -/
theorem handle_protocol (s : State) (run : Steps next Exclusive constructed s) :
    (∀ (i j : Nat) (p q : TaskPc), s.tasks[i]? = some p → s.tasks[j]? = some q →
      p ≠ .terminated → q ≠ .terminated → i = j) ∧
    ∀ id, s.object.taskHandle = .task id → ∃ pc, s.tasks[id]? = some pc ∧ pc ≠ .terminated := by
  have h : s.Protocol := run.invariant _ _ Protocol _ _ constructed_protocol
    fun t l t' ht hl hn => protocol_next t l t' ht hl hn
  refine ⟨h.single, ?_⟩
  intro id hid
  obtain ⟨pc, hpc, hcl⟩ := h.held id hid
  exact ⟨pc, hpc, fun he => hcl (he ▸ trivial)⟩

theorem handle_protocol_restart :
    ∃ s, exec (guarded next Exclusive) constructed
        (starting ++ .call 0 true :: finishing 0 ++ starting) = some s ∧
      (∀ (i j : Nat) (p q : TaskPc), s.tasks[i]? = some p → s.tasks[j]? = some q →
        p ≠ .terminated → q ≠ .terminated → i = j) ∧
      ∀ id, s.object.taskHandle = .task id → ∃ pc, s.tasks[id]? = some pc ∧ pc ≠ .terminated := by
  have h : ∃ s, exec (guarded next Exclusive) constructed
      (starting ++ .call 0 true :: finishing 0 ++ starting) = some s :=
    Option.isSome_iff_exists.mp (by decide)
  obtain ⟨s, hs⟩ := h
  exact ⟨s, hs, handle_protocol s (steps_of_guarded _ _ _ _ _ hs)⟩

/-- A task that ends before its creator goes on leaves a handle that names nothing. -/
theorem short_task_leaves_handle :
    ∃ s, exec next constructed (starting ++ finishing 0 ++ [.call 0 true]) = some s ∧
      s.object.taskHandle = .task 0 ∧ s.tasks = [.terminated] := by
  refine ⟨_, rfl, ?_⟩
  decide

end State

end Espbase.EspTask
