import Espbase.EspTask.System

namespace Espbase.EspTask

open Espbase.Lib

/-- The task has given the join semaphore. -/
def TaskPc.Given : TaskPc → Prop
  | .store => True
  | .delete => True
  | .terminated => True
  | _ => False

/-- The handles a task has read are those of the object's semaphores. -/
def TaskPc.Owns (a b : Nat) : TaskPc → Prop
  | .wait h => h = some a
  | .give jSem => jSem = some b
  | _ => True

theorem TaskPc.Cleared.given (pc : TaskPc) (h : pc.Cleared) : pc.Given := by
  cases pc <;> trivial

namespace State

/-- The wait of `reset()` gets its token, and `reset()` does not return between the give of an
exiting task and its store to `task_handle_`. -/
def Settled (s : State) : Label → Prop
  | .begin _ => False
  | .task _ _ => True
  | .call i ok =>
    match s.calls[i]? with
    | some (.reset (.take _)) => ok = true
    | some (.reset .locks) => ∀ pc ∈ s.tasks, pc ≠ .store
    | _ => True

instance (s : State) : (l : Label) → Decidable (s.Settled l)
  | .begin _ => .isFalse id
  | .task _ _ => .isTrue trivial
  | .call i ok => by
    dsimp only [Settled]
    generalize s.calls[i]? = c
    rcases c with - | pc | pc
    · exact .isTrue trivial
    · exact .isTrue trivial
    · cases pc <;> dsimp only <;> infer_instance

/-- The task with number `id` is the only one that may still touch the object. -/
structure Exiting (a b id : Nat) (s : State) : Prop where
  misused : s.object.misused = false
  own : ∀ pc ∈ s.tasks[id]?, pc.Owns a b
  others : ∀ (i : Nat) (pc : TaskPc), s.tasks[i]? = some pc → i ≠ id → pc.Cleared

def SyncLive (a : Nat) (s : State) : Prop := s.object.syncSem = some a ∧ a ∉ s.object.deleted

def JoinLive (b : Nat) (s : State) : Prop := s.object.joinSem = some b ∧ b ∉ s.object.deleted

/-- Both semaphores are live, and a token of the join semaphore comes from the exiting task. -/
structure Waiting (a b id : Nat) (s : State) : Prop where
  sync : s.SyncLive a
  join : s.JoinLive b
  token : b ∈ s.object.tokens → ∀ pc ∈ s.tasks[id]?, pc.Given

/-- A task whose start has returned, or that has ended: what `reset()` finds. -/
structure Started (a b id : Nat) (s : State) : Prop where
  exiting : s.Exiting a b id
  waiting : s.Waiting a b id
  handle : s.object.taskHandle = .null → ∀ pc ∈ s.tasks[id]?, pc.Cleared

/-- Every task has given, and no call was misused. -/
structure Left (s : State) : Prop where
  misused : s.object.misused = false
  given : ∀ pc ∈ s.tasks, pc.Given

/-- What holds while `reset()` stands at a place of its code. -/
def Joining (a b id : Nat) (s : State) : ResetPc → Prop
  | .handle => s.Started a b id
  | .terminate => s.Exiting a b id ∧ s.Waiting a b id
  | .sync => s.Exiting a b id ∧ s.Waiting a b id
  | .syncArg => s.Exiting a b id ∧ s.Waiting a b id
  | .syncGive h => h = some a ∧ s.Exiting a b id ∧ s.Waiting a b id
  | .join => s.Exiting a b id ∧ s.Waiting a b id
  | .joinArg => s.Exiting a b id ∧ s.Waiting a b id
  | .take h => h = some b ∧ s.Exiting a b id ∧ s.Waiting a b id
  | .killArg => False
  | .kill _ => False
  | .store => s.Left ∧ s.SyncLive a ∧ s.JoinLive b
  | .dropSync => s.Left ∧ s.SyncLive a ∧ s.JoinLive b
  | .dropSyncArg => s.Left ∧ s.SyncLive a ∧ s.JoinLive b
  | .dropSyncDelete h => h = some a ∧ s.Left ∧ s.SyncLive a ∧ s.JoinLive b
  | .dropSyncClear => s.Left ∧ s.JoinLive b
  | .dropJoin => s.Left ∧ s.JoinLive b
  | .dropJoinArg => s.Left ∧ s.JoinLive b
  | .dropJoinDelete h => h = some b ∧ s.Left ∧ s.JoinLive b
  | .dropJoinClear => s.Left
  | .locks => s.Left

/-- One call, at some place of `reset()`, or none any more and no task that touches the object. -/
def Join (a b id : Nat) (s : State) : Prop :=
  (∃ pc, s.calls = [.reset pc] ∧ s.Joining a b id pc) ∨
    (s.calls = [] ∧ s.object.misused = false ∧ ∀ pc ∈ s.tasks, pc.Cleared)

theorem all_given (a b id : Nat) (s : State) (hs : s.Exiting a b id)
    (h : ∀ pc ∈ s.tasks[id]?, pc.Given) : ∀ pc ∈ s.tasks, pc.Given := by
  intro pc hpc
  obtain ⟨i, hi⟩ := List.mem_iff_getElem?.mp hpc
  by_cases hid : i = id
  · subst hid
    exact h pc hi
  · exact (hs.others i pc hi hid).given

/-- A given semaphore is not misused; only its own token is set. -/
theorem semGive_live (o : Object) (h : Nat) (hl : h ∉ o.deleted) :
    (o.semGive (some h)).misused = o.misused ∧ (o.semGive (some h)).syncSem = o.syncSem ∧
      (o.semGive (some h)).joinSem = o.joinSem ∧ (o.semGive (some h)).deleted = o.deleted ∧
      (o.semGive (some h)).taskHandle = o.taskHandle ∧
      ∀ x ∈ (o.semGive (some h)).tokens, x = h ∨ x ∈ o.tokens := by
  simp only [Object.semGive, hl, if_false]
  split_ifs
  · exact ⟨rfl, rfl, rfl, rfl, rfl, fun x hx => .inr hx⟩
  · exact ⟨rfl, rfl, rfl, rfl, rfl, fun x hx => List.mem_cons.mp hx⟩

theorem semTake_live (o o' : Object) (ok : Bool) (h : Nat) (hl : h ∉ o.deleted)
    (ho : o.semTake ok (some h) = some o') :
    o'.misused = o.misused ∧ o'.syncSem = o.syncSem ∧ o'.joinSem = o.joinSem ∧
      o'.deleted = o.deleted ∧ o'.taskHandle = o.taskHandle ∧ (∀ x ∈ o'.tokens, x ∈ o.tokens) ∧
      (ok = true → h ∈ o.tokens) := by
  simp only [Object.semTake, hl, if_false] at ho
  split_ifs at ho with hok hm <;> obtain rfl := Option.some.inj ho
  · exact ⟨rfl, rfl, rfl, rfl, rfl, fun x hx => (List.mem_filter.mp hx).1, fun _ => hm⟩
  · exact ⟨rfl, rfl, rfl, rfl, rfl, fun x hx => hx, fun h => absurd h hok⟩

section task
variable (s s' : State) (i : Nat) (ok : Bool) (h : s.next (.task i ok) = some s')
include h

theorem task_calls : s'.calls = s.calls := by
  obtain ⟨pc, o, pc', -, -, rfl⟩ := next_task s s' i ok h
  rfl

/-- After the give a task only stores its null. -/
theorem Left.task (hs : s.Left) : s'.Left ∧ s'.object.syncSem = s.object.syncSem ∧
    s'.object.joinSem = s.object.joinSem ∧ s'.object.deleted = s.object.deleted := by
  obtain ⟨pc, o, pc', hpc, hr, rfl⟩ := next_task s s' i ok h
  have hpg := hs.given pc (List.mem_of_getElem? hpc)
  have hmem (hp : pc'.Given) : ∀ q ∈ s.tasks.set i pc', q.Given := fun q hq =>
    (List.mem_or_eq_of_mem_set hq).elim (hs.given q) fun he => he ▸ hp
  cases pc <;> first | exact hpg.elim | skip
  all_goals simp only [TaskPc.step, Option.some.injEq, Prod.mk.injEq, reduceCtorEq] at hr
  all_goals
    obtain ⟨rfl, rfl⟩ := hr
    exact ⟨⟨hs.misused, hmem trivial⟩, rfl, rfl, rfl⟩

/-- A cleared task can only end. -/
theorem cleared_task (hc : ∀ pc ∈ s.tasks[i]?, pc.Cleared) :
    s'.object = s.object ∧ s'.tasks = s.tasks.set i .terminated := by
  obtain ⟨pc, o, pc', hpc, hr, rfl⟩ := next_task s s' i ok h
  have := hc pc hpc
  cases pc <;> first | exact this.elim | skip
  all_goals simp only [TaskPc.step, Option.some.injEq, Prod.mk.injEq, reduceCtorEq] at hr
  obtain ⟨rfl, rfl⟩ := hr
  exact ⟨rfl, rfl⟩

theorem exiting_task (a b id : Nat) (he : s.Exiting a b id) (hw : s.Waiting a b id) :
    s'.Exiting a b id ∧ s'.Waiting a b id ∧
      ((s.object.taskHandle = .null → ∀ pc ∈ s.tasks[id]?, pc.Cleared) →
        s'.object.taskHandle = .null → ∀ pc ∈ s'.tasks[id]?, pc.Cleared) := by
  by_cases hi : i = id
  · subst hi
    obtain ⟨pc, o, pc', hpc, hr, rfl⟩ := next_task s s' i ok h
    have hlen := (List.getElem?_eq_some_iff.mp hpc).1
    have hself : (s.tasks.set i pc')[i]? = some pc' := List.getElem?_set_self hlen
    have hoth : ∀ (j : Nat) (q : TaskPc), (s.tasks.set i pc')[j]? = some q → j ≠ i → q.Cleared :=
      fun j q hq hj => he.others j q (by rwa [List.getElem?_set_ne (Ne.symm hj)] at hq) hj
    have hown := he.own pc hpc
    -- what the task's next place must show, when its step leaves the semaphores' handles
    have keep (o : Object) (hm : o.misused = s.object.misused)
        (hsy : o.syncSem = s.object.syncSem) (hjo : o.joinSem = s.object.joinSem)
        (hd : o.deleted = s.object.deleted) (hp : pc'.Owns a b)
        (ht : b ∈ o.tokens → pc'.Given)
        (hh : (s.object.taskHandle = .null → pc.Cleared) → o.taskHandle = .null → pc'.Cleared) :
        State.Exiting a b i { s with object := o, tasks := s.tasks.set i pc' } ∧
        State.Waiting a b i { s with object := o, tasks := s.tasks.set i pc' } ∧
        ((s.object.taskHandle = .null → ∀ pc ∈ s.tasks[i]?, pc.Cleared) →
          o.taskHandle = .null → ∀ pc ∈ (s.tasks.set i pc')[i]?, pc.Cleared) := by
      refine ⟨⟨hm.trans he.misused, ?_, hoth⟩, ⟨⟨hsy.trans hw.sync.1, ?_⟩, ⟨hjo.trans hw.join.1, ?_⟩,
        ?_⟩, ?_⟩
      · rw [hself]
        rintro _ ⟨⟩
        exact hp
      · rw [hd]
        exact hw.sync.2
      · rw [hd]
        exact hw.join.2
      · rw [hself]
        rintro hb _ ⟨⟩
        exact ht hb
      · rw [hself]
        rintro hcl hn _ ⟨⟩
        exact hh (fun hz => hcl hz pc hpc) hn
    have htok : b ∈ s.object.tokens → pc.Given := fun hb => hw.token hb pc hpc
    cases pc
    case wait h' =>
      obtain rfl : h' = some a := hown
      obtain ⟨o', ho, he'⟩ := Option.map_eq_some_iff.mp hr
      obtain ⟨rfl, rfl⟩ := Prod.mk.inj he'
      obtain ⟨hm, hsy, hjo, hd, hha, ht, -⟩ := semTake_live _ _ _ _ hw.sync.2 ho
      exact keep _ hm hsy hjo hd trivial (fun hb => htok (ht b hb))
        fun hcl hn => hcl (hha ▸ hn)
    case terminated => cases hr
    all_goals
      obtain ⟨rfl, rfl⟩ := Prod.mk.inj (Option.some.inj hr)
    case func =>
      refine keep _ rfl rfl rfl rfl ?_ (fun hb => (htok hb).elim) fun hcl hn => (hcl hn).elim
      split_ifs <;> trivial
    case waitArg =>
      exact keep _ rfl rfl rfl rfl hw.sync.1 htok fun hcl => hcl
    case join =>
      exact keep _ rfl rfl rfl rfl hw.join.1 htok fun hcl => hcl
    case give jSem =>
      obtain rfl : jSem = some b := hown
      obtain ⟨hm, hsy, hjo, hd, hha, -⟩ := semGive_live s.object b hw.join.2
      exact keep _ hm hsy hjo hd trivial (fun _ => trivial) fun hcl hn => hcl (hha ▸ hn)
    case store => exact keep _ rfl rfl rfl rfl trivial (fun _ => trivial) fun _ _ => trivial
    case delete => exact keep _ rfl rfl rfl rfl trivial (fun _ => trivial) fun _ _ => trivial
    all_goals exact keep _ rfl rfl rfl rfl trivial htok fun hcl => hcl
  · have hc : ∀ pc ∈ s.tasks[i]?, pc.Cleared := fun pc hpc => he.others i pc hpc hi
    obtain ⟨ho, ht⟩ := cleared_task s s' i ok h hc
    have hsame : s'.tasks[id]? = s.tasks[id]? := by rw [ht, List.getElem?_set_ne hi]
    refine ⟨⟨ho ▸ he.misused, hsame ▸ he.own, ?_⟩,
      ⟨by unfold SyncLive; rw [ho]; exact hw.sync, by unfold JoinLive; rw [ho]; exact hw.join,
        by rw [ho, hsame]; exact hw.token⟩, by rw [ho, hsame]; exact fun h => h⟩
    intro j q hq hj
    rw [ht] at hq
    by_cases hij : i = j
    · subst hij
      rw [List.getElem?_set, if_pos rfl] at hq
      split_ifs at hq
      obtain rfl := Option.some.inj hq
      trivial
    · rw [List.getElem?_set_ne hij] at hq
      exact he.others j q hq hj

end task

theorem joining_task (a b id : Nat) (s s' : State) (i : Nat) (ok : Bool) (pc : ResetPc)
    (hs : s.Joining a b id pc) (h : s.next (.task i ok) = some s') : s'.Joining a b id pc := by
  have before (hs : s.Exiting a b id ∧ s.Waiting a b id) :
      s'.Exiting a b id ∧ s'.Waiting a b id :=
    have ht := exiting_task s s' i ok h a b id hs.1 hs.2
    ⟨ht.1, ht.2.1⟩
  have left (hs : s.Left) := hs.task s s' i ok h
  have sync (hs : s.Left ∧ s.SyncLive a ∧ s.JoinLive b) :
      s'.Left ∧ s'.SyncLive a ∧ s'.JoinLive b := by
    obtain ⟨hl, hsy, hjo, hd⟩ := left hs.1
    unfold SyncLive JoinLive
    rw [hsy, hjo, hd]
    exact ⟨hl, hs.2⟩
  have join (hs : s.Left ∧ s.JoinLive b) : s'.Left ∧ s'.JoinLive b := by
    obtain ⟨hl, -, hjo, hd⟩ := left hs.1
    unfold JoinLive
    rw [hjo, hd]
    exact ⟨hl, hs.2⟩
  cases pc with
  | handle =>
    have ht := exiting_task s s' i ok h a b id hs.exiting hs.waiting
    exact ⟨ht.1, ht.2.1, ht.2.2 hs.handle⟩
  | terminate => exact before hs
  | sync => exact before hs
  | syncArg => exact before hs
  | syncGive h' => exact ⟨hs.1, before hs.2⟩
  | join => exact before hs
  | joinArg => exact before hs
  | take h' => exact ⟨hs.1, before hs.2⟩
  | killArg => exact hs.elim
  | kill h' => exact hs.elim
  | store => exact sync hs
  | dropSync => exact sync hs
  | dropSyncArg => exact sync hs
  | dropSyncDelete h' => exact ⟨hs.1, sync hs.2⟩
  | dropSyncClear => exact join hs
  | dropJoin => exact join hs
  | dropJoinArg => exact join hs
  | dropJoinDelete h' => exact ⟨hs.1, join hs.2⟩
  | dropJoinClear => exact (left hs).1
  | locks => exact (left hs).1

theorem semDelete_live (o : Object) (h : Nat) (hl : h ∉ o.deleted) :
    o.semDelete (some h) = { o with
      tokens := o.tokens.filter (· ≠ h), deleted := h :: o.deleted } := by
  simp only [Object.semDelete, hl, if_false]

/-- One step of `reset()` takes its invariant to that of its next place. -/
theorem joining_reset (a b id : Nat) (hab : a ≠ b) (s : State) (ok : Bool) (pc : ResetPc)
    (o : Object) (e : Effect) (pc' : Option ResetPc) (hcalls : s.calls = [.reset pc])
    (hs : s.Joining a b id pc) (hl : s.Settled (.call 0 ok))
    (h : pc.step ok s.object = some (o, e, pc')) :
    Join a b id (State.effect ⟨o, s.tasks, pc'.toList.map .reset⟩ e) := by
  simp only [Settled, hcalls, List.getElem?_cons_zero] at hl
  have goto (o : Object) (q : ResetPc)
      (hq : Joining a b id ⟨o, s.tasks, [.reset q]⟩ q) :
      Join a b id ⟨o, s.tasks, [.reset q]⟩ := .inl ⟨q, rfl, hq⟩
  have before (hs : s.Exiting a b id ∧ s.Waiting a b id) (q : ResetPc) :
      State.Exiting a b id ⟨s.object, s.tasks, [.reset q]⟩ ∧
        State.Waiting a b id ⟨s.object, s.tasks, [.reset q]⟩ :=
    ⟨⟨hs.1.misused, hs.1.own, hs.1.others⟩, ⟨hs.2.sync, hs.2.join, hs.2.token⟩⟩
  cases pc <;> simp only [ResetPc.step, Option.some.injEq, Prod.mk.injEq] at h
  case killArg => exact hs.elim
  case kill h' => exact hs.elim
  case take h' =>
    subst hl
    obtain ⟨rfl, he, hw⟩ := hs
    obtain ⟨o', ho, he'⟩ := Option.map_eq_some_iff.mp h
    simp only [if_true, Prod.mk.injEq] at he'
    obtain ⟨rfl, rfl, rfl⟩ := he'
    obtain ⟨hm, hsy, hjo, hd, -, -, htok⟩ := semTake_live _ _ _ _ hw.join.2 ho
    refine goto _ _ ⟨⟨hm.trans he.misused, all_given a b id s he (hw.token (htok rfl))⟩,
      ⟨hsy.trans hw.sync.1, ?_⟩, ⟨hjo.trans hw.join.1, ?_⟩⟩
    · rw [hd]
      exact hw.sync.2
    · rw [hd]
      exact hw.join.2
  all_goals obtain ⟨rfl, rfl, rfl⟩ := h
  case handle =>
    split_ifs with hn
    · have hg := all_given a b id s hs.exiting fun pc hpc => (hs.handle hn pc hpc).given
      exact goto _ _ ⟨⟨hs.exiting.misused, hg⟩, hs.waiting.sync, hs.waiting.join⟩
    · exact goto _ _ (before ⟨hs.exiting, hs.waiting⟩ _)
  case terminate =>
    exact goto _ _ ⟨⟨hs.1.misused, hs.1.own, hs.1.others⟩, ⟨hs.2.sync, hs.2.join, hs.2.token⟩⟩
  case sync =>
    rw [hs.2.sync.1]
    exact goto _ _ (before hs _)
  case syncArg =>
    rw [hs.2.sync.1]
    exact goto _ _ ⟨rfl, before hs _⟩
  case syncGive h' =>
    obtain ⟨rfl, he, hw⟩ := hs
    obtain ⟨hm, hsy, hjo, hd, -, ht⟩ := semGive_live s.object a hw.sync.2
    refine goto _ _ ⟨⟨hm.trans he.misused, he.own, he.others⟩, ⟨hsy.trans hw.sync.1, ?_⟩,
      ⟨hjo.trans hw.join.1, ?_⟩, ?_⟩
    · rw [hd]
      exact hw.sync.2
    · rw [hd]
      exact hw.join.2
    · intro hb
      exact hw.token ((ht b hb).resolve_left (Ne.symm hab))
  case join =>
    rw [hs.2.join.1]
    exact goto _ _ (before hs _)
  case joinArg =>
    rw [hs.2.join.1]
    exact goto _ _ ⟨rfl, before hs _⟩
  case store =>
    exact goto _ _ ⟨⟨hs.1.misused, hs.1.given⟩, hs.2.1, hs.2.2⟩
  case dropSync =>
    rw [hs.2.1.1]
    exact goto _ _ ⟨⟨hs.1.misused, hs.1.given⟩, hs.2.1, hs.2.2⟩
  case dropSyncArg =>
    rw [hs.2.1.1]
    exact goto _ _ ⟨rfl, ⟨hs.1.misused, hs.1.given⟩, hs.2.1, hs.2.2⟩
  case dropSyncDelete h' =>
    obtain ⟨rfl, hl, hsy, hjo⟩ := hs
    rw [semDelete_live _ _ hsy.2]
    exact goto _ _ ⟨⟨hl.misused, hl.given⟩, hjo.1, fun hm =>
      (List.mem_cons.mp hm).elim (fun he => hab he.symm) hjo.2⟩
  case dropSyncClear => exact goto _ _ ⟨⟨hs.1.misused, hs.1.given⟩, hs.2⟩
  case dropJoin =>
    rw [hs.2.1]
    exact goto _ _ ⟨⟨hs.1.misused, hs.1.given⟩, hs.2⟩
  case dropJoinArg =>
    rw [hs.2.1]
    exact goto _ _ ⟨rfl, ⟨hs.1.misused, hs.1.given⟩, hs.2⟩
  case dropJoinDelete h' =>
    obtain ⟨rfl, hl, hjo⟩ := hs
    rw [semDelete_live _ _ hjo.2]
    exact goto _ _ ⟨hl.misused, hl.given⟩
  case dropJoinClear => exact goto _ _ ⟨hs.misused, hs.given⟩
  case locks =>
    refine .inr ⟨rfl, hs.misused, ?_⟩
    intro pc hpc
    have hg := hs.given pc hpc
    have hn := hl pc hpc
    cases pc <;> trivial

theorem join_next (a b id : Nat) (hab : a ≠ b) (s : State) (l : Label) (s' : State)
    (hs : s.Join a b id) (hl : s.Settled l) (h : s.next l = some s') : s'.Join a b id := by
  cases l with
  | begin e => exact hl.elim
  | task i ok =>
    have hc := task_calls s s' i ok h
    rcases hs with ⟨pc, hp, hj⟩ | ⟨hp, hm, hcl⟩
    · exact .inl ⟨pc, hc.trans hp, joining_task a b id s s' i ok pc hj h⟩
    · obtain ⟨ho, ht⟩ := cleared_task s s' i ok h fun pc hpc => hcl pc (List.mem_of_getElem? hpc)
      refine .inr ⟨hc.trans hp, ho ▸ hm, ?_⟩
      intro pc hpc
      rw [ht] at hpc
      exact (List.mem_or_eq_of_mem_set hpc).elim (hcl pc) fun he => he ▸ trivial
  | call i ok =>
    obtain ⟨c, o, e, c', hc, hr, rfl⟩ := next_call s s' i ok h
    rcases hs with ⟨pc, hp, hj⟩ | ⟨hp, -⟩
    · rw [hp] at hc
      obtain ⟨rfl, rfl⟩ : i = 0 ∧ .reset pc = c := by
        cases i with
        | zero => exact ⟨rfl, Option.some.inj hc⟩
        | succ i => cases hc
      obtain ⟨⟨o', e', pc'⟩, hq, he⟩ := Option.map_eq_some_iff.mp hr
      simp only [Prod.mk.injEq] at he
      obtain ⟨rfl, rfl, rfl⟩ := he
      have := joining_reset a b id hab s ok pc o' e' pc' hp hj hl hq
      cases pc' <;> simpa [hp] using this
    · rw [hp] at hc
      cases hc

/-- When `reset()` does not overtake the exiting task, no task has anything left to do but its
`vTaskDelete` once `reset()` has returned, and no deleted semaphore is used. -/
theorem reset_joins (a b id : Nat) (hab : a ≠ b) (s s' : State) (hs : s.Started a b id)
    (hc : s.calls = [.reset .handle]) (run : Steps next Settled s s') (hd : s'.calls = []) :
    (∀ pc ∈ s'.tasks, pc = .delete ∨ pc = .terminated) ∧ s'.object.misused = false := by
  have h : s'.Join a b id := run.invariant _ _ (Join a b id) _ _ (.inl ⟨_, hc, hs⟩)
    fun u l u' hu ho hn => join_next a b id hab u l u' hu ho hn
  rcases h with ⟨pc, hp, -⟩ | ⟨-, hm, hcl⟩
  · rw [hd] at hp
    cases hp
  · refine ⟨?_, hm⟩
    intro pc hpc
    have := hcl pc hpc
    cases pc <;> first | exact .inl rfl | exact .inr rfl | exact this.elim

/-- A task in its function, with semaphores 0 and 1, when `reset()` is called. -/
def inFunction : State where
  object := ⟨.task 0, some 0, some 1, false, false, [], [], 2, false⟩
  tasks := [.func]
  calls := [.reset .handle]

/-- `reset()` up to its wait, and then the task up to its store. -/
def untilGive : List Label := List.replicate 7 (.call 0 true) ++ List.replicate 4 (.task 0 false)

theorem reset_joins_function :
    exec next constructed (starting ++ [.call 0 true, .task 0 true, .begin .reset]) =
      some inFunction ∧
    ∃ s', exec (guarded next Settled) inFunction
        (untilGive ++ .task 0 false :: List.replicate 11 (.call 0 true)) = some s' ∧
      s'.calls = [] ∧ (∀ pc ∈ s'.tasks, pc = .delete ∨ pc = .terminated) ∧
      s'.object.misused = false := by
  refine ⟨rfl, ?_⟩
  have h : ∃ s', exec (guarded next Settled) inFunction
      (untilGive ++ .task 0 false :: List.replicate 11 (.call 0 true)) = some s' ∧
      s'.calls = [] := ⟨_, rfl, by decide⟩
  obtain ⟨s', hr, hd⟩ := h
  have hs : inFunction.Started 0 1 0 := by
    refine ⟨⟨rfl, by rintro _ ⟨⟩; trivial, ?_⟩,
      ⟨⟨rfl, nofun⟩, ⟨rfl, nofun⟩, nofun⟩, nofun⟩
    intro i pc hi hn
    cases i with
    | zero => exact absurd rfl hn
    | succ i => cases hi
  exact ⟨s', hr, hd, reset_joins 0 1 0 (by decide) inFunction s' hs rfl
    (steps_of_guarded _ _ _ _ _ hr) hd⟩

/-- `reset()` has returned, and the task is still to store to `task_handle_`. -/
theorem store_after_reset :
    ∃ s, exec next inFunction (untilGive ++ List.replicate 11 (.call 0 true)) = some s ∧
      s.calls = [] ∧ s.tasks = [.store] := by
  refine ⟨_, rfl, ?_⟩
  decide

end State

end Espbase.EspTask
