import Espbase.EspTask.HandleProtocol

namespace Espbase.EspTask

open Espbase.Lib

/-- What happened since a call began: the task it created, and the tasks whose handle `task_handle_` has
held. -/
structure Record where
  created : Option Nat
  seen : List Nat
  deriving DecidableEq

namespace Record

def look (h : Handle) (r : Record) : Record :=
  match h with
  | .task id => { r with seen := id :: r.seen }
  | _ => r

/-- The record after a step of the call; `tasks` is the number of tasks created before. -/
def after (tasks : Nat) (r : Record) : Effect → Record
  | .create => { r with created := some tasks }
  | _ => r

/-- The call created a task, or `task_handle_` held the handle of a task that another call created. -/
def Served (tasks : Nat) (r : Record) : Prop :=
  r.created.isSome ∨ ∃ id ∈ r.seen, id < tasks ∧ r.created ≠ some id

instance (tasks : Nat) (r : Record) : Decidable (r.Served tasks) := by
  unfold Served
  infer_instance

/-- The record names created tasks only. -/
def Known (tasks : Nat) (r : Record) : Prop :=
  (∀ id ∈ r.seen, id < tasks) ∧ ∀ id ∈ r.created, id < tasks

end Record

/-- Where `start` returns `ESP_OK`: after `notify(true)`, and after the store of the new handle. -/
def Call.returnsOk : Call → Bool
  | .start .notifySync => true
  | .start (.notifyGive _) => true
  | .start (.store _) => true
  | _ => false

/-- The stores of a null to `task_handle_`. -/
def Call.clears : Call → Bool
  | .start .refuse => true
  | .start .fail => true
  | .reset .store => true
  | _ => false

/-- The system with a record for each call, and the records of the starts that returned `ESP_OK`. -/
structure Watched where
  object : Object
  tasks : List TaskPc
  calls : List (Record × Call)
  succeeded : List Record
  deriving DecidableEq

namespace Watched

def constructed : Watched := ⟨.constructed, [], [], []⟩

def state (w : Watched) : State := ⟨w.object, w.tasks, w.calls.map Prod.snd⟩

/-- Every call in progress sees what `task_handle_` holds now. -/
def look (w : Watched) : Watched :=
  { w with calls := w.calls.map fun p => (p.1.look w.object.taskHandle, p.2) }

def next (w : Watched) : Label → Option Watched
  | .begin e => some (look { w with calls := w.calls ++ [(⟨none, []⟩, e.call)] })
  | .call i ok => do
    let (r, c) ← w.calls[i]?
    let (object, effect, c') ← c.step ok w.tasks.length w.object
    let s := State.effect ⟨object, w.tasks, []⟩ effect
    let r := r.after w.tasks.length effect
    some (look {
      object := s.object
      tasks := s.tasks
      calls := w.calls.take i ++ (c'.map (r, ·)).toList ++ w.calls.drop (i + 1)
      succeeded := w.succeeded ++ if c'.isNone && c.returnsOk then [r] else [] })
  | .task id ok => do
    let pc ← w.tasks[id]?
    let (object, pc) ← pc.step ok w.object
    some (look { w with object, tasks := w.tasks.set id pc })

/-- A start that lost the claim waits, and `task_handle_` has held no task's handle since it was called. -/
def Waiting (w : Watched) : Prop := ∃ p ∈ w.calls, p.2 = .start .spin ∧ p.1.seen = []

def clears (w : Watched) : Label → Bool
  | .begin _ => false
  | .call i _ => w.calls[i]?.any fun p => p.2.clears
  | .task id _ => w.tasks[id]? == some .store

instance (w : Watched) : Decidable w.Waiting := inferInstanceAs (Decidable (∃ p ∈ w.calls, _ ∧ _))

/-- No null is stored to `task_handle_` while a start waits. -/
def Patient (w : Watched) (l : Label) : Prop := w.clears l = true → ¬ w.Waiting

instance (w : Watched) (l : Label) : Decidable (w.Patient l) := inferInstanceAs (Decidable (_ → _))

end Watched

theorem effect_calls (s : State) (e : Effect) :
    State.effect s e = { State.effect ⟨s.object, s.tasks, []⟩ e with calls := s.calls } := by
  cases e with
  | nothing => rfl
  | create => rfl
  | kill h =>
    cases h with
    | null => rfl
    | starting => rfl
    | task id =>
      simp only [State.effect]
      split <;> rfl

theorem effect_handle (s : State) (e : Effect) :
    (State.effect s e).object.taskHandle = s.object.taskHandle := by
  cases e with
  | nothing => rfl
  | create => rfl
  | kill h =>
    cases h with
    | null => rfl
    | starting => rfl
    | task id =>
      simp only [State.effect]
      split <;> rfl

theorem effect_tasks (s : State) (e : Effect) : s.tasks.length ≤ (State.effect s e).tasks.length := by
  cases e with
  | nothing => exact Nat.le_refl _
  | create =>
    rw [State.effect, List.length_append]
    exact Nat.le_add_right _ _
  | kill h =>
    cases h with
    | null => exact Nat.le_refl _
    | starting => exact Nat.le_refl _
    | task id =>
      simp only [State.effect]
      split <;> simp

namespace Watched

theorem look_state (w : Watched) : w.look.state = w.state := by
  simp [look, state]

/-- The records follow the system: they neither stop a step nor change one. -/
theorem next_state (w : Watched) (l : Label) : (w.next l).map state = w.state.next l := by
  cases l with
  | begin e =>
    simp only [next, State.next, Option.map_some, look_state]
    simp [state]
  | task id ok =>
    simp only [next, State.next, state]
    cases w.tasks[id]? with
    | none => rfl
    | some pc =>
      simp only [Option.bind_eq_bind, Option.bind_some]
      cases pc.step ok w.object with
      | none => rfl
      | some r =>
        simp only [Option.bind_some, Option.map_some, look_state]
        rfl
  | call i ok =>
    simp only [next, State.next, state, List.getElem?_map]
    cases w.calls[i]? with
    | none => rfl
    | some p =>
      simp only [Option.bind_eq_bind, Option.bind_some, Option.map_some]
      cases p.2.step ok w.tasks.length w.object with
      | none => rfl
      | some r =>
        obtain ⟨object, effect, c'⟩ := r
        simp only [Option.bind_some, Option.map_some, look_state]
        have hcalls : (w.calls.take i ++ (c'.map (p.1.after w.tasks.length effect, ·)).toList ++
            w.calls.drop (i + 1)).map Prod.snd = (w.calls.map Prod.snd).take i ++ c'.toList ++
              (w.calls.map Prod.snd).drop (i + 1) := by
          cases c' <;> simp
        rw [state, hcalls]
        exact congrArg some (effect_calls ⟨object, w.tasks, _⟩ effect).symm

theorem run_state (ls : List Label) :
    (exec next constructed ls).map state = exec State.next State.constructed ls :=
  exec_map State.next next state next_state constructed ls

end Watched

/-- What is known of a call where it stands. -/
def Call.Due (h : Handle) (r : Record) : Call → Prop
  | .start (.claim _) => r.created = none
  | .start .spin => r.created = none ∧ (r.seen = [] → h ≠ .null)
  | .start .notifyClear => r.seen ≠ []
  | .start .notifySync => r.seen ≠ []
  | .start .notifyArg => r.seen ≠ []
  | .start (.notifyGive _) => r.seen ≠ []
  | .start (.store id) => r.created = some id
  | _ => True

namespace Record

theorem look_created (h : Handle) (r : Record) : (r.look h).created = r.created := by
  cases h <;> rfl

theorem look_seen (h : Handle) (r : Record) (hs : r.seen ≠ []) : (r.look h).seen ≠ [] := by
  cases h with
  | null => exact hs
  | starting => exact hs
  | task id => exact List.cons_ne_nil _ _

theorem look_known (tasks : Nat) (h : Handle) (r : Record) (hk : r.Known tasks)
    (hh : ∀ id, h = .task id → id < tasks) : (r.look h).Known tasks := by
  cases h with
  | null => exact hk
  | starting => exact hk
  | task id => exact ⟨List.forall_mem_cons.mpr ⟨hh id rfl, hk.1⟩, hk.2⟩

theorem look_due (h : Handle) (r : Record) (c : Call) (hd : c.Due h r) : c.Due h (r.look h) := by
  cases c with
  | reset pc => trivial
  | start pc =>
    cases pc with
    | claim notifyIfStarted => exact (look_created h r).trans hd
    | spin =>
      refine ⟨(look_created h r).trans hd.1, ?_⟩
      intro hs
      by_cases hn : r.seen = []
      · exact hd.2 hn
      · exact absurd hs (look_seen h r hn)
    | notifyClear | notifySync | notifyArg | notifyGive => exact look_seen h r hd
    | store id => exact (look_created h r).trans hd
    | _ => trivial

/-- Who has seen a handle is served. -/
theorem served_of_seen (tasks : Nat) (r : Record) (hk : r.Known tasks) (hs : r.seen ≠ []) :
    r.Served tasks := by
  by_cases hc : r.created.isSome
  · exact .inl hc
  · obtain ⟨id, hid⟩ := List.exists_mem_of_ne_nil _ hs
    refine .inr ⟨id, hid, hk.1 id hid, ?_⟩
    intro he
    rw [he] at hc
    exact hc rfl

theorem Served.mono (tasks tasks' : Nat) (r : Record) (hs : r.Served tasks) (hle : tasks ≤ tasks') :
    r.Served tasks' := by
  rcases hs with hc | ⟨id, hid, hlt, hne⟩
  · exact .inl hc
  · exact .inr ⟨id, hid, by omega, hne⟩

theorem Known.mono (tasks tasks' : Nat) (r : Record) (hk : r.Known tasks) (hle : tasks ≤ tasks') :
    r.Known tasks' :=
  ⟨fun id hid => Nat.lt_of_lt_of_le (hk.1 id hid) hle, fun id hid => Nat.lt_of_lt_of_le (hk.2 id hid) hle⟩

end Record

/-- What a step of a call does to `task_handle_`. -/
theorem call_step_handle (ok : Bool) (tasks : Nat) (o o' : Object) (c : Call) (e : Effect) (c' : Option Call)
    (h : c.step ok tasks o = some (o', e, c')) :
    o'.taskHandle = o.taskHandle ∨ o'.taskHandle = .starting ∨
      (∃ id, c = .start (.store id) ∧ o'.taskHandle = .task id) ∨ (c.clears = true ∧ o'.taskHandle = .null) := by
  cases c with
  | start pc =>
    have ho : (pc.step ok tasks o).1 = o' := congrArg Prod.fst (Option.some.inj h)
    rw [← ho]
    cases pc with
    | claim notifyIfStarted =>
      by_cases hn : o.taskHandle = .null
      · rw [StartPc.step, if_pos hn]
        exact .inr (.inl rfl)
      · rw [StartPc.step, if_neg hn]
        exact .inl rfl
    | notifyGive h' => exact .inl (semGive_handle o h')
    | syncReset h' => exact .inl (semReset_handle o h')
    | joinReset h' => exact .inl (semReset_handle o h')
    | syncCreate | joinCreate | create => cases ok <;> exact .inl rfl
    | refuse | fail => exact .inr (.inr (.inr ⟨rfl, rfl⟩))
    | store id => exact .inr (.inr (.inl ⟨id, rfl, rfl⟩))
    | _ => exact .inl rfl
  | reset pc =>
    obtain ⟨⟨o1, e1, pc'⟩, hr, he⟩ := Option.map_eq_some_iff.mp h
    obtain ⟨rfl, -⟩ := Prod.mk.inj he
    cases pc with
    | take h' =>
      obtain ⟨o2, ho, he⟩ := Option.map_eq_some_iff.mp hr
      obtain ⟨rfl, -⟩ := Prod.mk.inj he
      exact .inl (semTake_handle _ _ _ _ ho)
    | store =>
      obtain ⟨rfl, -⟩ := Prod.mk.inj (Option.some.inj hr)
      exact .inr (.inr (.inr ⟨rfl, rfl⟩))
    | syncGive h' =>
      obtain ⟨rfl, -⟩ := Prod.mk.inj (Option.some.inj hr)
      exact .inl (semGive_handle o h')
    | dropSyncDelete h' | dropJoinDelete h' =>
      obtain ⟨rfl, -⟩ := Prod.mk.inj (Option.some.inj hr)
      exact .inl (semDelete_handle o h')
    | _ =>
      obtain ⟨rfl, -⟩ := Prod.mk.inj (Option.some.inj hr)
      exact .inl rfl

theorem clears_step (ok : Bool) (tasks : Nat) (o o' : Object) (c : Call) (e : Effect) (c' : Option Call)
    (hc : c.clears = true) (h : c.step ok tasks o = some (o', e, c')) : o'.taskHandle = .null := by
  cases c with
  | start pc =>
    have ho : (pc.step ok tasks o).1 = o' := congrArg Prod.fst (Option.some.inj h)
    rw [← ho]
    cases pc with
    | refuse | fail => rfl
    | _ => cases hc
  | reset pc =>
    cases pc with
    | store =>
      obtain ⟨rfl, -⟩ := Prod.mk.inj (Option.some.inj h)
      rfl
    | _ => cases hc

/-- A task changes `task_handle_` only by its last store. -/
theorem task_step_handle (ok : Bool) (o o' : Object) (pc pc' : TaskPc) (h : pc.step ok o = some (o', pc')) :
    o'.taskHandle = o.taskHandle ∨ (pc = .store ∧ o'.taskHandle = .null) := by
  cases pc with
  | wait h' =>
    obtain ⟨o1, ho, he⟩ := Option.map_eq_some_iff.mp h
    obtain ⟨rfl, -⟩ := Prod.mk.inj he
    exact .inl (semTake_handle _ _ _ _ ho)
  | give jSem =>
    obtain ⟨rfl, -⟩ := Prod.mk.inj (Option.some.inj h)
    cases jSem with
    | none => exact .inl rfl
    | some j => exact .inl (semGive_handle o (some j))
  | store =>
    obtain ⟨rfl, -⟩ := Prod.mk.inj (Option.some.inj h)
    exact .inr ⟨rfl, rfl⟩
  | terminated => cases h
  | _ =>
    obtain ⟨rfl, -⟩ := Prod.mk.inj (Option.some.inj h)
    exact .inl rfl

/-- A call that does not move keeps what is known of it, unless its wait ends with a null. -/
theorem due_other (h h' : Handle) (r : Record) (c : Call) (hd : c.Due h r)
    (hnull : h' = .null → h = .null ∨ (c = .start .spin → r.seen ≠ [])) : c.Due h' r := by
  cases c with
  | reset pc => trivial
  | start pc =>
    cases pc with
    | spin =>
      refine ⟨hd.1, ?_⟩
      intro hs hn
      rcases hnull hn with hh | hw
      · exact hd.2 hs hh
      · exact hw rfl hs
    | _ => exact hd

/-- What is known of a start after its own step. -/
theorem start_due (ok : Bool) (tasks : Nat) (o : Object) (r : Record) (pc : StartPc)
    (hd : (Call.start pc).Due o.taskHandle r) (hs : ∀ id, o.taskHandle = .task id → id ∈ r.seen) :
    ∀ d ∈ (pc.step ok tasks o).2.2,
      d.Due (pc.step ok tasks o).1.taskHandle (r.after tasks (pc.step ok tasks o).2.1) := by
  cases pc with
  | claim notifyIfStarted =>
    by_cases hn : o.taskHandle = .null
    · rw [StartPc.step, if_pos hn]
      intro d hdm
      obtain rfl := Option.some.inj hdm
      trivial
    · rw [StartPc.step, if_neg hn]
      intro d hdm
      cases notifyIfStarted with
      | false => cases hdm
      | true =>
        obtain rfl := Option.some.inj hdm
        exact ⟨hd, fun _ => hn⟩
  | spin =>
    intro d hdm
    obtain rfl := Option.some.inj hdm
    by_cases hst : o.taskHandle = .starting
    · rw [if_pos hst]
      exact hd
    · rw [if_neg hst]
      -- the wait ends with a handle, which the call has seen
      intro hno
      cases hh : o.taskHandle with
      | null => exact hd.2 hno hh
      | starting => exact hst hh
      | task id =>
        have hid := hs id hh
        rw [show r.seen = [] from hno] at hid
        cases hid
  | notifySync =>
    intro d hdm
    simp only [StartPc.step] at hdm
    split_ifs at hdm with hsem
    · obtain rfl := Option.some.inj hdm
      exact hd
    · cases hdm
  | notifyClear | notifyArg =>
    intro d hdm
    obtain rfl := Option.some.inj hdm
    exact hd
  | create =>
    cases ok with
    | false =>
      intro d hdm
      obtain rfl := Option.some.inj hdm
      trivial
    | true =>
      intro d hdm
      obtain rfl := Option.some.inj hdm
      rfl
  | syncCreate | joinCreate =>
    cases ok <;>
    · intro d hdm
      obtain rfl := Option.some.inj hdm
      trivial
  | notifyGive | refuse | store =>
    intro d hdm
    cases hdm
  | _ =>
    intro d hdm
    obtain rfl := Option.some.inj hdm
    try split_ifs
    all_goals trivial

theorem due_step (ok : Bool) (tasks : Nat) (o o' : Object) (r : Record) (c : Call) (e : Effect)
    (c' : Option Call) (hd : c.Due o.taskHandle r) (hs : ∀ id, o.taskHandle = .task id → id ∈ r.seen)
    (h : c.step ok tasks o = some (o', e, c')) : ∀ d ∈ c', d.Due o'.taskHandle (r.after tasks e) := by
  cases c with
  | start pc =>
    have hdue := start_due ok tasks o r pc hd hs
    have hr : pc.step ok tasks o = (o', e, c') := Option.some.inj h
    rwa [hr] at hdue
  | reset pc =>
    obtain ⟨⟨o1, e1, pc'⟩, hr, he⟩ := Option.map_eq_some_iff.mp h
    obtain ⟨-, he⟩ := Prod.mk.inj he
    obtain ⟨-, rfl⟩ := Prod.mk.inj he
    intro d hdm
    obtain ⟨q, -, rfl⟩ := Option.map_eq_some_iff.mp hdm
    trivial

/-- A start that returns `ESP_OK` is served. -/
theorem returnsOk_served (tasks : Nat) (h : Handle) (r : Record) (c : Call) (e : Effect)
    (hd : c.Due h r) (hk : r.Known tasks) (hc : c.returnsOk = true) : (r.after tasks e).Served tasks := by
  have hr : r.Served tasks := by
    cases c with
    | reset pc => cases hc
    | start pc =>
      cases pc with
      | notifySync => exact Record.served_of_seen tasks r hk hd
      | notifyGive h' => exact Record.served_of_seen tasks r hk hd
      | store id => exact .inl (by rw [show r.created = some id from hd]; rfl)
      | _ => cases hc
  cases e with
  | create => exact .inl rfl
  | _ => exact hr

namespace Watched

/-- What every step keeps, before the calls look at `task_handle_` again. -/
structure Sound (w : Watched) : Prop where
  handle : ∀ id, w.object.taskHandle = .task id → id < w.tasks.length
  known : ∀ p ∈ w.calls, p.1.Known w.tasks.length
  due : ∀ p ∈ w.calls, p.2.Due w.object.taskHandle p.1
  served : ∀ r ∈ w.succeeded, r.Served w.tasks.length

structure Followed (w : Watched) : Prop where
  sound : w.Sound
  sees : ∀ p ∈ w.calls, ∀ id, w.object.taskHandle = .task id → id ∈ p.1.seen

theorem constructed_followed : constructed.Followed := ⟨⟨nofun, nofun, nofun, nofun⟩, nofun⟩

/-- After a look every call in progress has seen the handle. -/
theorem Sound.look (w : Watched) (hw : w.Sound) : w.look.Followed := by
  refine ⟨⟨hw.handle, ?_, ?_, hw.served⟩, ?_⟩
  · intro p hp
    obtain ⟨q, hq, rfl⟩ := List.mem_map.mp hp
    exact Record.look_known _ _ _ (hw.known q hq) hw.handle
  · intro p hp
    obtain ⟨q, hq, rfl⟩ := List.mem_map.mp hp
    exact Record.look_due _ _ _ (hw.due q hq)
  · intro p hp id hid
    obtain ⟨q, hq, rfl⟩ := List.mem_map.mp hp
    change id ∈ (q.1.look w.object.taskHandle).seen
    rw [show w.object.taskHandle = .task id from hid]
    exact List.mem_cons_self

theorem followed_begin (w : Watched) (hw : w.Followed) (e : Entry) :
    Sound { w with calls := w.calls ++ [(⟨none, []⟩, e.call)] } := by
  refine ⟨hw.sound.handle, ?_, ?_, hw.sound.served⟩
  · intro p hp
    rcases List.mem_append.mp hp with hp | hp
    · exact hw.sound.known p hp
    · obtain rfl := List.mem_singleton.mp hp
      exact ⟨nofun, nofun⟩
  · intro p hp
    rcases List.mem_append.mp hp with hp | hp
    · exact hw.sound.due p hp
    · obtain rfl := List.mem_singleton.mp hp
      cases e with
      | start notifyIfStarted => rfl
      | reset => trivial

theorem followed_call (w : Watched) (hw : w.Followed) (i : Nat) (ok : Bool) (hl : w.Patient (.call i ok))
    (r : Record) (c : Call) (o : Object) (e : Effect) (c' : Option Call) (hc : w.calls[i]? = some (r, c))
    (h : c.step ok w.tasks.length w.object = some (o, e, c')) :
    Sound {
      object := (State.effect ⟨o, w.tasks, []⟩ e).object
      tasks := (State.effect ⟨o, w.tasks, []⟩ e).tasks
      calls := w.calls.take i ++ (c'.map (r.after w.tasks.length e, ·)).toList ++ w.calls.drop (i + 1)
      succeeded := w.succeeded ++
        if c'.isNone && c.returnsOk then [r.after w.tasks.length e] else [] } := by
  have hmem := List.mem_of_getElem? hc
  have hle := effect_tasks ⟨o, w.tasks, []⟩ e
  have hdue := hw.sound.due _ hmem
  have hknown := hw.sound.known _ hmem
  have hstep := call_step_handle ok w.tasks.length w.object o c e c' h
  refine ⟨?_, ?_, ?_, ?_⟩
  · intro id hid
    rw [effect_handle] at hid
    apply Nat.lt_of_lt_of_le _ hle
    rcases hstep with hh | hh | ⟨id', rfl, hh⟩ | ⟨-, hh⟩
    · exact hw.sound.handle id (hh ▸ hid)
    · exact absurd (hh.symm.trans hid) nofun
    · obtain rfl := Handle.task.inj (hh.symm.trans hid)
      exact hknown.2 id' hdue
    · exact absurd (hh.symm.trans hid) nofun
  · intro p hp
    rcases pool_mem w.calls i _ p hp with hp | hp
    · obtain ⟨d, -, rfl⟩ := Option.map_eq_some_iff.mp hp
      cases e with
      | create =>
        refine ⟨fun id hid => Nat.lt_of_lt_of_le (hknown.1 id hid) hle, ?_⟩
        intro id hid
        obtain rfl := Option.some.inj hid
        change w.tasks.length < (w.tasks ++ [TaskPc.acquire]).length
        rw [List.length_append]
        exact Nat.lt_succ_self _
      | _ => exact hknown.mono _ _ _ hle
    · exact (hw.sound.known p hp).mono _ _ _ hle
  · intro p hp
    dsimp only
    rw [effect_handle]
    rcases pool_mem w.calls i _ p hp with hp | hp
    · obtain ⟨d, hd, rfl⟩ := Option.map_eq_some_iff.mp hp
      exact due_step ok _ _ o r c e c' hdue (hw.sees _ hmem) h d hd
    · apply due_other w.object.taskHandle o.taskHandle p.1 p.2 (hw.sound.due p hp)
      intro hnull
      rcases hstep with hh | hh | ⟨id', -, hh⟩ | ⟨hcl, -⟩
      · exact .inl (hh.symm.trans hnull)
      · exact absurd (hh.symm.trans hnull) nofun
      · exact absurd (hh.symm.trans hnull) nofun
      · exact .inr fun hspin hs => hl (by rw [clears, hc]; exact hcl) ⟨p, hp, hspin, hs⟩
  · intro q hq
    rcases List.mem_append.mp hq with hq | hq
    · exact (hw.sound.served q hq).mono _ _ _ hle
    · split_ifs at hq with hok
      · obtain rfl := List.mem_singleton.mp hq
        have hret := (Bool.and_eq_true_iff.mp hok).2
        exact (returnsOk_served _ _ r c e hdue hknown hret).mono _ _ _ hle
      · cases hq

theorem followed_task (w : Watched) (hw : w.Followed) (id : Nat) (ok : Bool) (hl : w.Patient (.task id ok))
    (pc pc' : TaskPc) (o : Object) (hpc : w.tasks[id]? = some pc) (h : pc.step ok w.object = some (o, pc')) :
    Sound { w with object := o, tasks := w.tasks.set id pc' } := by
  have hlen : (w.tasks.set id pc').length = w.tasks.length := List.length_set
  have hstep := task_step_handle ok w.object o pc pc' h
  refine ⟨?_, ?_, ?_, ?_⟩
  · intro i hi
    dsimp only
    rw [hlen]
    rcases hstep with hh | ⟨-, hh⟩
    · exact hw.sound.handle i (hh ▸ hi)
    · exact absurd (hh.symm.trans hi) nofun
  · intro p hp
    dsimp only
    rw [hlen]
    exact hw.sound.known p hp
  · intro p hp
    apply due_other w.object.taskHandle o.taskHandle p.1 p.2 (hw.sound.due p hp)
    intro hnull
    rcases hstep with hh | ⟨rfl, -⟩
    · exact .inl (hh.symm.trans hnull)
    · exact .inr fun hspin hs => hl (by rw [clears, hpc]; rfl) ⟨p, hp, hspin, hs⟩
  · intro q hq
    dsimp only
    rw [hlen]
    exact hw.sound.served q hq

theorem followed_next (w : Watched) (l : Label) (w' : Watched) (hw : w.Followed) (hl : w.Patient l)
    (h : w.next l = some w') : w'.Followed := by
  cases l with
  | begin e =>
    obtain rfl := Option.some.inj h
    exact (followed_begin w hw e).look
  | call i ok =>
    simp only [next, Option.bind_eq_bind, Option.bind_eq_some_iff] at h
    obtain ⟨⟨r, c⟩, hc, ⟨o, e, c'⟩, hr, h⟩ := h
    obtain rfl := Option.some.inj h
    exact (followed_call w hw i ok hl r c o e c' hc hr).look
  | task id ok =>
    simp only [next, Option.bind_eq_bind, Option.bind_eq_some_iff] at h
    obtain ⟨pc, hpc, ⟨o, pc'⟩, hr, h⟩ := h
    obtain rfl := Option.some.inj h
    exact (followed_task w hw id ok hl pc pc' o hpc hr).look

/-- In a run that stores no null while a start waits, every start that returned `ESP_OK` created a task, or
`task_handle_` held the handle of another call's task at some moment of it. -/
theorem start_served (w : Watched) (run : Steps next Patient constructed w) :
    ∀ r ∈ w.succeeded, r.Served w.tasks.length := by
  have h : w.Followed := run.invariant _ _ Followed _ _ constructed_followed
    fun t l t' ht hl hn => followed_next t l t' ht hl hn
  exact h.sound.served

/-- Two starts, up to the creation of the task; the second one waits. -/
def racing : List Label :=
  [.begin (.start true), .begin (.start true), .call 0 true, .call 1 true, .call 1 true] ++
    List.replicate 11 (.call 0 true)

/-- The second start waits until the handle is stored, and returns after its notification. -/
theorem start_served_race :
    ∃ w, exec (guarded next Patient) constructed
        (racing ++ .call 0 true :: .call 0 true :: List.replicate 5 (.call 0 true)) = some w ∧
      w.succeeded.length = 2 ∧ ∀ r ∈ w.succeeded, r.Served w.tasks.length := by
  have h : ∃ w, exec (guarded next Patient) constructed
      (racing ++ .call 0 true :: .call 0 true :: List.replicate 5 (.call 0 true)) = some w ∧
      w.succeeded.length = 2 := ⟨_, rfl, by decide⟩
  obtain ⟨w, hr, hlen⟩ := h
  exact ⟨w, hr, hlen, start_served w (steps_of_guarded _ _ _ _ _ hr)⟩

/-- The task cannot be created, and the second start returns `ESP_OK` all the same. -/
theorem start_served_refused :
    ∃ w, exec next constructed
        (racing ++ .call 0 false :: .call 0 true :: List.replicate 5 (.call 1 true)) = some w ∧
      w.tasks = [] ∧ ∃ r ∈ w.succeeded, ¬ r.Served w.tasks.length := by
  refine ⟨_, rfl, ?_⟩
  decide

/-- With a null in `task_handle_` there is nothing to see. -/
theorem look_null (w : Watched) (h : w.object.taskHandle = .null) : w.look = w := by
  have hid : (fun p : Record × Call => (p.1.look w.object.taskHandle, p.2)) = id := by
    rw [h]
    rfl
  rw [look, hid, List.map_id]

/-- A step of a start that leaves a null in `task_handle_`. -/
theorem next_start (w : Watched) (j : Nat) (r : Record) (pc : StartPc) (o : Object) (c' : Option Call)
    (hc : w.calls[j]? = some (r, .start pc)) (hn : o.taskHandle = .null)
    (h : pc.step true w.tasks.length w.object = (o, .nothing, c')) :
    w.next (.call j true) = some {
      object := o
      tasks := w.tasks
      calls := w.calls.take j ++ (c'.map (r, ·)).toList ++ w.calls.drop (j + 1)
      succeeded := w.succeeded ++ if c'.isNone && (Call.start pc).returnsOk then [r] else [] } := by
  rw [next, hc]
  simp only [Option.bind_eq_bind, Option.bind_some, Call.step, h]
  exact congrArg some (look_null _ hn)

/-- Some steps from here a start returns `ESP_OK`, with this record. -/
def Succeeds (w : Watched) (r : Record) : Prop := ∃ ls u, exec next w ls = some u ∧ r ∈ u.succeeded

theorem Succeeds.step (w w' : Watched) (r : Record) (l : Label) (h : w.next l = some w')
    (hs : w'.Succeeds r) : w.Succeeds r := by
  obtain ⟨ls, u, hu, hr⟩ := hs
  refine ⟨l :: ls, u, ?_, hr⟩
  rw [exec_cons, h]
  exact hu

section succeeds
variable (w : Watched) (j : Nat) (r : Record)

theorem succeeds_return (pc : StartPc) (o : Object) (hc : w.calls[j]? = some (r, .start pc))
    (ho : o.taskHandle = .null) (h : pc.step true w.tasks.length w.object = (o, .nothing, none))
    (hok : (Call.start pc).returnsOk = true) : w.Succeeds r := by
  have hnext := next_start w j r pc o none hc ho h
  have hmem : r ∈ w.succeeded ++ if (none : Option Call).isNone && (Call.start pc).returnsOk then [r] else [] := by
    rw [hok]
    exact List.mem_append_right _ List.mem_cons_self
  exact Succeeds.step w _ r _ hnext ⟨[], _, rfl, hmem⟩

theorem succeeds_next (pc pc' : StartPc) (o : Object) (hc : w.calls[j]? = some (r, .start pc))
    (ho : o.taskHandle = .null)
    (h : pc.step true w.tasks.length w.object = (o, .nothing, some (.start pc')))
    (hs : ∀ u : Watched, u.object = o → u.calls[j]? = some (r, .start pc') → u.Succeeds r) :
    w.Succeeds r :=
  Succeeds.step w _ r _ (next_start w j r pc o _ hc ho h) (hs _ rfl (pool_get w.calls j _ hc _))

variable (hn : w.object.taskHandle = .null)
include hn

theorem succeeds_arg (hc : w.calls[j]? = some (r, .start .notifyArg)) : w.Succeeds r := by
  apply succeeds_next w j r .notifyArg (.notifyGive w.object.syncSem) w.object hc hn rfl
  intro u hu hc
  apply succeeds_return u j r _ (u.object.semGive w.object.syncSem) hc _ rfl rfl
  rw [semGive_handle, hu]
  exact hn

theorem succeeds_sync (hc : w.calls[j]? = some (r, .start .notifySync)) : w.Succeeds r := by
  by_cases hsem : w.object.syncSem.isSome
  · apply succeeds_next w j r .notifySync .notifyArg w.object hc hn
    · rw [StartPc.step, if_pos hsem]
    · intro u hu hc
      exact succeeds_arg u j r (hu ▸ hn) hc
  · apply succeeds_return w j r .notifySync w.object hc hn _ rfl
    rw [StartPc.step, if_neg hsem]

/-- A start whose wait meets a null returns `ESP_OK`. -/
theorem succeeds_spin (hc : w.calls[j]? = some (r, .start .spin)) : w.Succeeds r := by
  have hst : w.object.taskHandle ≠ .starting := by
    rw [hn]
    nofun
  apply succeeds_next w j r .spin .notifyClear w.object hc hn
  · rw [StartPc.step, if_neg hst]
  · intro u hu hc
    apply succeeds_next u j r .notifyClear .notifySync { u.object with stopRequested := false } hc
      (hu ▸ hn) rfl
    intro v hv hc
    exact succeeds_sync v j r (by rw [hv, hu]; exact hn) hc

end succeeds

/-- A store of a null leaves the waiting starts with it. -/
theorem clears_waiting (w w' : Watched) (l : Label) (hl : w.clears l = true) (h : w.next l = some w')
    (p : Record × Call) (hp : p ∈ w.calls) (hspin : p.2 = .start .spin) :
    w'.object.taskHandle = .null ∧ p ∈ w'.calls := by
  cases l with
  | begin e => cases hl
  | call i ok =>
    simp only [next, Option.bind_eq_bind, Option.bind_eq_some_iff] at h
    obtain ⟨⟨r, c⟩, hc, ⟨o, e, c'⟩, hr, h⟩ := h
    have hcl : c.clears = true := by
      rw [clears, hc] at hl
      exact hl
    have hnull : (State.effect ⟨o, w.tasks, []⟩ e).object.taskHandle = .null := by
      rw [effect_handle]
      exact clears_step ok w.tasks.length w.object o c e c' hcl hr
    rw [look_null _ hnull] at h
    obtain rfl := Option.some.inj h
    refine ⟨hnull, pool_keep w.calls i _ hc _ p hp ?_⟩
    intro he
    rw [he] at hspin
    dsimp only at hspin
    rw [hspin] at hcl
    cases hcl
  | task id ok =>
    simp only [next, Option.bind_eq_bind, Option.bind_eq_some_iff] at h
    obtain ⟨pc, hpc, ⟨o, pc'⟩, hr, h⟩ := h
    obtain rfl : pc = .store := Option.some.inj (hpc.symm.trans (eq_of_beq hl))
    obtain ⟨rfl, -⟩ := Prod.mk.inj (Option.some.inj hr)
    rw [look_null _ rfl] at h
    obtain rfl := Option.some.inj h
    exact ⟨rfl, hp⟩

/-- The condition leaves out nothing else: after the first step against it the start that waited can go on
to return `ESP_OK` unserved. -/
theorem impatient_unserved (w w' : Watched) (run : Steps next Patient constructed w) (l : Label)
    (hl : ¬ w.Patient l) (h : w.next l = some w') :
    ∃ ls u, exec next w' ls = some u ∧ ∃ r ∈ u.succeeded, ¬ r.Served u.tasks.length := by
  have hw : w.Followed := run.invariant _ _ Followed _ _ constructed_followed
    fun t l t' ht hl hn => followed_next t l t' ht hl hn
  obtain ⟨hcl, p, hp, hspin, hseen⟩ : w.clears l = true ∧ w.Waiting := by
    unfold Patient at hl
    tauto
  obtain ⟨hnull, hp'⟩ := clears_waiting w w' l hcl h p hp hspin
  obtain ⟨j, hj⟩ := List.mem_iff_getElem?.mp hp'
  obtain ⟨ls, u, hu, hr⟩ := succeeds_spin w' j p.1 hnull (by rw [← hspin]; exact hj)
  have hdue := hw.sound.due p hp
  rw [hspin] at hdue
  refine ⟨ls, u, hu, p.1, hr, ?_⟩
  intro hserved
  rcases hserved with hc | ⟨id, hid, -⟩
  · rw [hdue.1] at hc
    cases hc
  · rw [hseen] at hid
    cases hid

end Watched

end Espbase.EspTask
