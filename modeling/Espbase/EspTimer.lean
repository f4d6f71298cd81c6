import Espbase.Lib.Simulation
import Espbase.Lib.Wrappers

namespace Espbase.EspTimer

open Espbase.Lib

inductive EspErr where
  | ok
  | noMem
  | invalidState
  deriving DecidableEq

/-- The timers of `esp_timer`, each with its time-out in microseconds while it runs. -/
abbrev Timers := Handles (Option UInt64)

/-- A call for a timer; there is no result for a deleted one. -/
def onTimer (t : Timers) (h : Nat) (f : Option UInt64 → EspErr × Timers) : Option (EspErr × Timers) :=
  (t.get h).map f

def espTimerStartOnce (t : Timers) (h : Nat) (timeout : UInt64) : Option (EspErr × Timers) :=
  onTimer t h fun running =>
    if running = none then (.ok, t.modify h fun _ => some timeout) else (.invalidState, t)

def espTimerStop (t : Timers) (h : Nat) : Option (EspErr × Timers) :=
  onTimer t h fun running => if running = none then (.invalidState, t) else (.ok, t.modify h fun _ => none)

/-- A timer that runs is not deleted. -/
def espTimerDelete (t : Timers) (h : Nat) : Option (EspErr × Timers) :=
  onTimer t h fun running => if running = none then (.ok, t.delete h) else (.invalidState, t)

structure Object where
  handle : Option Nat
  deriving DecidableEq

namespace Object

def destroy (o : Object) (t : Timers) : Option (EspErr × Object × Timers) :=
  match o.handle with
  | none => some (.ok, o, t)
  | some h => do
    let (_, t) ← espTimerStop t h
    let (_, t) ← espTimerDelete t h
    some (.ok, ⟨none⟩, t)

/-- `created`: `esp_timer_create` has memory for the timer. -/
def create (created : Bool) (o : Object) (t : Timers) : Option (EspErr × Object × Timers) := do
  let (_, o, t) ← o.destroy t
  some (if created then (.ok, ⟨some t.fresh⟩, t.create none) else (.noMem, o, t))

def startOnce (delayMs : UInt32) (o : Object) (t : Timers) : Option (EspErr × Object × Timers) :=
  match o.handle with
  | none => some (.ok, o, t)
  | some h => do
    let (_, t) ← espTimerStop t h
    let (_, t) ← espTimerStartOnce t h (delayMs.toUInt64 * 1000)
    some (.ok, o, t)

def stop (o : Object) (t : Timers) : Option (EspErr × Object × Timers) :=
  match o.handle with
  | none => some (.ok, o, t)
  | some h => do
    let (_, t) ← espTimerStop t h
    some (.ok, o, t)

/-- The timer of the object, if it runs, calls back. -/
def expire (o : Object) (t : Timers) : Option (EspErr × Object × Timers) :=
  match o.handle with
  | none => some (.ok, o, t)
  | some h => some (.ok, o, t.modify h fun _ => none)

end Object

/-- The `EspTimer`s of a program. -/
abbrev Pool := Wrapped Object (Option UInt64)

inductive Event where
  | construct (i : Nat)
  | create (i : Nat) (created : Bool)
  | startOnce (i : Nat) (delayMs : UInt32)
  | stop (i : Nat)
  /-- time passes -/
  | expire (i : Nat)
  | destruct (i : Nat)
  deriving DecidableEq

namespace Pool

def event (p : Pool) : Event → Option (EspErr × Pool)
  | .construct i => some (.ok, p.set i (some ⟨none⟩))
  | .create i created => p.method i (Object.create created)
  | .startOnce i delayMs => p.method i (Object.startOnce delayMs)
  | .stop i => p.method i Object.stop
  | .expire i => p.method i Object.expire
  | .destruct i => do
    let (err, p) ← p.method i Object.destroy
    some (err, p.set i none)

end Pool

/-- What an `EspTimer` is for: it has no timer, or one that runs or does not. -/
abbrev Shown := Nat → Option (Option (Option UInt64))

namespace Shown

/-- The timer of an object that has one. -/
def change (v : Shown) (i : Nat) (running : Option UInt64) : Shown :=
  Function.update v i ((v i).map (Option.map fun _ => running))

def event (v : Shown) : Event → EspErr × Shown
  | .construct i => (.ok, Function.update v i (some none))
  | .create i created =>
    (if created then .ok else .noMem, Function.update v i (some (if created then some none else none)))
  | .startOnce i delayMs => (.ok, v.change i (some (delayMs.toUInt64 * 1000)))
  | .stop i => (.ok, v.change i none)
  | .expire i => (.ok, v.change i none)
  | .destruct i => (.ok, Function.update v i none)

/-- The object of an event exists, and one that is constructed does not. -/
def Makes (v : Shown) : Event → Prop
  | .construct i => v i = none
  | .create i _ => v i ≠ none
  | .startOnce i _ => v i ≠ none
  | .stop i => v i ≠ none
  | .expire i => v i ≠ none
  | .destruct i => v i ≠ none

end Shown

def Object.agrees (o : Object) (timer : Option (Option UInt64)) : Prop := o.handle.isSome = timer.isSome

def wrapper : Wrapper Object (Option UInt64) := ⟨Object.handle, Object.agrees⟩

/-- What the timer of an object does. -/
def running (o : Object) (t : Timers) : Option (Option UInt64) := (wrapper.handle o).bind t.get

section methods
variable (o : Object) (t : Timers)

theorem matched (h : Nat) (hm : wrapper.Matches t ⟨some h⟩) : ∃ r, t.get h = some r :=
  Option.isSome_iff_exists.mp (Eq.symm hm)

/-- Whether it runs or not, a timer is stopped. -/
theorem espTimerStop_spec (h : Nat) (r : Option UInt64) (hr : t.get h = some r) :
    ∃ err t', espTimerStop t h = some (err, t') ∧ wrapper.Keeps ⟨some h⟩ t ⟨some h⟩ t' ∧ t'.get h = some none := by
  cases r with
  | none =>
    refine ⟨.invalidState, t, ?_, wrapper.keeps_refl _ _ t rfl ?_, hr⟩
    · rw [espTimerStop, onTimer, hr]
      rfl
    · change true = (t.get h).isSome
      rw [hr]
      rfl
  | some timeout =>
    refine ⟨.ok, t.modify h fun _ => none, ?_, wrapper.keeps_modify _ _ t h _ rfl rfl ?_, ?_⟩
    · rw [espTimerStop, onTimer, hr]
      rfl
    · rw [hr]
      rfl
    · rw [t.get_modify_self, hr]
      rfl

theorem destroy_spec (hm : wrapper.Matches t o) :
    ∃ o' t', o.destroy t = some (.ok, o', t') ∧ wrapper.Keeps o t o' t' ∧ o'.handle = none := by
  obtain ⟨handle⟩ := o
  cases handle with
  | none => exact ⟨_, _, rfl, wrapper.keeps_refl _ _ t rfl hm, rfl⟩
  | some h =>
    obtain ⟨r, hr⟩ := matched t h hm
    obtain ⟨err, t₁, hstop, hkeeps, hget⟩ := espTimerStop_spec t h r hr
    have hdelete : espTimerDelete t₁ h = some (.ok, t₁.delete h) := by
      rw [espTimerDelete, onTimer, hget]
      rfl
    refine ⟨⟨none⟩, t₁.delete h, ?_, hkeeps.trans wrapper _ t _ _ _ _
      (wrapper.keeps_delete _ ⟨none⟩ t₁ h rfl rfl rfl) (.inr rfl), rfl⟩
    simp only [Object.destroy, hstop, hdelete, Option.bind_eq_bind, Option.bind_some]

theorem create_spec (hm : wrapper.Matches t o) (created : Bool) :
    ∃ o' t', o.create created t = some (if created then .ok else .noMem, o', t') ∧ wrapper.Keeps o t o' t' ∧
      running o' t' = if created then some none else none := by
  obtain ⟨o₁, t₁, hdestroy, hkeeps, hnone⟩ := destroy_spec o t hm
  have hcreate : o.create created t =
      some (if created then (.ok, ⟨some t₁.fresh⟩, t₁.create none) else (.noMem, o₁, t₁)) := by
    rw [Object.create, hdestroy]
    rfl
  cases created with
  | true =>
    refine ⟨⟨some t₁.fresh⟩, t₁.create none, hcreate, hkeeps.trans wrapper _ t _ _ _ _
      (wrapper.keeps_create _ _ t₁ none hnone rfl rfl) (.inl hnone), t₁.get_create_fresh none⟩
  | false =>
    refine ⟨o₁, t₁, hcreate, hkeeps, ?_⟩
    have hhandle : wrapper.handle o₁ = none := hnone
    rw [running, hhandle]
    rfl

theorem startOnce_spec (hm : wrapper.Matches t o) (delayMs : UInt32) :
    ∃ t', o.startOnce delayMs t = some (.ok, o, t') ∧ wrapper.Keeps o t o t' ∧
      running o t' = (running o t).map fun _ => some (delayMs.toUInt64 * 1000) := by
  obtain ⟨handle⟩ := o
  cases handle with
  | none => exact ⟨_, rfl, wrapper.keeps_refl _ _ t rfl hm, rfl⟩
  | some h =>
    obtain ⟨r, hr⟩ := matched t h hm
    obtain ⟨err, t₁, hstop, hkeeps, hget⟩ := espTimerStop_spec t h r hr
    have hstart : espTimerStartOnce t₁ h (delayMs.toUInt64 * 1000) =
        some (.ok, t₁.modify h fun _ => some (delayMs.toUInt64 * 1000)) := by
      rw [espTimerStartOnce, onTimer, hget]
      rfl
    refine ⟨t₁.modify h fun _ => some (delayMs.toUInt64 * 1000), ?_, hkeeps.trans wrapper _ t _ _ _ _
      (wrapper.keeps_modify _ _ t₁ h _ rfl rfl (by rw [hget]; rfl)) (.inr rfl), ?_⟩
    · simp only [Object.startOnce, hstop, hstart, Option.bind_eq_bind, Option.bind_some]
    · change (t₁.modify h _).get h = (t.get h).map _
      rw [t₁.get_modify_self, hget, hr]
      rfl

theorem stop_spec (hm : wrapper.Matches t o) :
    ∃ t', o.stop t = some (.ok, o, t') ∧ wrapper.Keeps o t o t' ∧
      running o t' = (running o t).map fun _ => none := by
  obtain ⟨handle⟩ := o
  cases handle with
  | none => exact ⟨_, rfl, wrapper.keeps_refl _ _ t rfl hm, rfl⟩
  | some h =>
    obtain ⟨r, hr⟩ := matched t h hm
    obtain ⟨err, t₁, hstop, hkeeps, hget⟩ := espTimerStop_spec t h r hr
    refine ⟨t₁, ?_, hkeeps, ?_⟩
    · simp only [Object.stop, hstop, Option.bind_eq_bind, Option.bind_some]
    · change t₁.get h = (t.get h).map _
      rw [hget, hr]
      rfl

theorem expire_spec (hm : wrapper.Matches t o) :
    ∃ t', o.expire t = some (.ok, o, t') ∧ wrapper.Keeps o t o t' ∧
      running o t' = (running o t).map fun _ => none := by
  obtain ⟨handle⟩ := o
  cases handle with
  | none => exact ⟨_, rfl, wrapper.keeps_refl _ _ t rfl hm, rfl⟩
  | some h =>
    obtain ⟨r, hr⟩ := matched t h hm
    refine ⟨_, rfl, wrapper.keeps_modify _ _ t h _ rfl rfl (by rw [hr]; rfl), ?_⟩
    change (t.modify h _).get h = (t.get h).map _
    rw [t.get_modify_self]

end methods

namespace Pool

section steps
variable (p : Pool) (h : wrapper.Held p)
include h

/-- A member function that keeps its object is seen as a change of its timer. -/
theorem change_view (i : Nat) (o : Object) (hi : p.objects i = some o)
    (f : Object → Timers → Option (EspErr × Object × Timers)) (r : Option UInt64)
    (hf : ∃ t', f o p.table = some (.ok, o, t') ∧ wrapper.Keeps o p.table o t' ∧
      running o t' = (running o p.table).map fun _ => r) :
    ∃ p', p.method i f = some (.ok, p') ∧ wrapper.Held p' ∧
      wrapper.view p' = Shown.change (wrapper.view p) i r := by
  obtain ⟨t', hf, hk, hr⟩ := hf
  obtain ⟨p', hcall, hheld, -, hview⟩ := h.method wrapper p i o hi f .ok o t' hf hk
  refine ⟨p', hcall, hheld, ?_⟩
  rw [hview, Shown.change, wrapper.view_of_some p i o hi]
  exact congrArg (fun timer => Function.update (wrapper.view p) i (some timer)) hr

/-- An event is one of the timers as they are shown. -/
theorem event_view (e : Event) (he : Shown.Makes (wrapper.view p) e) :
    ∃ p', p.event e = some ((Shown.event (wrapper.view p) e).1, p') ∧ wrapper.Held p' ∧
      wrapper.view p' = (Shown.event (wrapper.view p) e).2 := by
  have hexists (i : Nat) (hi : wrapper.view p i ≠ none) : ∃ o, p.objects i = some o :=
    Option.ne_none_iff_exists'.mp fun hnone => hi (Option.map_eq_none_iff.mpr hnone)
  cases e with
  | construct i =>
    have hnone := wrapper.owner_of_none p i (Option.map_eq_none_iff.mp he)
    have hnew (a : Object) (ha : some (⟨none⟩ : Object) = some a) : wrapper.handle a = none := by
      rw [← Option.some.inj ha]
      rfl
    refine ⟨p.set i (some ⟨none⟩), rfl, h.set wrapper p i _ hnone ?_, wrapper.view_set p i _ hnew⟩
    intro a ha
    rw [← Option.some.inj ha]
    exact ⟨rfl, rfl⟩
  | create i created =>
    obtain ⟨o, hi⟩ := hexists i he
    obtain ⟨o', t', hf, hk, hr⟩ := create_spec o p.table (h.matches i o hi) created
    obtain ⟨p', hcall, hheld, -, hview⟩ := h.method wrapper p i o hi (Object.create created) _ o' t' hf hk
    refine ⟨p', hcall, hheld, ?_⟩
    rw [hview]
    exact congrArg (fun timer => Function.update (wrapper.view p) i (some timer)) hr
  | startOnce i delayMs =>
    obtain ⟨o, hi⟩ := hexists i he
    exact change_view p h i o hi _ _ (startOnce_spec o p.table (h.matches i o hi) delayMs)
  | stop i =>
    obtain ⟨o, hi⟩ := hexists i he
    exact change_view p h i o hi _ _ (stop_spec o p.table (h.matches i o hi))
  | expire i =>
    obtain ⟨o, hi⟩ := hexists i he
    exact change_view p h i o hi _ _ (expire_spec o p.table (h.matches i o hi))
  | destruct i =>
    obtain ⟨o, hi⟩ := hexists i he
    obtain ⟨o', t', hf, hk, hnone⟩ := destroy_spec o p.table (h.matches i o hi)
    obtain ⟨p₁, hcall, hheld, hobjects, hview⟩ := h.method wrapper p i o hi Object.destroy .ok o' t' hf hk
    have hold : wrapper.owner p₁ i = none := by
      rw [wrapper.owner_of_some p₁ i o' (by rw [hobjects, Function.update_self])]
      exact hnone
    refine ⟨p₁.set i none, ?_, hheld.set wrapper p₁ i none hold nofun, ?_⟩
    · rw [Pool.event, hcall]
      rfl
    · rw [wrapper.view_set p₁ i none nofun, hview, Function.update_idem]
      rfl

end steps

/-- However a program makes, starts and stops its timers, and whenever they expire, no call is for a deleted
timer, `start_once` always starts what there is, and a destroyed object leaves no timer behind. -/
theorem timers_refine (es : List Event) (hes : MakesAll Shown.event Shown.Makes (fun _ => none) es) :
    ∃ p, runs Pool.event .empty es = some ((answers Shown.event (fun _ => none) es).1, p) ∧
      wrapper.view p = (answers Shown.event (fun _ => none) es).2 ∧
      (∀ k, p.table.Live k → ∃! i, wrapper.owner p i = some k) ∧
      ((∀ i, (answers Shown.event (fun _ => none) es).2 i = none) → ∀ k, ¬ p.table.Live k) := by
  obtain ⟨p, hruns, hheld, hview⟩ := runs_view Pool.event Shown.event Shown.Makes wrapper.view wrapper.Held
    (fun p e hheld he => event_view p hheld e he) .empty wrapper.held_empty es hes
  obtain ⟨hone, hgone⟩ := hheld.exclusive wrapper p
  rw [hview] at hgone
  exact ⟨p, hruns, hview, hone, hgone⟩

/-- A timer is started twice before it expires, and made anew while it runs. -/
theorem timers_refine_restarted : ∃ p, runs Pool.event .empty
    [.construct 0, .startOnce 0 5, .create 0 true, .startOnce 0 5, .startOnce 0 7, .create 0 true, .startOnce 0 9] =
      some ([.ok, .ok, .ok, .ok, .ok, .ok, .ok], p) ∧ wrapper.view p 0 = some (some (some 9000)) := by
  obtain ⟨p, hruns, hview, -⟩ := timers_refine
    [.construct 0, .startOnce 0 5, .create 0 true, .startOnce 0 5, .startOnce 0 7, .create 0 true, .startOnce 0 9]
    ⟨rfl, nofun, nofun, nofun, nofun, nofun, nofun, trivial⟩
  refine ⟨p, hruns, ?_⟩
  rw [hview]
  decide

end Pool

end Espbase.EspTimer
