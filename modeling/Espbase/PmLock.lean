import Espbase.Lib.Wrappers
import Espbase.YieldingTask.Trampoline

namespace Espbase.PmLock

open Espbase.Lib

inductive LockType where
  | cpuFreqMax
  | apbFreqMax
  | noLightSleep
  deriving DecidableEq

/-- `esp_pm_lock_type_t` -/
inductive EspPmLockType where
  | cpuFreqMax
  | apbFreqMax
  | noLightSleep
  deriving DecidableEq

def convertLockType : LockType → EspPmLockType
  | .cpuFreqMax => .cpuFreqMax
  | .apbFreqMax => .apbFreqMax
  | .noLightSleep => .noLightSleep

inductive EspErr where
  | ok
  | noMem
  | invalidArg
  | invalidState
  deriving DecidableEq

/-- A lock of the system, and how often it is held. -/
structure EspLock where
  type : EspPmLockType
  count : Nat
  deriving DecidableEq

abbrev Locks := Handles EspLock

/-- A call for a handle that is not null; there is no result for the handle of a deleted lock. -/
def onLock (t : Locks) (handle : Option Nat) (f : Nat → EspLock → EspErr × Locks) : Option (EspErr × Locks) :=
  match handle with
  | none => some (.invalidArg, t)
  | some h => (t.get h).map (f h)

def espPmLockAcquire (t : Locks) (handle : Option Nat) : Option (EspErr × Locks) :=
  onLock t handle fun h _ => (.ok, t.modify h fun l => { l with count := l.count + 1 })

def espPmLockRelease (t : Locks) (handle : Option Nat) : Option (EspErr × Locks) :=
  onLock t handle fun h l =>
    if l.count = 0 then (.invalidState, t) else (.ok, t.modify h fun l => { l with count := l.count - 1 })

/-- A lock that is held is not deleted. -/
def espPmLockDelete (t : Locks) (handle : Option Nat) : Option (EspErr × Locks) :=
  onLock t handle fun h l => if l.count = 0 then (.ok, t.delete h) else (.invalidState, t)

/-- The members of a `PmLock`. -/
structure Object where
  handle : Option Nat
  lockType : LockType
  acquired : Bool
  deriving DecidableEq

namespace Object

def constructed (lockType : LockType) : Object := ⟨none, lockType, false⟩

def isEnabled (o : Object) : Bool := o.handle.isSome

/-- `created`: `esp_pm_lock_create` has memory for the lock. -/
def createOrDelete (o : Object) (t : Locks) (create created : Bool) : Option (EspErr × Object × Locks) :=
  if create then
    if created then
      some (.ok, { o with handle := some t.fresh }, t.create ⟨convertLockType o.lockType, 0⟩)
    else some (.noMem, o, t)
  else do
    let t ← if o.acquired then (espPmLockRelease t o.handle).map Prod.snd else some t
    let (err, t) ← espPmLockDelete t o.handle
    some (err, { o with handle := none, acquired := false }, t)

def enable (o : Object) (t : Locks) (en created : Bool) : Option (EspErr × Object × Locks) :=
  if en ≠ o.isEnabled then o.createOrDelete t en created else some (.ok, o, t)

def acquireIfEnabled (o : Object) (t : Locks) : Option (EspErr × Object × Locks) :=
  if o.handle = none ∨ o.acquired then some (.ok, o, t)
  else do
    let (err, t) ← espPmLockAcquire t o.handle
    some (err, if err = .ok then { o with acquired := true } else o, t)

def release (o : Object) (t : Locks) : Option (EspErr × Object × Locks) :=
  if o.handle = none ∨ o.acquired = false then some (.ok, o, t)
  else do
    let (err, t) ← espPmLockRelease t o.handle
    some (err, if err = .ok then { o with acquired := false } else o, t)

/-- What a move leaves behind. -/
def movedFrom (o : Object) : Object := { o with handle := none, acquired := false }

end Object

/-- The locks of the system, and the `PmLock`s of a program. -/
abbrev Pool := Wrapped Object EspLock

inductive Call where
  | construct (i : Nat) (lockType : LockType)
  | enable (i : Nat) (en created : Bool)
  | acquireIfEnabled (i : Nat)
  | release (i : Nat)
  /-- `i` is constructed from `j` -/
  | moveConstruct (i j : Nat)
  /-- `i` is assigned from `j` -/
  | moveAssign (i j : Nat)
  | destroy (i : Nat)
  deriving DecidableEq

namespace Pool

def call (p : Pool) : Call → Option (EspErr × Pool)
  | .construct i lockType =>
    some (.ok, p.set i (some (.constructed lockType)))
  | .enable i en created => p.method i fun o t => o.enable t en created
  | .acquireIfEnabled i => p.method i Object.acquireIfEnabled
  | .release i => p.method i Object.release
  | .moveConstruct i j => (p.transfer Object.movedFrom i j).map fun p => (.ok, p)
  | .moveAssign i j =>
    if i = j then some (.ok, p)
    else do
      let (_, p) ← p.method i fun o t => o.enable t false false
      (p.transfer Object.movedFrom i j).map fun p => (.ok, p)
  | .destroy i => do
    let (err, p) ← p.method i fun o t => o.enable t false false
    some (err, p.set i none)

def next (p : Pool) (c : Call) : Option Pool := (p.call c).map Prod.snd

/-- The objects of a call exist, and one that it constructs does not. -/
def Makes (p : Pool) : Call → Prop
  | .construct i _ => p.objects i = none
  | .enable i _ _ => p.objects i ≠ none
  | .acquireIfEnabled i => p.objects i ≠ none
  | .release i => p.objects i ≠ none
  | .moveConstruct i j => p.objects i = none ∧ p.objects j ≠ none
  | .moveAssign i j => p.objects i ≠ none ∧ p.objects j ≠ none
  | .destroy i => p.objects i ≠ none

instance (p : Pool) : (c : Call) → Decidable (p.Makes c)
  | .construct _ _ => inferInstanceAs (Decidable (_ = _))
  | .enable _ _ _ => inferInstanceAs (Decidable (_ ≠ _))
  | .acquireIfEnabled _ => inferInstanceAs (Decidable (_ ≠ _))
  | .release _ => inferInstanceAs (Decidable (_ ≠ _))
  | .moveConstruct _ _ => inferInstanceAs (Decidable (_ ∧ _))
  | .moveAssign _ _ => inferInstanceAs (Decidable (_ ∧ _))
  | .destroy _ => inferInstanceAs (Decidable (_ ≠ _))

end Pool

/-- The lock of an object is of its type, and is held once when the object says so. -/
def Object.agrees (o : Object) (l : Option EspLock) : Prop :=
  match o.handle with
  | none => o.acquired = false
  | some _ => l = some ⟨convertLockType o.lockType, o.acquired.toNat⟩

def wrapper : Wrapper Object EspLock := ⟨Object.handle, Object.agrees⟩

/-- The object as the model of a task has it, where it is held as it says. -/
def Object.shown (o : Object) : YieldingTask.PmLock := ⟨o.isEnabled, o.acquired, o.acquired.toNat⟩

section methods
variable (o : Object) (t : Locks)

/-- Only the creation of a lock can fail; disabled, the object has none. -/
theorem enable_spec (hm : wrapper.Matches t o) (en created : Bool) :
    ∃ err o' t', o.enable t en created = some (err, o', t') ∧ wrapper.Keeps o t o' t' ∧
      (err ≠ .ok → en = true ∧ created = false) ∧ (en = false → o'.handle = none ∧ o'.acquired = false) ∧
      o'.shown = o.shown.enable en created := by
  obtain ⟨handle, lockType, acquired⟩ := o
  cases handle with
  | none =>
    have hnot : acquired = false := hm
    subst hnot
    cases en with
    | false => exact ⟨_, _, _, rfl, wrapper.keeps_refl _ _ t rfl hm, fun he => absurd rfl he, fun _ => ⟨rfl, rfl⟩, rfl⟩
    | true =>
      cases created with
      | true => exact ⟨_, _, _, rfl, wrapper.keeps_create _ _ t _ rfl rfl rfl, fun he => absurd rfl he, nofun, rfl⟩
      | false => exact ⟨_, _, _, rfl, wrapper.keeps_refl _ _ t rfl hm, fun _ => ⟨rfl, rfl⟩, nofun, rfl⟩
  | some h =>
    have hget : t.get h = some ⟨convertLockType lockType, acquired.toNat⟩ := hm
    cases en with
    | true => exact ⟨_, _, _, rfl, wrapper.keeps_refl _ _ t rfl hm, fun he => absurd rfl he, nofun, rfl⟩
    | false =>
      refine ⟨.ok, ⟨none, lockType, false⟩, t.delete h, ?_, wrapper.keeps_delete _ _ t h rfl rfl rfl,
        fun he => absurd rfl he, fun _ => ⟨rfl, rfl⟩, by cases acquired <;> rfl⟩
      cases acquired with
      | false => simp [Object.enable, Object.isEnabled, Object.createOrDelete, espPmLockDelete, onLock, hget]
      | true =>
        simp [Object.enable, Object.isEnabled, Object.createOrDelete, espPmLockRelease, espPmLockDelete, onLock,
          hget]

theorem acquireIfEnabled_spec (hm : wrapper.Matches t o) :
    ∃ o' t', o.acquireIfEnabled t = some (.ok, o', t') ∧ wrapper.Keeps o t o' t' ∧
      o'.shown = o.shown.acquireIfEnabled := by
  obtain ⟨handle, lockType, acquired⟩ := o
  cases handle with
  | none => exact ⟨_, _, rfl, wrapper.keeps_refl _ _ t rfl hm, rfl⟩
  | some h =>
    have hget : t.get h = some ⟨convertLockType lockType, acquired.toNat⟩ := hm
    cases acquired with
    | true => exact ⟨_, _, rfl, wrapper.keeps_refl _ _ t rfl hm, rfl⟩
    | false =>
      refine ⟨⟨some h, lockType, true⟩, t.modify h fun l => { l with count := l.count + 1 }, ?_,
        wrapper.keeps_modify _ _ t h _ rfl rfl ?_, rfl⟩
      · simp [Object.acquireIfEnabled, espPmLockAcquire, onLock, hget]
      · rw [hget]
        rfl

theorem release_spec (hm : wrapper.Matches t o) :
    ∃ o' t', o.release t = some (.ok, o', t') ∧ wrapper.Keeps o t o' t' ∧ o'.shown = o.shown.release := by
  obtain ⟨handle, lockType, acquired⟩ := o
  cases handle with
  | none => exact ⟨_, _, rfl, wrapper.keeps_refl _ _ t rfl hm, rfl⟩
  | some h =>
    have hget : t.get h = some ⟨convertLockType lockType, acquired.toNat⟩ := hm
    cases acquired with
    | false => exact ⟨_, _, rfl, wrapper.keeps_refl _ _ t rfl hm, rfl⟩
    | true =>
      refine ⟨⟨some h, lockType, false⟩, t.modify h fun l => { l with count := l.count - 1 }, ?_,
        wrapper.keeps_modify _ _ t h _ rfl rfl ?_, rfl⟩
      · simp [Object.release, espPmLockRelease, onLock, hget]
      · rw [hget]
        rfl

/-- What the system has for an object: the model of a task counts the same. -/
theorem shown_held (hm : wrapper.Matches t o) : o.shown.held = match o.handle with
    | none => 0
    | some h => ((t.get h).map fun l => (l.count : Int)).getD 0 := by
  obtain ⟨handle, lockType, acquired⟩ := o
  cases handle with
  | none =>
    have hnot : acquired = false := hm
    rw [hnot]
    rfl
  | some h =>
    have hget : t.get h = some ⟨convertLockType lockType, acquired.toNat⟩ := hm
    simp [Object.shown, hget]

end methods

namespace Pool

section steps
variable (p : Pool) (h : wrapper.Held p)
include h

/-- An object gives its lock back before it is assigned to or destroyed. -/
theorem disable_spec (i : Nat) (o : Object) (hi : p.objects i = some o) :
    ∃ p' : Pool, p.method i (fun o t => o.enable t false false) = some (EspErr.ok, p') ∧ wrapper.Held p' ∧
      (∀ j, j ≠ i → p'.objects j = p.objects j) ∧ wrapper.owner p' i = none := by
  obtain ⟨err, o', t', hf, hk, herr, hoff, -⟩ := enable_spec o p.table (h.matches i o hi) false false
  obtain ⟨p', hcall, hheld, hobjects, -⟩ :=
    h.method wrapper p i o hi (fun o t => o.enable t false false) err o' t' hf hk
  have hok : err = .ok := by
    by_contra hne
    cases (herr hne).1
  subst hok
  refine ⟨p', hcall, hheld, ?_, ?_⟩
  · intro j hj
    rw [hobjects, Function.update_of_ne hj]
  · rw [wrapper.owner_of_some p' i o' (by rw [hobjects, Function.update_self])]
    exact (hoff rfl).1

/-- No call uses a deleted lock, and only the creation of a lock fails. -/
theorem call_spec (c : Call) (hc : p.Makes c) :
    ∃ err p', p.call c = some (err, p') ∧ wrapper.Held p' ∧ (err ≠ .ok → ∃ i, c = .enable i true false) := by
  have hok : ¬ (EspErr.ok ≠ .ok) := fun hne => hne rfl
  cases c with
  | construct i lockType =>
    refine ⟨.ok, _, rfl, h.set wrapper p i _ (wrapper.owner_of_none p i hc) ?_, hok.elim⟩
    intro a ha
    rw [← Option.some.inj ha]
    exact ⟨rfl, rfl⟩
  | enable i en created =>
    obtain ⟨o, hi⟩ := Option.ne_none_iff_exists'.mp hc
    obtain ⟨err, o', t', hf, hk, herr, -⟩ := enable_spec o p.table (h.matches i o hi) en created
    obtain ⟨p', hcall, hheld, -⟩ := h.method wrapper p i o hi (fun o t => o.enable t en created) err o' t' hf hk
    refine ⟨err, p', hcall, hheld, ?_⟩
    intro hne
    obtain ⟨rfl, rfl⟩ := herr hne
    exact ⟨i, rfl⟩
  | acquireIfEnabled i =>
    obtain ⟨o, hi⟩ := Option.ne_none_iff_exists'.mp hc
    obtain ⟨o', t', hf, hk, -⟩ := acquireIfEnabled_spec o p.table (h.matches i o hi)
    obtain ⟨p', hcall, hheld, -⟩ := h.method wrapper p i o hi Object.acquireIfEnabled _ o' t' hf hk
    exact ⟨.ok, p', hcall, hheld, hok.elim⟩
  | release i =>
    obtain ⟨o, hi⟩ := Option.ne_none_iff_exists'.mp hc
    obtain ⟨o', t', hf, hk, -⟩ := release_spec o p.table (h.matches i o hi)
    obtain ⟨p', hcall, hheld, -⟩ := h.method wrapper p i o hi Object.release _ o' t' hf hk
    exact ⟨.ok, p', hcall, hheld, hok.elim⟩
  | moveConstruct i j =>
    obtain ⟨hnone, hsome⟩ := hc
    obtain ⟨o, hj⟩ := Option.ne_none_iff_exists'.mp hsome
    have hne : i ≠ j := by
      rintro rfl
      exact hsome hnone
    obtain ⟨p', hmove, hheld, -⟩ := h.transfer wrapper p Object.movedFrom (fun _ => ⟨rfl, rfl⟩) i j hne o hj
      (wrapper.owner_of_none p i hnone)
    refine ⟨.ok, p', ?_, hheld, hok.elim⟩
    rw [Pool.call, hmove]
    rfl
  | moveAssign i j =>
    by_cases hij : i = j
    · exact ⟨.ok, p, if_pos hij, h, hok.elim⟩
    · obtain ⟨o, hi⟩ := Option.ne_none_iff_exists'.mp hc.1
      obtain ⟨a, hj⟩ := Option.ne_none_iff_exists'.mp hc.2
      obtain ⟨p1, hcall, hheld1, hobjects, hold⟩ := disable_spec p h i o hi
      obtain ⟨p', hmove, hheld, -⟩ := hheld1.transfer wrapper p1 Object.movedFrom (fun _ => ⟨rfl, rfl⟩) i j hij a
        ((hobjects j (Ne.symm hij)).trans hj) hold
      refine ⟨.ok, p', ?_, hheld, hok.elim⟩
      rw [Pool.call, if_neg hij, hcall]
      change (p1.transfer Object.movedFrom i j).map _ = _
      rw [hmove]
      rfl
  | destroy i =>
    obtain ⟨o, hi⟩ := Option.ne_none_iff_exists'.mp hc
    obtain ⟨p1, hcall, hheld1, -, hold⟩ := disable_spec p h i o hi
    refine ⟨.ok, p1.set i none, ?_, hheld1.set wrapper p1 i none hold nofun, hok.elim⟩
    rw [Pool.call, hcall]
    rfl

/-- The system is held back from sleep, or at a frequency, exactly by the objects that say so. -/
theorem held_iff (lockType : LockType) :
    (∃ k l, p.table.get k = some l ∧ l.type = convertLockType lockType ∧ 0 < l.count) ↔
      ∃ i o, p.objects i = some o ∧ o.lockType = lockType ∧ o.acquired = true := by
  have hconvert (a b : LockType) (hab : convertLockType a = convertLockType b) : a = b := by
    cases a <;> cases b <;> first | rfl | cases hab
  have hagrees (i k : Nat) (o : Object) (ho : p.objects i = some o) (hk : o.handle = some k) :
      p.table.get k = some ⟨convertLockType o.lockType, o.acquired.toNat⟩ := by
    have hm := h.matches i o ho
    obtain ⟨handle, lockType, acquired⟩ := o
    obtain rfl : handle = some k := hk
    exact hm
  constructor
  · rintro ⟨k, l, hk, htype, hpos⟩
    obtain ⟨i, hi⟩ := h.owned.covered k (by rw [Handles.Live, hk]; rfl)
    obtain ⟨o, ho, hhandle⟩ := Option.bind_eq_some_iff.mp hi
    obtain rfl := Option.some.inj (hk.symm.trans (hagrees i k o ho hhandle))
    refine ⟨i, o, ho, hconvert _ _ htype, ?_⟩
    cases hacquired : o.acquired with
    | true => rfl
    | false =>
      rw [hacquired] at hpos
      cases hpos
  · rintro ⟨i, o, ho, rfl, hacquired⟩
    cases hhandle : o.handle with
    | none =>
      have hm := h.matches i o ho
      obtain ⟨handle, lockType, acquired⟩ := o
      obtain rfl : handle = none := hhandle
      cases Eq.trans (Eq.symm hm) hacquired
    | some k =>
      refine ⟨k, _, hagrees i k o ho hhandle, rfl, ?_⟩
      rw [hacquired]
      exact Nat.one_pos

end steps

theorem held_of_run (p : Pool) (run : Steps next Makes .empty p) : wrapper.Held p := by
  refine run.invariant _ _ wrapper.Held _ _ wrapper.held_empty ?_
  intro q c q' hq hc hn
  obtain ⟨err, q1, hcall, hheld, -⟩ := call_spec q hq c hc
  rw [next, hcall] at hn
  rw [← Option.some.inj hn]
  exact hheld

/-- However a program makes, moves and destroys its objects: no call uses a lock that is deleted, none but the
creation of a lock fails, the locks held are those of the objects that say so, and without objects no lock is
left. -/
theorem pool_sound (p : Pool) (run : Steps next Makes .empty p) :
    (∀ c, p.Makes c → ∃ err p', p.call c = some (err, p') ∧ (err ≠ .ok → ∃ i, c = .enable i true false)) ∧
      (∀ lockType, (∃ k l, p.table.get k = some l ∧ l.type = convertLockType lockType ∧ 0 < l.count) ↔
        ∃ i o, p.objects i = some o ∧ o.lockType = lockType ∧ o.acquired = true) ∧
      ((∀ i, p.objects i = none) → ∀ k, ¬ p.table.Live k) := by
  have hheld := held_of_run p run
  refine ⟨?_, held_iff p hheld, ?_⟩
  · intro c hc
    obtain ⟨err, p', hcall, -, herr⟩ := call_spec p hheld c hc
    exact ⟨err, p', hcall, herr⟩
  · exact hheld.none_live wrapper p

/-- The lock that a task's model has is this one: among all the objects of a program, what the system holds for
it and what its member functions do are as that model says. -/
theorem lock_refines (p : Pool) (run : Steps next Makes .empty p) (i : Nat) (o : Object)
    (hi : p.objects i = some o) :
    (o.shown.held = match o.handle with
      | none => 0
      | some h => ((p.table.get h).map fun l => (l.count : Int)).getD 0) ∧
    (∀ en created, ∃ err p' o', p.call (.enable i en created) = some (err, p') ∧ p'.objects i = some o' ∧
      o'.shown = o.shown.enable en created) ∧
    (∃ p' o', p.call (.acquireIfEnabled i) = some (.ok, p') ∧ p'.objects i = some o' ∧
      o'.shown = o.shown.acquireIfEnabled) ∧
    ∃ p' o', p.call (.release i) = some (.ok, p') ∧ p'.objects i = some o' ∧ o'.shown = o.shown.release := by
  have hheld := held_of_run p run
  have hm := hheld.matches i o hi
  refine ⟨shown_held o p.table hm, ?_, ?_, ?_⟩
  · intro en created
    obtain ⟨err, o', t', hf, hk, -, -, hshown⟩ := enable_spec o p.table hm en created
    obtain ⟨p', hcall, -, hobjects, -⟩ :=
      hheld.method wrapper p i o hi (fun o t => o.enable t en created) err o' t' hf hk
    exact ⟨err, p', o', hcall, by rw [hobjects, Function.update_self], hshown⟩
  · obtain ⟨o', t', hf, hk, hshown⟩ := acquireIfEnabled_spec o p.table hm
    obtain ⟨p', hcall, -, hobjects, -⟩ := hheld.method wrapper p i o hi Object.acquireIfEnabled _ o' t' hf hk
    exact ⟨p', o', hcall, by rw [hobjects, Function.update_self], hshown⟩
  · obtain ⟨o', t', hf, hk, hshown⟩ := release_spec o p.table hm
    obtain ⟨p', hcall, -, hobjects, -⟩ := hheld.method wrapper p i o hi Object.release _ o' t' hf hk
    exact ⟨p', o', hcall, by rw [hobjects, Function.update_self], hshown⟩

/-- Two objects; the lock of the first is acquired and then moved over the one of the second. -/
def moved : List Call :=
  [.construct 0 .noLightSleep, .construct 1 .apbFreqMax, .enable 0 true true, .enable 1 true true,
    .acquireIfEnabled 0, .acquireIfEnabled 1, .moveAssign 1 0, .destroy 0]

theorem pool_sound_moved : ∃ p, exec (guarded next Makes) .empty moved = some p ∧
    ∃ k l, p.table.get k = some l ∧ l.type = .noLightSleep ∧ 0 < l.count := by
  have hrun : (exec (guarded next Makes) .empty moved).any
      (fun p => p.objects 1 = some ⟨some 0, .noLightSleep, true⟩) = true := by decide
  obtain ⟨p, hp, hobject⟩ := (Option.any_eq_true _ _).mp hrun
  obtain ⟨-, hheld, -⟩ := pool_sound p (steps_of_guarded _ _ _ _ _ hp)
  exact ⟨p, hp, (hheld .noLightSleep).mpr ⟨1, _, of_decide_eq_true hobject, rfl, rfl⟩⟩

theorem lock_refines_moved : ∃ p o, exec (guarded next Makes) .empty moved = some p ∧ p.objects 1 = some o ∧
    o.shown.held = 1 ∧ ∃ p' o', p.call (.release 1) = some (.ok, p') ∧ p'.objects 1 = some o' ∧
      o'.shown = o.shown.release := by
  have hrun : (exec (guarded next Makes) .empty moved).any
      (fun p => p.objects 1 = some ⟨some 0, .noLightSleep, true⟩) = true := by decide
  obtain ⟨p, hp, hobject⟩ := (Option.any_eq_true _ _).mp hrun
  have hone := of_decide_eq_true hobject
  obtain ⟨-, -, -, hrelease⟩ := lock_refines p (steps_of_guarded _ _ _ _ _ hp) 1 _ hone
  exact ⟨p, _, hp, hone, rfl, hrelease⟩

end Pool

end Espbase.PmLock
