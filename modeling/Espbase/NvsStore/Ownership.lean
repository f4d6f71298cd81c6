import Espbase.Lib.Bytes
import Espbase.Lib.Simulation
import Espbase.Lib.Wrappers
import Espbase.NvsStore.EspResult

namespace Espbase.NvsStore

open Espbase.Lib

inductive OpenMode where
  | readOnly
  | readWrite
  | readWritePurge
  deriving DecidableEq

/-- What `nvs_open` has opened. -/
structure Opened where
  namespaceName : Bytes
  mode : OpenMode
  deriving DecidableEq

/-- A store; it has no handle where `handle_` is 0. -/
structure Object where
  handle : Option Nat
  deriving DecidableEq

/-- The stores of a program. -/
abbrev Stores := Wrapped Object Opened

inductive Call where
  /-- `open`, whose result is in `i`; `err` is the one of `nvs_open` -/
  | «open» (i : Nat) (opened : Opened) (err : EspErr)
  | close (i : Nat)
  /-- a function that reads, writes or commits; `err` is the one of the function that it calls -/
  | access (i : Nat) (err : EspErr)
  /-- `i` is constructed from `j` -/
  | moveConstruct (i j : Nat)
  /-- `i` is assigned from `j` -/
  | moveAssign (i j : Nat)
  | destroy (i : Nat)
  deriving DecidableEq

namespace Object

/-- `nvs_close` passes over a handle that is not open. -/
def close (o : Object) (t : Handles Opened) : Option (EspErr × Object × Handles Opened) :=
  match o.handle with
  | none => some (espOk, o, t)
  | some h => some (espOk, ⟨none⟩, t.delete h)

def access (err : EspErr) (o : Object) (t : Handles Opened) : Option (EspErr × Object × Handles Opened) :=
  match o.handle with
  | none => some (espErrInvalidState, o, t)
  | some h => some (if t.Live h then err else espErrNvsInvalidHandle, o, t)

def movedFrom (_ : Object) : Object := ⟨none⟩

end Object

namespace Stores

def call (p : Stores) : Call → Option (EspErr × Stores)
  | .open i opened err =>
    if err = espOk then some (err, ⟨p.table.create opened, Function.update p.objects i (some ⟨some p.table.fresh⟩)⟩)
    else some ((EspResult.fail err : EspResult Object).err, p)
  | .close i => p.method i Object.close
  | .access i err => p.method i (Object.access err)
  | .moveConstruct i j => (p.transfer Object.movedFrom i j).map fun p => (espOk, p)
  | .moveAssign i j =>
    if i = j then some (espOk, p)
    else do
      let (_, p) ← p.method i Object.close
      (p.transfer Object.movedFrom i j).map fun p => (espOk, p)
  | .destroy i => do
    let (err, p) ← p.method i Object.close
    some (err, p.set i none)

end Stores

/-- What a store is for: it has an open namespace of its own, or none. -/
abbrev Namespaces := Nat → Option (Option Opened)

/-- The calls on stores that carry what they have opened. -/
def Namespaces.call (v : Namespaces) : Call → EspErr × Namespaces
  | .open i opened err =>
    if err = espOk then (espOk, Function.update v i (some (some opened))) else (err, v)
  | .close i => (espOk, Function.update v i (some none))
  | .access i err => (if v i = some none then espErrInvalidState else err, v)
  | .moveConstruct i j => (espOk, Function.update (Function.update v i (v j)) j (some none))
  | .moveAssign i j =>
    if i = j then (espOk, v) else (espOk, Function.update (Function.update v i (v j)) j (some none))
  | .destroy i => (espOk, Function.update v i none)

/-- The stores of a call exist, and one that it makes does not. -/
def Namespaces.Makes (v : Namespaces) : Call → Prop
  | .open i _ _ => v i = none
  | .close i => v i ≠ none
  | .access i _ => v i ≠ none
  | .moveConstruct i j => v i = none ∧ v j ≠ none
  | .moveAssign i j => v i ≠ none ∧ v j ≠ none
  | .destroy i => v i ≠ none

def Object.agrees (o : Object) (opened : Option Opened) : Prop := o.handle.isSome = opened.isSome

def wrapper : Wrapper Object Opened := ⟨Object.handle, Object.agrees⟩

section calls
variable (o : Object) (t : Handles Opened)

theorem close_spec (hm : wrapper.Matches t o) :
    ∃ o' t', o.close t = some (espOk, o', t') ∧ wrapper.Keeps o t o' t' ∧ o'.handle = none := by
  obtain ⟨handle⟩ := o
  cases handle with
  | none => exact ⟨_, _, rfl, wrapper.keeps_refl _ _ t rfl hm, rfl⟩
  | some h => exact ⟨⟨none⟩, _, rfl, wrapper.keeps_delete _ _ t h rfl rfl rfl, rfl⟩

/-- A store with a handle has something open behind it. -/
theorem access_spec (hm : wrapper.Matches t o) (err : EspErr) :
    o.access err t = some (if (wrapper.handle o).bind t.get = none then espErrInvalidState else err, o, t) := by
  obtain ⟨handle⟩ := o
  cases handle with
  | none => rfl
  | some h =>
    have hlive : t.Live h := Eq.symm hm
    have hsome : t.get h ≠ none := Option.isSome_iff_ne_none.mp hlive
    change some (if t.Live h then err else _, _, _) = some (if t.get h = none then _ else err, _, _)
    rw [if_pos hlive, if_neg hsome]

end calls

namespace Stores

section steps
variable (p : Stores) (h : wrapper.Held p)
include h

/-- A store is closed before it is assigned to or destroyed. -/
theorem close_view (i : Nat) (o : Object) (hi : p.objects i = some o) :
    ∃ p' : Stores, p.method i Object.close = some (espOk, p') ∧ wrapper.Held p' ∧
      (∀ j, j ≠ i → p'.objects j = p.objects j) ∧ wrapper.owner p' i = none ∧
      wrapper.view p' = Function.update (wrapper.view p) i (some none) := by
  obtain ⟨o', t', hf, hk, hnone⟩ := close_spec o p.table (h.matches i o hi)
  obtain ⟨p', hcall, hheld, hobjects, hview⟩ := h.method wrapper p i o hi Object.close espOk o' t' hf hk
  have hhandle : wrapper.handle o' = none := hnone
  rw [hhandle] at hview
  refine ⟨p', hcall, hheld, ?_, ?_, hview⟩
  · intro j hj
    rw [hobjects, Function.update_of_ne hj]
  · rw [wrapper.owner_of_some p' i o' (by rw [hobjects, Function.update_self])]
    exact hnone

/-- A call on the stores is one on what they have opened. -/
theorem call_view (c : Call) (hc : Namespaces.Makes (wrapper.view p) c) :
    ∃ p', p.call c = some ((Namespaces.call (wrapper.view p) c).1, p') ∧ wrapper.Held p' ∧
      wrapper.view p' = (Namespaces.call (wrapper.view p) c).2 := by
  have hexists (i : Nat) (hi : wrapper.view p i ≠ none) : ∃ o, p.objects i = some o :=
    Option.ne_none_iff_exists'.mp fun hnone => hi (Option.map_eq_none_iff.mpr hnone)
  have hfree (i : Nat) (hi : wrapper.view p i = none) : wrapper.owner p i = none :=
    wrapper.owner_of_none p i (Option.map_eq_none_iff.mp hi)
  cases c with
  | «open» i opened err =>
    by_cases hok : err = espOk
    · have hnone : wrapper.owner p i = none := hfree i hc
      have hempty : wrapper.Held (p.set i (some ⟨none⟩)) := h.set wrapper p i _ hnone (by
        intro a ha
        rw [← Option.some.inj ha]
        exact ⟨rfl, rfl⟩)
      have hcreate : wrapper.Keeps ⟨none⟩ p.table ⟨some p.table.fresh⟩ (p.table.create opened) :=
        wrapper.keeps_create _ _ p.table opened rfl rfl rfl
      have hself : (p.set i (some ⟨none⟩)).objects i = some ⟨none⟩ := Function.update_self ..
      have hobjects : Function.update (p.set i (some ⟨none⟩)).objects i (some ⟨some p.table.fresh⟩) =
          Function.update p.objects i (some ⟨some p.table.fresh⟩) := Function.update_idem ..
      have hheld := hempty.keeps wrapper (p.set i (some ⟨none⟩)) i ⟨none⟩ hself _ _ hcreate
      have hview := hempty.view_method wrapper (p.set i (some ⟨none⟩)) i ⟨none⟩ hself _ _ hcreate
      rw [hobjects] at hheld hview
      refine ⟨_, ?_, hheld, ?_⟩
      · rw [Stores.call, if_pos hok, Namespaces.call, if_pos hok, hok]
      · have hget : (wrapper.handle ⟨some p.table.fresh⟩).bind (p.table.create opened).get = some opened :=
          p.table.get_create_fresh opened
        rw [hview, hget, wrapper.view_set p i _ (by intro a ha; rw [← Option.some.inj ha]; rfl),
          Function.update_idem, Namespaces.call, if_pos hok]
    · have herr : EspResult.failErr err = err := if_neg hok
      refine ⟨p, ?_, h, ?_⟩
      · rw [Stores.call, if_neg hok, Namespaces.call, if_neg hok]
        change some (EspResult.failErr err, p) = _
        rw [herr]
      · rw [Namespaces.call, if_neg hok]
  | close i =>
    obtain ⟨o, hi⟩ := hexists i hc
    obtain ⟨p', hcall, hheld, -, -, hview⟩ := close_view p h i o hi
    exact ⟨p', hcall, hheld, hview⟩
  | access i err =>
    obtain ⟨o, hi⟩ := hexists i hc
    have hf := access_spec o p.table (h.matches i o hi) err
    obtain ⟨p', hcall, hheld, -, hview⟩ := h.method wrapper p i o hi (Object.access err) _ o p.table hf
      (wrapper.keeps_refl o o p.table rfl (h.matches i o hi))
    have hsame := wrapper.view_of_some p i o hi
    refine ⟨p', ?_, hheld, ?_⟩
    · rw [Stores.call, hcall, Namespaces.call, hsame]
      simp only [Option.some.injEq]
    · rw [hview, ← hsame, Function.update_eq_self]
      rfl
  | moveConstruct i j =>
    obtain ⟨hnone, hsome⟩ := hc
    obtain ⟨o, hj⟩ := hexists j hsome
    have hne : i ≠ j := by
      rintro rfl
      exact hsome hnone
    obtain ⟨p', hmove, hheld, hview⟩ := h.transfer wrapper p Object.movedFrom (fun _ => ⟨rfl, rfl⟩) i j hne o hj
      (hfree i hnone)
    refine ⟨p', ?_, hheld, hview⟩
    rw [Stores.call, hmove]
    rfl
  | moveAssign i j =>
    by_cases hij : i = j
    · refine ⟨p, ?_, h, ?_⟩
      · rw [Stores.call, if_pos hij, Namespaces.call, if_pos hij]
      · rw [Namespaces.call, if_pos hij]
    · obtain ⟨o, hi⟩ := hexists i hc.1
      obtain ⟨a, hj⟩ := hexists j hc.2
      obtain ⟨p1, hcall, hheld1, hobjects, hold, hview1⟩ := close_view p h i o hi
      obtain ⟨p', hmove, hheld, hview⟩ := hheld1.transfer wrapper p1 Object.movedFrom (fun _ => ⟨rfl, rfl⟩) i j hij
        a ((hobjects j (Ne.symm hij)).trans hj) hold
      refine ⟨p', ?_, hheld, ?_⟩
      · rw [Stores.call, if_neg hij, hcall, Namespaces.call, if_neg hij]
        change (p1.transfer Object.movedFrom i j).map _ = _
        rw [hmove]
        rfl
      · rw [hview, hview1, Namespaces.call, if_neg hij, Function.update_idem, Function.update_of_ne (Ne.symm hij)]
  | destroy i =>
    obtain ⟨o, hi⟩ := hexists i hc
    obtain ⟨p1, hcall, hheld1, -, hold, hview⟩ := close_view p h i o hi
    refine ⟨p1.set i none, ?_, hheld1.set wrapper p1 i none hold nofun, ?_⟩
    · rw [Stores.call, hcall]
      rfl
    · rw [wrapper.view_set p1 i none nofun, hview, Function.update_idem]
      rfl

end steps

/-- However a program opens, moves and closes its stores, they behave as if each carried what it has opened:
nothing is opened twice over, used after it was closed, or left open. -/
theorem stores_refine (cs : List Call) (hcs : MakesAll Namespaces.call Namespaces.Makes (fun _ => none) cs) :
    ∃ p, runs Stores.call .empty cs = some ((answers Namespaces.call (fun _ => none) cs).1, p) ∧
      wrapper.view p = (answers Namespaces.call (fun _ => none) cs).2 ∧
      (∀ k, p.table.Live k → ∃! i, wrapper.owner p i = some k) ∧
      ((∀ i, (answers Namespaces.call (fun _ => none) cs).2 i = none) → ∀ k, ¬ p.table.Live k) := by
  obtain ⟨p, hcalls, hheld, hview⟩ := runs_view Stores.call Namespaces.call Namespaces.Makes wrapper.view
    wrapper.Held (fun p c hheld hc => call_view p hheld c hc) .empty wrapper.held_empty cs hcs
  obtain ⟨hone, hgone⟩ := hheld.exclusive wrapper p
  rw [hview] at hgone
  exact ⟨p, hcalls, hview, hone, hgone⟩

/-- A store is moved over another one; the one it was moved from answers with an error. -/
def movedOver : List Call :=
  [.open 0 ⟨[97], .readWrite⟩ espOk, .open 1 ⟨[98], .readOnly⟩ espOk, .moveAssign 1 0, .access 0 espOk,
    .access 1 espOk, .destroy 1, .destroy 0]

theorem stores_refine_movedOver : ∃ p, runs Stores.call .empty movedOver =
    some ([espOk, espOk, espOk, espErrInvalidState, espOk, espOk, espOk], p) ∧ ∀ k, ¬ p.table.Live k := by
  obtain ⟨p, hcalls, -, -, hgone⟩ := stores_refine movedOver
    ⟨rfl, rfl, ⟨nofun, nofun⟩, nofun, nofun, nofun, nofun, trivial⟩
  refine ⟨p, hcalls, hgone ?_⟩
  intro i
  by_cases h0 : i = 0
  · rw [h0]
    rfl
  · by_cases h1 : i = 1
    · rw [h1]
      rfl
    · simp [movedOver, answers, Namespaces.call, h0, h1]

end Stores

end Espbase.NvsStore
