import Espbase.Lib.Handles

namespace Espbase.Lib

/-- Objects of type `ω`, each of which may hold a handle of something of type `α`. -/
structure Wrapper (ω α : Type) where
  handle : ω → Option Nat
  /-- what the object says of the thing that it holds -/
  agrees : ω → Option α → Prop

/-- The objects of a program, and what their handles stand for. -/
structure Wrapped (ω α : Type) where
  table : Handles α
  objects : Nat → Option ω

namespace Wrapped
variable {ω α ε : Type}

def empty : Wrapped ω α := ⟨.empty, fun _ => none⟩

def set (p : Wrapped ω α) (i : Nat) (o : Option ω) : Wrapped ω α :=
  { p with objects := Function.update p.objects i o }

/-- A member function of the `i`th object. -/
def method (p : Wrapped ω α) (i : Nat) (f : ω → Handles α → Option (ε × ω × Handles α)) :
    Option (ε × Wrapped ω α) := do
  let o ← p.objects i
  let (result, o, t) ← f o p.table
  some (result, ⟨t, Function.update p.objects i (some o)⟩)

/-- The `i`th object takes over what the `j`th one has. -/
def transfer (p : Wrapped ω α) (movedFrom : ω → ω) (i j : Nat) : Option (Wrapped ω α) := do
  let o ← p.objects j
  some ((p.set i (some o)).set j (some (movedFrom o)))

end Wrapped

namespace Wrapper
variable {ω α ε : Type} (w : Wrapper ω α)

/-- The object agrees with what its handle stands for. -/
def Matches (t : Handles α) (o : ω) : Prop := w.agrees o ((w.handle o).bind t.get)

/-- What a member function may do with an object and its handle. -/
structure Keeps (o : ω) (t : Handles α) (o' : ω) (t' : Handles α) : Prop where
  «matches» : w.Matches t' o'
  /-- what others hold is as it was -/
  frame : ∀ h, w.handle o ≠ some h → t.Live h → t'.get h = t.get h
  owned : ∀ (owner : Nat → Option Nat) (i : Nat), owner i = w.handle o → Handles.Owned owner t →
    Handles.Owned (Function.update owner i (w.handle o')) t'

section keeps
variable (o o' : ω) (t : Handles α)

theorem keeps_refl (hh : w.handle o' = w.handle o) (hm : w.Matches t o') : w.Keeps o t o' t := by
  refine ⟨hm, fun _ _ _ => rfl, ?_⟩
  intro owner i hi hw
  rwa [hh, ← hi, Function.update_eq_self]

theorem keeps_modify (h : Nat) (f : α → α) (hh : w.handle o = some h) (hh' : w.handle o' = some h)
    (ha : w.agrees o' ((t.get h).map f)) : w.Keeps o t o' (t.modify h f) := by
  refine ⟨?_, ?_, ?_⟩
  · rw [Matches, hh', Option.bind_some, t.get_modify_self]
    exact ha
  · intro h' hne _
    rw [t.get_modify_of_ne h h' f]
    rintro rfl
    exact hne hh
  · intro owner i hi hw
    rw [hh', ← hh, ← hi, Function.update_eq_self]
    exact hw.modify owner t h f

theorem keeps_delete (h : Nat) (hh : w.handle o = some h) (hh' : w.handle o' = none) (ha : w.agrees o' none) :
    w.Keeps o t o' (t.delete h) := by
  refine ⟨?_, ?_, ?_⟩
  · rw [Matches, hh']
    exact ha
  · intro h' hne _
    rw [t.get_delete_of_ne h h']
    rintro rfl
    exact hne hh
  · intro owner i hi hw
    rw [hh']
    exact hw.delete owner t i h (hi.trans hh)

theorem keeps_create (a : α) (hh : w.handle o = none) (hh' : w.handle o' = some t.fresh)
    (ha : w.agrees o' (some a)) : w.Keeps o t o' (t.create a) := by
  refine ⟨?_, ?_, ?_⟩
  · rw [Matches, hh', Option.bind_some, t.get_create_fresh]
    exact ha
  · intro h' _ hlive
    rw [t.get_create_of_ne a h']
    rintro rfl
    exact t.not_live_fresh hlive
  · intro owner i hi hw
    rw [hh']
    exact hw.create owner t i a (hi.trans hh)

/-- Two member functions one after the other, where the first one gets no new handle. -/
theorem Keeps.trans (o₁ o₂ : ω) (t₁ t₂ : Handles α) (h₁ : w.Keeps o t o₁ t₁) (h₂ : w.Keeps o₁ t₁ o₂ t₂)
    (hh : w.handle o₁ = none ∨ w.handle o₁ = w.handle o) : w.Keeps o t o₂ t₂ := by
  refine ⟨h₂.matches, ?_, ?_⟩
  · intro h hne hlive
    have hfirst := h₁.frame h hne hlive
    have hother : w.handle o₁ ≠ some h := by
      rcases hh with hnone | hsame
      · rw [hnone]
        nofun
      · rwa [hsame]
    rw [h₂.frame h hother (by rw [Handles.Live, hfirst]; exact hlive), hfirst]
  · intro owner i hi hw
    have hsecond := h₂.owned _ i (Function.update_self ..) (h₁.owned owner i hi hw)
    rwa [Function.update_idem] at hsecond

end keeps

/-- The handle of an object. -/
def owner (p : Wrapped ω α) (i : Nat) : Option Nat := (p.objects i).bind w.handle

theorem owner_of_none (p : Wrapped ω α) (i : Nat) (h : p.objects i = none) : w.owner p i = none := by
  rw [owner, h]
  rfl

theorem owner_of_some (p : Wrapped ω α) (i : Nat) (o : ω) (h : p.objects i = some o) :
    w.owner p i = w.handle o := by
  rw [owner, h]
  rfl

theorem owner_update (p : Wrapped ω α) (t : Handles α) (i : Nat) (o : Option ω) :
    w.owner ⟨t, Function.update p.objects i o⟩ = Function.update (w.owner p) i (o.bind w.handle) := by
  funext k
  change (Function.update p.objects i o k).bind w.handle = _
  by_cases hk : k = i
  · subst hk
    rw [Function.update_self, Function.update_self]
  · rw [Function.update_of_ne hk, Function.update_of_ne hk, owner]

/-- Every handle is held by one object, which agrees with what it stands for. -/
structure Held (p : Wrapped ω α) : Prop where
  owned : Handles.Owned (w.owner p) p.table
  «matches» : ∀ i o, p.objects i = some o → w.Matches p.table o

theorem held_empty : w.Held .empty := ⟨.empty, nofun⟩

/-- The objects without their handles: each with what its handle stands for. -/
def view (p : Wrapped ω α) (i : Nat) : Option (Option α) := (p.objects i).map fun o => (w.handle o).bind p.table.get

theorem view_of_some (p : Wrapped ω α) (i : Nat) (o : ω) (h : p.objects i = some o) :
    w.view p i = some ((w.handle o).bind p.table.get) := by
  rw [view, h]
  rfl

/-- An object that comes or goes without a handle is seen as one that holds nothing. -/
theorem view_set (p : Wrapped ω α) (i : Nat) (o : Option ω) (hnew : ∀ a, o = some a → w.handle a = none) :
    w.view (p.set i o) = Function.update (w.view p) i (o.map fun _ => none) := by
  funext k
  change (Function.update p.objects i o k).map _ = _
  by_cases hk : k = i
  · subst hk
    rw [Function.update_self, Function.update_self]
    cases o with
    | none => rfl
    | some a =>
      rw [Option.map_some, Option.map_some, hnew a rfl]
      rfl
  · rw [Function.update_of_ne hk, Function.update_of_ne hk, view]
    rfl

/-- A move is seen as one of what is held. -/
theorem view_transfer (p : Wrapped ω α) (movedFrom : ω → ω) (hmoved : ∀ o, w.handle (movedFrom o) = none)
    (i j : Nat) (o : ω) (hj : p.objects j = some o) :
    w.view ((p.set i (some o)).set j (some (movedFrom o))) =
      Function.update (Function.update (w.view p) i (w.view p j)) j (some none) := by
  funext k
  change (Function.update (Function.update p.objects i (some o)) j (some (movedFrom o)) k).map _ = _
  by_cases hkj : k = j
  · subst hkj
    rw [Function.update_self, Function.update_self, Option.map_some, hmoved]
    rfl
  · rw [Function.update_of_ne hkj, Function.update_of_ne hkj]
    by_cases hki : k = i
    · subst hki
      rw [Function.update_self, Function.update_self, w.view_of_some p j o hj]
      rfl
    · rw [Function.update_of_ne hki, Function.update_of_ne hki, view]
      rfl

namespace Held
variable (p : Wrapped ω α) (h : w.Held p)
include h

/-- Without objects nothing is left. -/
theorem none_live (hn : ∀ i, p.objects i = none) (k : Nat) : ¬ p.table.Live k :=
  h.owned.none_live _ _ (fun i => w.owner_of_none p i (hn i)) k

/-- What is there belongs to one object, and nothing is there without objects. -/
theorem exclusive : (∀ k, p.table.Live k → ∃! i, w.owner p i = some k) ∧
    ((∀ i, w.view p i = none) → ∀ k, ¬ p.table.Live k) := by
  refine ⟨?_, ?_⟩
  · intro k hlive
    obtain ⟨i, hi⟩ := h.owned.covered k hlive
    exact ⟨i, hi, fun j hj => h.owned.unique j i k hj hi⟩
  · intro hnone
    exact h.none_live w p fun i => Option.map_eq_none_iff.mp (hnone i)

/-- Objects without a handle may come and go. -/
theorem set (i : Nat) (o : Option ω) (hold : w.owner p i = none)
    (hnew : ∀ a, o = some a → w.handle a = none ∧ w.agrees a none) : w.Held (p.set i o) := by
  have hnone : o.bind w.handle = none := by
    cases o with
    | none => rfl
    | some a => exact (hnew a rfl).1
  refine ⟨?_, ?_⟩
  · rw [Wrapped.set, owner_update, hnone, ← hold, Function.update_eq_self]
    exact h.owned
  · intro j a hj
    change Function.update p.objects i o j = some a at hj
    by_cases hji : j = i
    · subst hji
      rw [Function.update_self] at hj
      obtain ⟨hhandle, hagrees⟩ := hnew a hj
      rw [Matches, hhandle]
      exact hagrees
    · rw [Function.update_of_ne hji] at hj
      exact h.matches j a hj

/-- A member function is seen at its object only. -/
theorem view_method (i : Nat) (o : ω) (hi : p.objects i = some o) (o' : ω) (t' : Handles α)
    (hk : w.Keeps o p.table o' t') :
    w.view ⟨t', Function.update p.objects i (some o')⟩ =
      Function.update (w.view p) i (some ((w.handle o').bind t'.get)) := by
  funext k
  change (Function.update p.objects i (some o') k).map _ = _
  by_cases hki : k = i
  · subst hki
    rw [Function.update_self, Function.update_self]
    rfl
  · rw [Function.update_of_ne hki, Function.update_of_ne hki, view]
    cases hobject : p.objects k with
    | none => rfl
    | some a =>
      have howner := w.owner_of_some p k a hobject
      rw [Option.map_some, Option.map_some]
      cases ha : w.handle a with
      | none => rfl
      | some j =>
        rw [ha] at howner
        have hne : w.handle o ≠ some j := by
          intro hij
          exact hki (h.owned.unique k i j howner ((w.owner_of_some p i o hi).trans hij))
        rw [Option.bind_some, Option.bind_some, hk.frame j hne (h.owned.live k j howner)]

/-- The other objects do not notice what a member function does. -/
theorem keeps (i : Nat) (o : ω) (hi : p.objects i = some o) (o' : ω) (t' : Handles α)
    (hk : w.Keeps o p.table o' t') : w.Held ⟨t', Function.update p.objects i (some o')⟩ := by
  have howner := w.owner_of_some p i o hi
  refine ⟨?_, ?_⟩
  · rw [owner_update]
    exact hk.owned (w.owner p) i howner h.owned
  · intro j a hj
    change Function.update p.objects i (some o') j = some a at hj
    by_cases hji : j = i
    · subst hji
      rw [Function.update_self] at hj
      rw [← Option.some.inj hj]
      exact hk.matches
    · rw [Function.update_of_ne hji] at hj
      have hm := h.matches j a hj
      have hjowner := w.owner_of_some p j a hj
      cases ha : w.handle a with
      | none =>
        rw [Matches, ha] at hm ⊢
        exact hm
      | some k =>
        rw [ha] at hjowner
        have hne : w.handle o ≠ some k := by
          intro hik
          exact hji (h.owned.unique j i k hjowner (howner.trans hik))
        rw [Matches, ha, Option.bind_some] at hm ⊢
        rw [hk.frame k hne (h.owned.live j k hjowner)]
        exact hm

theorem method (i : Nat) (o : ω) (hi : p.objects i = some o)
    (f : ω → Handles α → Option (ε × ω × Handles α)) (result : ε) (o' : ω) (t' : Handles α)
    (hf : f o p.table = some (result, o', t')) (hk : w.Keeps o p.table o' t') :
    ∃ p', p.method i f = some (result, p') ∧ w.Held p' ∧ p'.objects = Function.update p.objects i (some o') ∧
      w.view p' = Function.update (w.view p) i (some ((w.handle o').bind t'.get)) := by
  refine ⟨⟨t', Function.update p.objects i (some o')⟩, ?_, h.keeps w p i o hi o' t' hk, rfl,
    h.view_method w p i o hi o' t' hk⟩
  simp only [Wrapped.method, hi, hf, Option.bind_eq_bind, Option.bind_some]

/-- The object that takes over holds nothing before. -/
theorem transfer (movedFrom : ω → ω) (hmoved : ∀ o, w.handle (movedFrom o) = none ∧ w.agrees (movedFrom o) none)
    (i j : Nat) (hne : i ≠ j) (o : ω) (hj : p.objects j = some o) (hold : w.owner p i = none) :
    ∃ p', p.transfer movedFrom i j = some p' ∧ w.Held p' ∧
      w.view p' = Function.update (Function.update (w.view p) i (w.view p j)) j (some none) := by
  obtain ⟨hhandle, hagrees⟩ := hmoved o
  refine ⟨(p.set i (some o)).set j (some (movedFrom o)), ?_, ⟨?_, ?_⟩,
    w.view_transfer p movedFrom (fun o => (hmoved o).1) i j o hj⟩
  · rw [Wrapped.transfer, hj]
    rfl
  · have hfirst : w.owner (p.set i (some o)) = Function.update (w.owner p) i (w.owner p j) := by
      rw [w.owner_of_some p j o hj]
      exact w.owner_update p p.table i (some o)
    have hboth : w.owner ((p.set i (some o)).set j (some (movedFrom o))) =
        Function.update (w.owner (p.set i (some o))) j none := by
      rw [← hhandle]
      exact w.owner_update (p.set i (some o)) p.table j (some (movedFrom o))
    rw [hboth, hfirst]
    exact h.owned.move _ _ j i hold
  · intro k a hk
    change Function.update (Function.update p.objects i (some o)) j (some (movedFrom o)) k = some a at hk
    by_cases hkj : k = j
    · subst hkj
      rw [Function.update_self] at hk
      rw [← Option.some.inj hk, Matches, hhandle]
      exact hagrees
    · rw [Function.update_of_ne hkj] at hk
      by_cases hki : k = i
      · subst hki
        rw [Function.update_self] at hk
        rw [← Option.some.inj hk]
        exact h.matches j o hj
      · rw [Function.update_of_ne hki] at hk
        exact h.matches k a hk

end Held

end Wrapper

end Espbase.Lib
