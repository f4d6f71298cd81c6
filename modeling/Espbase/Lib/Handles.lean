import Mathlib.Logic.Function.Basic
import Mathlib.Tactic.SplitIfs

namespace Espbase.Lib

/-- The objects that an interface has created. A handle is the place of its object, and is not given out again
once the object is deleted. -/
structure Handles (α : Type) where
  cells : List (Option α)
  deriving DecidableEq

namespace Handles
variable {α : Type}

def empty : Handles α := ⟨[]⟩

/-- The handle of the next object. -/
def fresh (t : Handles α) : Nat := t.cells.length

def create (t : Handles α) (a : α) : Handles α := ⟨t.cells ++ [some a]⟩

def get (t : Handles α) (h : Nat) : Option α := t.cells[h]?.join

def modify (t : Handles α) (h : Nat) (f : α → α) : Handles α := ⟨t.cells.modify h (Option.map f)⟩

def delete (t : Handles α) (h : Nat) : Handles α := ⟨t.cells.set h none⟩

/-- The object exists. -/
def Live (t : Handles α) (h : Nat) : Prop := (t.get h).isSome = true

instance (t : Handles α) (h : Nat) : Decidable (t.Live h) := inferInstanceAs (Decidable (_ = true))

section get
variable (t : Handles α)

@[simp] theorem get_empty (h : Nat) : (empty : Handles α).get h = none := rfl

@[simp] theorem get_create_fresh (a : α) : (t.create a).get t.fresh = some a := by
  simp [get, create, fresh]

theorem get_create_of_ne (a : α) (h : Nat) (hne : h ≠ t.fresh) : (t.create a).get h = t.get h := by
  unfold get create
  rcases Nat.lt_or_gt_of_ne hne with hlt | hgt
  · rw [List.getElem?_append_left hlt]
  · have hlen : t.cells.length < h := hgt
    rw [List.getElem?_eq_none (by simp; omega), List.getElem?_eq_none (by omega)]

@[simp] theorem get_fresh : t.get t.fresh = none := by
  rw [get, fresh, List.getElem?_eq_none (Nat.le_refl _)]
  rfl

@[simp] theorem get_modify_self (h : Nat) (f : α → α) : (t.modify h f).get h = (t.get h).map f := by
  rw [get, modify, List.getElem?_modify_eq, get]
  cases t.cells[h]? <;> rfl

theorem get_modify_of_ne (h h' : Nat) (f : α → α) (hne : h' ≠ h) : (t.modify h f).get h' = t.get h' := by
  rw [get, modify, List.getElem?_modify_ne _ _ hne.symm]
  rfl

@[simp] theorem get_delete_self (h : Nat) : (t.delete h).get h = none := by
  rw [get, delete, List.getElem?_set, if_pos rfl]
  split_ifs <;> rfl

theorem get_delete_of_ne (h h' : Nat) (hne : h' ≠ h) : (t.delete h).get h' = t.get h' := by
  rw [get, delete, List.getElem?_set_ne hne.symm]
  rfl

/-- What becomes of an object before it is deleted does not matter. -/
@[simp] theorem delete_modify (h : Nat) (f : α → α) : (t.modify h f).delete h = t.delete h := by
  unfold delete modify
  congr 1
  apply List.ext_getElem?
  intro i
  by_cases hi : h = i
  · subst hi
    simp [List.getElem?_set]
  · rw [List.getElem?_set_ne hi, List.getElem?_set_ne hi, List.getElem?_modify_ne _ _ hi]

end get

section live
variable (t : Handles α)

theorem live_get (h : Nat) (hl : t.Live h) : ∃ a, t.get h = some a := Option.isSome_iff_exists.mp hl

theorem not_live_empty (h : Nat) : ¬ (empty : Handles α).Live h := nofun

theorem not_live_fresh : ¬ t.Live t.fresh := by
  rw [Live, get_fresh]
  nofun

theorem live_create (a : α) (h : Nat) : (t.create a).Live h ↔ h = t.fresh ∨ t.Live h := by
  by_cases hne : h = t.fresh
  · subst hne
    simp [Live]
  · rw [Live, t.get_create_of_ne a h hne]
    exact ⟨.inr, fun hor => hor.resolve_left hne⟩

@[simp] theorem live_modify (h h' : Nat) (f : α → α) : (t.modify h f).Live h' ↔ t.Live h' := by
  by_cases hne : h' = h
  · subst hne
    simp [Live]
  · rw [Live, t.get_modify_of_ne h h' f hne]
    rfl

theorem live_delete (h h' : Nat) : (t.delete h).Live h' ↔ h' ≠ h ∧ t.Live h' := by
  by_cases hne : h' = h
  · subst hne
    simp [Live]
  · rw [Live, t.get_delete_of_ne h h' hne]
    exact ⟨fun hl => ⟨hne, hl⟩, fun hl => hl.2⟩

end live

section owned
variable {ι : Type}

/-- Each object that exists is held by exactly one owner, and an owner holds nothing else. -/
structure Owned (owner : ι → Option Nat) (t : Handles α) : Prop where
  live : ∀ i h, owner i = some h → t.Live h
  unique : ∀ i j h, owner i = some h → owner j = some h → i = j
  covered : ∀ h, t.Live h → ∃ i, owner i = some h

namespace Owned
variable (owner : ι → Option Nat) (t : Handles α) (hw : Owned owner t)

theorem empty : Owned (fun _ : ι => none) (.empty : Handles α) := ⟨nofun, nofun, nofun⟩

/-- With no owner left nothing exists. -/
theorem none_live (hw : Owned owner t) (hn : ∀ i, owner i = none) (h : Nat) : ¬ t.Live h := by
  intro hl
  obtain ⟨i, hi⟩ := hw.covered h hl
  rw [hn i] at hi
  cases hi

include hw

theorem modify (h : Nat) (f : α → α) : Owned owner (t.modify h f) :=
  ⟨fun i h' hi => (t.live_modify h h' f).mpr (hw.live i h' hi), hw.unique,
    fun h' hl => hw.covered h' ((t.live_modify h h' f).mp hl)⟩

variable [DecidableEq ι]

/-- An owner of nothing creates an object. -/
theorem create (i : ι) (a : α) (hi : owner i = none) :
    Owned (Function.update owner i (some t.fresh)) (t.create a) := by
  have hother (j : ι) (h : Nat) (hj : j ≠ i) (hh : owner j = some h) : h ≠ t.fresh := by
    rintro rfl
    exact t.not_live_fresh (hw.live j _ hh)
  refine ⟨?_, ?_, ?_⟩
  · intro j h hj
    rw [live_create]
    by_cases hji : j = i
    · subst hji
      rw [Function.update_self] at hj
      exact .inl (Option.some.inj hj).symm
    · rw [Function.update_of_ne hji] at hj
      exact .inr (hw.live j h hj)
  · intro j k h hj hk
    by_cases hji : j = i <;> by_cases hki : k = i
    · rw [hji, hki]
    · subst hji
      rw [Function.update_self] at hj
      rw [Function.update_of_ne hki] at hk
      exact absurd (Option.some.inj hj).symm (hother k h hki hk)
    · subst hki
      rw [Function.update_self] at hk
      rw [Function.update_of_ne hji] at hj
      exact absurd (Option.some.inj hk).symm (hother j h hji hj)
    · rw [Function.update_of_ne hji] at hj
      rw [Function.update_of_ne hki] at hk
      exact hw.unique j k h hj hk
  · intro h hl
    rcases (t.live_create a h).mp hl with rfl | hl
    · exact ⟨i, Function.update_self ..⟩
    · obtain ⟨j, hj⟩ := hw.covered h hl
      refine ⟨j, ?_⟩
      rw [Function.update_of_ne _, hj]
      rintro rfl
      rw [hi] at hj
      cases hj

/-- An owner deletes what it holds. -/
theorem delete (i : ι) (h : Nat) (hi : owner i = some h) :
    Owned (Function.update owner i none) (t.delete h) := by
  have hkeep (j : ι) (h' : Nat) (hj : Function.update owner i none j = some h') :
      j ≠ i ∧ owner j = some h' := by
    by_cases hji : j = i
    · subst hji
      rw [Function.update_self] at hj
      cases hj
    · rw [Function.update_of_ne hji] at hj
      exact ⟨hji, hj⟩
  refine ⟨?_, ?_, ?_⟩
  · intro j h' hj
    obtain ⟨hji, hj⟩ := hkeep j h' hj
    rw [live_delete]
    refine ⟨?_, hw.live j h' hj⟩
    rintro rfl
    exact hji (hw.unique j i h' hj hi)
  · intro j k h' hj hk
    exact hw.unique j k h' (hkeep j h' hj).2 (hkeep k h' hk).2
  · intro h' hl
    obtain ⟨hne, hl⟩ := (t.live_delete h h').mp hl
    obtain ⟨j, hj⟩ := hw.covered h' hl
    refine ⟨j, ?_⟩
    rw [Function.update_of_ne _, hj]
    rintro rfl
    exact hne (Option.some.inj (hj.symm.trans hi))

/-- An owner of nothing takes over what another one holds. -/
theorem move (i j : ι) (hj : owner j = none) :
    Owned (Function.update (Function.update owner j (owner i)) i none) t := by
  -- where a handle is now, it was before the move
  have hfrom (k : ι) (h : Nat)
      (hk : Function.update (Function.update owner j (owner i)) i none k = some h) :
      k ≠ i ∧ (k = j ∧ owner i = some h ∨ k ≠ j ∧ owner k = some h) := by
    by_cases hki : k = i
    · subst hki
      rw [Function.update_self] at hk
      cases hk
    · rw [Function.update_of_ne hki] at hk
      refine ⟨hki, ?_⟩
      by_cases hkj : k = j
      · subst hkj
        rw [Function.update_self] at hk
        exact .inl ⟨rfl, hk⟩
      · rw [Function.update_of_ne hkj] at hk
        exact .inr ⟨hkj, hk⟩
  refine ⟨?_, ?_, ?_⟩
  · intro k h hk
    rcases (hfrom k h hk).2 with ⟨-, hi⟩ | ⟨-, hk⟩
    · exact hw.live i h hi
    · exact hw.live k h hk
  · intro k l h hk hl
    obtain ⟨hki, hbk⟩ := hfrom k h hk
    obtain ⟨hli, hbl⟩ := hfrom l h hl
    rcases hbk with ⟨hkj, hok⟩ | ⟨-, hok⟩ <;> rcases hbl with ⟨hlj, hol⟩ | ⟨-, hol⟩
    · rw [hkj, hlj]
    · exact absurd (hw.unique l i h hol hok) hli
    · exact absurd (hw.unique k i h hok hol) hki
    · exact hw.unique k l h hok hol
  · intro h hl
    obtain ⟨k, hk⟩ := hw.covered h hl
    have hkj : k ≠ j := by
      rintro rfl
      rw [hj] at hk
      cases hk
    by_cases hki : k = i
    · subst hki
      refine ⟨j, ?_⟩
      rw [Function.update_of_ne hkj.symm, Function.update_self, hk]
    · exact ⟨k, by rw [Function.update_of_ne hki, Function.update_of_ne hkj, hk]⟩

end Owned

end owned

end Handles

end Espbase.Lib
