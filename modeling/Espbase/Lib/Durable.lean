import Mathlib.Data.List.Basic
import Mathlib.Logic.Function.Basic

namespace Espbase.Lib

/-- A store of values under keys, and the writes that are not yet sure to survive. -/
structure Durable (κ ν : Type) where
  stored : κ → Option ν
  pending : List (κ × ν)

namespace Durable
variable {κ ν : Type} [DecidableEq κ]

def write (s : κ → Option ν) (w : κ × ν) : κ → Option ν := Function.update s w.1 (some w.2)

def writes (s : κ → Option ν) (ws : List (κ × ν)) : κ → Option ν := ws.foldl write s

/-- What a reader sees. -/
def view (d : Durable κ ν) : κ → Option ν := writes d.stored d.pending

def set (d : Durable κ ν) (k : κ) (v : ν) : Durable κ ν := { d with pending := d.pending ++ [(k, v)] }

def commit (d : Durable κ ν) : Durable κ ν := ⟨d.view, []⟩

/-- The power fails, and these of the pending writes have survived. -/
def cut (d : Durable κ ν) (kept : List (κ × ν)) : Durable κ ν := ⟨writes d.stored kept, []⟩

theorem writes_append (s : κ → Option ν) (ws vs : List (κ × ν)) :
    writes s (ws ++ vs) = writes (writes s ws) vs := List.foldl_append

/-- A key that is not written keeps its value. -/
theorem writes_of_not_mem (s : κ → Option ν) (ws : List (κ × ν)) (k : κ) (h : ∀ w ∈ ws, w.1 ≠ k) :
    writes s ws k = s k := by
  induction ws generalizing s with
  | nil => rfl
  | cons w ws ih =>
    change writes (write s w) ws k = s k
    rw [ih (write s w) fun w' hw' => h w' (List.mem_cons_of_mem _ hw')]
    exact Function.update_of_ne (h w List.mem_cons_self).symm _ _

section simp
variable (d : Durable κ ν) (k : κ) (v : ν) (kept : List (κ × ν))

@[simp] theorem view_set : (d.set k v).view = write d.view (k, v) := writes_append d.stored d.pending [(k, v)]

@[simp] theorem view_commit : d.commit.view = d.view := rfl

@[simp] theorem view_cut : (d.cut kept).view = writes d.stored kept := rfl

end simp

/-- Whatever first part of the pending writes survives, the store is one of `P`. -/
def Always (P : (κ → Option ν) → Prop) (d : Durable κ ν) : Prop :=
  ∀ kept, kept <+: d.pending → P (writes d.stored kept)

namespace Always
variable (P : (κ → Option ν) → Prop) (d : Durable κ ν)

theorem of_stored (s : κ → Option ν) (h : P s) : Always P ⟨s, []⟩ := by
  intro kept hkept
  rw [List.prefix_nil.mp hkept]
  exact h

theorem set (h : Always P d) (k : κ) (v : ν) (hnew : P (write d.view (k, v))) : Always P (d.set k v) := by
  intro kept hkept
  rcases List.prefix_concat_iff.mp hkept with rfl | hkept
  · have hview := view_set d k v
    rw [view] at hview
    exact hview ▸ hnew
  · exact h kept hkept

variable (h : Always P d)
include h

theorem view : P d.view := h d.pending (List.prefix_refl _)

theorem commit : Always P d.commit := of_stored P d.view h.view

theorem cut (kept : List (κ × ν)) (hkept : kept <+: d.pending) : Always P (d.cut kept) :=
  of_stored P _ (h kept hkept)

end Always

end Durable

end Espbase.Lib
