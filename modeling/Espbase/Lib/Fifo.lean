import Espbase.Lib.Simulation
import Mathlib.Data.List.Basic

namespace Espbase.Lib

/-- What became of the values that were offered to a bounded queue. -/
structure Fifo (α : Type) where
  entered : List α
  /-- the values that found the queue full -/
  lost : List α
  taken : List α
  deriving DecidableEq

inductive Fifo.Event (α : Type) where
  | offer (a : α)
  | take

namespace Fifo
variable {α β : Type}

def empty : Fifo α := ⟨[], [], []⟩

/-- The queue is what has entered and is not taken. -/
def next (capacity : Nat) (r : Fifo α) : Event α → Option (Fifo α)
  | .offer a =>
    if r.entered.length < r.taken.length + capacity then some { r with entered := r.entered ++ [a] }
    else some { r with lost := r.lost ++ [a] }
  | .take => r.entered[r.taken.length]?.map fun a => { r with taken := r.taken ++ [a] }

def map (f : α → β) (r : Fifo α) : Fifo β := ⟨r.entered.map f, r.lost.map f, r.taken.map f⟩

def Event.map (f : α → β) : Event α → Event β
  | .offer a => .offer (f a)
  | .take => .take

theorem next_map (f : α → β) (capacity : Nat) (r : Fifo α) (e : Event α) :
    (r.map f).next capacity (e.map f) = (r.next capacity e).map (Fifo.map f) := by
  cases e with
  | offer a =>
    simp only [next, map, Event.map, List.length_map]
    split_ifs <;> simp [map]
  | take =>
    simp only [next, map, Event.map, List.length_map, List.getElem?_map, Option.map_map]
    congr 1
    funext a
    simp [map]

/-- What values are queued does not matter. -/
theorem steps_map (f : α → β) (capacity : Nat) (r : Fifo α) (run : Steps (next capacity) (fun _ _ => True) .empty r) :
    Steps (next capacity) (fun _ _ => True) .empty (r.map f) := by
  refine (run.seen _ _ (next capacity) (map f) (fun _ => True) (fun r e r' _ _ hn => ?_) _ _ trivial).2
  refine ⟨trivial, .inr ⟨e.map f, ?_⟩⟩
  rw [next_map, hn]
  rfl

section queue
variable (capacity : Nat) (r : Fifo α) (queue : List α) (h : r.entered = r.taken ++ queue)
include h

theorem next_offer (a : α) : r.next capacity (.offer a) =
    if queue.length < capacity then some { r with entered := r.entered ++ [a] }
    else some { r with lost := r.lost ++ [a] } := by
  have hlen : r.entered.length = r.taken.length + queue.length := by rw [h, List.length_append]
  simp only [next, hlen, Nat.add_lt_add_iff_left]

theorem next_take : r.next capacity .take = queue.head?.map fun a => { r with taken := r.taken ++ [a] } := by
  have hhead : r.entered[r.taken.length]? = queue.head? := by
    rw [h, List.getElem?_append_right (Nat.le_refl _), Nat.sub_self, List.head?_eq_getElem?]
  rw [next, hhead]

end queue

end Fifo

end Espbase.Lib
