import Mathlib.Data.List.Basic
import Mathlib.Data.List.Perm.Basic

namespace Espbase.Lib

/-- A tree of keyed members in a fixed order, with values at the leaves. -/
inductive KeyTree (κ α : Type) where
  | leaf (a : α)
  | node (members : List (κ × KeyTree κ α))

namespace KeyTree
variable {κ α β : Type}

mutual
/-- The values at the leaves, in order. -/
def leaves : KeyTree κ α → List α
  | .leaf a => [a]
  | .node ms => leavesOf ms

def leavesOf : List (κ × KeyTree κ α) → List α
  | [] => []
  | (_, t) :: ms => t.leaves ++ leavesOf ms
end

mutual
def map (f : α → β) : KeyTree κ α → KeyTree κ β
  | .leaf a => .leaf (f a)
  | .node ms => .node (mapOf f ms)

def mapOf (f : α → β) : List (κ × KeyTree κ α) → List (κ × KeyTree κ β)
  | [] => []
  | (k, t) :: ms => (k, t.map f) :: mapOf f ms
end

theorem leavesOf_append (ms ms' : List (κ × KeyTree κ α)) :
    leavesOf (ms ++ ms') = leavesOf ms ++ leavesOf ms' := by
  induction ms with
  | nil => rfl
  | cons m ms ih => simp [leavesOf, ih]

theorem mapOf_append (f : α → β) (ms ms' : List (κ × KeyTree κ α)) :
    mapOf f (ms ++ ms') = mapOf f ms ++ mapOf f ms' := by
  induction ms with
  | nil => rfl
  | cons m ms ih => simp [mapOf, ih]

variable [DecidableEq κ]

/-- Changes the inner node under `k`; one is appended when there is none. -/
def enter (k : κ) (f : List (κ × KeyTree κ α) → List (κ × KeyTree κ α)) :
    List (κ × KeyTree κ α) → List (κ × KeyTree κ α)
  | [] => [(k, .node (f []))]
  | (k', .node ts) :: ms =>
    if k' = k then (k', .node (f ts)) :: ms else (k', .node ts) :: enter k f ms
  | (k', .leaf a) :: ms => (k', .leaf a) :: enter k f ms

/-- Inserts a value at a path, with the inner nodes that the path needs. -/
def insert : List κ → α → List (κ × KeyTree κ α) → List (κ × KeyTree κ α)
  | [], _, ms => ms
  | [k], a, ms => ms ++ [(k, .leaf a)]
  | k :: k' :: p, a, ms => enter k (insert (k' :: p) a) ms

def insertAll (ms : List (κ × KeyTree κ α)) (es : List (List κ × α)) : List (κ × KeyTree κ α) :=
  es.foldl (fun ms e => insert e.1 e.2 ms) ms

/-- The members obtained by inserting the entries one after the other. -/
def build (es : List (List κ × α)) : List (κ × KeyTree κ α) := insertAll [] es

/-- Whether the path goes through an inner node under `k`. -/
def through (k : κ) : List κ → Bool
  | k' :: _ :: _ => k' = k
  | _ => false

/-- The entries below the inner node under `k`, relative to it. -/
def under (k : κ) (es : List (List κ × α)) : List (List κ × α) :=
  (es.filter fun e => through k e.1).map fun e => (e.1.tail, e.2)

def others (k : κ) (es : List (List κ × α)) : List (List κ × α) :=
  es.filter fun e => !through k e.1

theorem insert_leaf (k : κ) (b : α) (p : List κ) (a : α) (ms : List (κ × KeyTree κ α)) :
    insert p a ((k, .leaf b) :: ms) = (k, .leaf b) :: insert p a ms := by
  rcases p with _ | ⟨k1, _ | ⟨k2, p⟩⟩ <;> simp [insert, enter]

theorem insertAll_leaf (k : κ) (b : α) (ms : List (κ × KeyTree κ α)) (es : List (List κ × α)) :
    insertAll ((k, .leaf b) :: ms) es = (k, .leaf b) :: insertAll ms es := by
  induction es generalizing ms with
  | nil => rfl
  | cons e es ih =>
    simp only [insertAll, List.foldl_cons] at ih ⊢
    rw [insert_leaf, ih]

theorem insertAll_node (k : κ) (ts ms : List (κ × KeyTree κ α)) (es : List (List κ × α)) :
    insertAll ((k, .node ts) :: ms) es =
      (k, .node (insertAll ts (under k es))) :: insertAll ms (others k es) := by
  induction es generalizing ts ms with
  | nil => rfl
  | cons e es ih =>
    obtain ⟨p, a⟩ := e
    simp only [insertAll, under, others, List.foldl_cons] at ih ⊢
    rcases p with _ | ⟨k1, _ | ⟨k2, p⟩⟩
    · simp [insert, through, ih]
    · simp [insert, through, ih]
    · by_cases hk : k1 = k
      · subst hk
        simp [insert, enter, through, ih]
      · have hk' : ¬ k = k1 := fun h => hk h.symm
        simp [insert, enter, through, hk, hk', ih]

/-- A value directly under a key stays where it is. -/
theorem build_cons_leaf (k : κ) (a : α) (es : List (List κ × α)) :
    build (([k], a) :: es) = (k, .leaf a) :: build es := insertAll_leaf k a [] es

/-- An inner node collects everything that goes through its key. -/
theorem build_cons_node (k k' : κ) (p : List κ) (a : α) (es : List (List κ × α)) :
    build ((k :: k' :: p, a) :: es) =
      (k, .node (build ((k' :: p, a) :: under k es))) :: build (others k es) :=
  insertAll_node k _ [] es

theorem leavesOf_enter (k : κ) (f : List (κ × KeyTree κ α) → List (κ × KeyTree κ α)) (a : α)
    (hf : ∀ ts, (leavesOf (f ts)).Perm (a :: leavesOf ts)) (ms : List (κ × KeyTree κ α)) :
    (leavesOf (enter k f ms)).Perm (a :: leavesOf ms) := by
  induction ms with
  | nil => simpa [enter, leavesOf, leaves] using hf []
  | cons m ms ih =>
    obtain ⟨k', t⟩ := m
    cases t with
    | leaf b => exact (ih.append_left [b]).trans List.perm_middle
    | node ts =>
      rw [enter]
      split_ifs
      · exact (hf ts).append_right (leavesOf ms)
      · exact (ih.append_left (leavesOf ts)).trans List.perm_middle

theorem leavesOf_insert (p : List κ) (a : α) (ms : List (κ × KeyTree κ α)) (hp : p ≠ []) :
    (leavesOf (insert p a ms)).Perm (a :: leavesOf ms) := by
  induction p generalizing ms with
  | nil => exact absurd rfl hp
  | cons k p ih =>
    cases p with
    | nil =>
      rw [insert, leavesOf_append]
      exact List.perm_append_comm
    | cons k' p => exact leavesOf_enter k _ a (fun ts => ih ts (by simp)) ms

/-- Every inserted value is at exactly one leaf. -/
theorem leavesOf_build (es : List (List κ × α)) (hne : ∀ e ∈ es, e.1 ≠ []) :
    (leavesOf (build es)).Perm (es.map Prod.snd) := by
  have run (ms : List (κ × KeyTree κ α)) :
      (leavesOf (insertAll ms es)).Perm (leavesOf ms ++ es.map Prod.snd) := by
    induction es generalizing ms with
    | nil => simp [insertAll]
    | cons e es ih =>
      have h1 := ih (fun e he => hne e (by simp [he])) (insert e.1 e.2 ms)
      have h2 := leavesOf_insert e.1 e.2 ms (hne e (by simp))
      exact (h1.trans (h2.append_right _)).trans List.perm_middle.symm
  exact run []

theorem mapOf_enter (f : α → β) (k : κ) (g : List (κ × KeyTree κ α) → List (κ × KeyTree κ α))
    (g' : List (κ × KeyTree κ β) → List (κ × KeyTree κ β))
    (hg : ∀ ts, mapOf f (g ts) = g' (mapOf f ts)) (ms : List (κ × KeyTree κ α)) :
    mapOf f (enter k g ms) = enter k g' (mapOf f ms) := by
  induction ms with
  | nil => simpa [enter, mapOf, map] using hg []
  | cons m ms ih =>
    obtain ⟨k', t⟩ := m
    cases t with
    | leaf b => simp [enter, mapOf, map, ih]
    | node ts =>
      by_cases hk : k' = k
      · simp [enter, mapOf, map, hk, hg]
      · simp [enter, mapOf, map, hk, ih]

theorem mapOf_insert (f : α → β) (p : List κ) (a : α) (ms : List (κ × KeyTree κ α)) :
    mapOf f (insert p a ms) = insert p (f a) (mapOf f ms) := by
  induction p generalizing ms with
  | nil => rfl
  | cons k p ih =>
    cases p with
    | nil => simp [insert, mapOf_append, mapOf, map]
    | cons k' p => exact mapOf_enter f k _ _ ih ms

/-- The shape of the tree depends on the paths only. -/
theorem build_map (f : α → β) (es : List (List κ × α)) :
    build (es.map fun e => (e.1, f e.2)) = mapOf f (build es) := by
  have run (ms : List (κ × KeyTree κ α)) :
      insertAll (mapOf f ms) (es.map fun e => (e.1, f e.2)) = mapOf f (insertAll ms es) := by
    induction es generalizing ms with
    | nil => rfl
    | cons e es ih =>
      have h := ih (insert e.1 e.2 ms)
      rw [mapOf_insert] at h
      exact h
  exact run []

end KeyTree

end Espbase.Lib
