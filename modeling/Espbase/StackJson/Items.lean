import Espbase.StackJson.Document
import Espbase.Lib.KeyTree

namespace Espbase.StackJson

open Espbase.Lib

/-- One step of writing a tree of members: a punctuation mark, a key or a value. -/
inductive Item (α : Type) where
  | punct (c : UInt8)
  | key (k : Bytes)
  | value (a : α)

section items
variable {α : Type}

def sepItems (first : Bool) : List (Item α) := if first then [] else [.punct (ch ',')]

mutual
def treeItems : KeyTree Bytes α → List (Item α)
  | .leaf a => [.value a]
  | .node ms => .punct (ch '{') :: (memberItems true ms ++ [.punct (ch '}')])

def memberItems : Bool → List (Bytes × KeyTree Bytes α) → List (Item α)
  | _, [] => []
  | first, (k, t) :: ms =>
    sepItems first ++ .key k :: .punct (ch ':') :: (treeItems t ++ memberItems false ms)
end

def itemValues : List (Item α) → List α
  | [] => []
  | .value a :: its => a :: itemValues its
  | .punct _ :: its => itemValues its
  | .key _ :: its => itemValues its

theorem itemValues_append (as bs : List (Item α)) :
    itemValues (as ++ bs) = itemValues as ++ itemValues bs := by
  induction as with
  | nil => rfl
  | cons it as ih => cases it <;> simp [itemValues, ih]

@[simp] theorem itemValues_sepItems (first : Bool) : itemValues (α := α) (sepItems first) = [] := by
  cases first <;> rfl

mutual
theorem itemValues_treeItems : (t : KeyTree Bytes α) → itemValues (treeItems t) = t.leaves
  | .leaf _ => rfl
  | .node ms => by
    simp [treeItems, itemValues, itemValues_append, itemValues_memberItems true ms, KeyTree.leaves]

theorem itemValues_memberItems (first : Bool) :
    (ms : List (Bytes × KeyTree Bytes α)) →
      itemValues (memberItems first ms) = KeyTree.leavesOf ms
  | [] => rfl
  | (k, t) :: ms => by
    rw [memberItems, itemValues_append, KeyTree.leavesOf]
    simp [itemValues, itemValues_append, itemValues_treeItems t, itemValues_memberItems false ms]
end

end items

section run
variable {σ : Type}

theorem andThen_assoc (r : Option (Emission σ × Bool))
    (k l : Emission σ → Option (Emission σ × Bool)) :
    andThen (andThen r k) l = andThen r fun st => andThen (k st) l := by
  rcases r with _ | ⟨st, _ | _⟩ <;> rfl

theorem andThen_congr (r : Option (Emission σ × Bool))
    (k l : Emission σ → Option (Emission σ × Bool))
    (h : ∀ st, r = some (st, true) → k st = l st) : andThen r k = andThen r l := by
  rcases r with _ | ⟨st, _ | _⟩
  · rfl
  · rfl
  · exact h st rfl

theorem andThen_eq_true (r : Option (Emission σ × Bool))
    (k : Emission σ → Option (Emission σ × Bool)) (st' : Emission σ)
    (h : andThen r k = some (st', true)) :
    ∃ st, r = some (st, true) ∧ k st = some (st', true) := by
  rcases r with _ | ⟨st, _ | _⟩
  · cases h
  · cases h
  · exact ⟨st, rfl, h⟩

variable [Buffer σ]

def runItem (st : Emission σ) : Item (NodeBase σ) → Option (Emission σ × Bool)
  | .punct c => st.write [c]
  | .key k => st.writeEscaped k
  | .value n => callEmitValue n st

/-- Writes the items in order, up to the first own write that fails. -/
def runItems : List (Item (NodeBase σ)) → Emission σ → Option (Emission σ × Bool)
  | [], st => some (st, true)
  | it :: its, st => andThen (runItem st it) (runItems its)

theorem runItems_append (as bs : List (Item (NodeBase σ))) (st : Emission σ) :
    runItems (as ++ bs) st = andThen (runItems as st) (runItems bs) := by
  induction as generalizing st with
  | nil => rfl
  | cons it as ih =>
    simp only [List.cons_append, runItems, andThen_assoc]
    exact andThen_congr _ _ _ fun st _ => ih st

theorem runItems_single (it : Item (NodeBase σ)) (st : Emission σ) :
    runItems [it] st = runItem st it := by
  rw [runItems]
  rcases runItem st it with _ | ⟨st', _ | _⟩ <;> rfl

theorem separator_eq (first : Bool) (st : Emission σ) :
    separator first st = runItems (sepItems first) st := by
  cases first
  · simp [separator, sepItems, runItems_single, runItem]
  · rfl

theorem write_emitted (st st' : Emission σ) (str : Bytes) (ok : Bool)
    (h : st.write str = some (st', ok)) : st'.emitted = st.emitted := by
  simp only [Emission.write, Option.bind_eq_bind, Option.bind_eq_some_iff] at h
  obtain ⟨⟨buf, n⟩, -, he⟩ := h
  cases he
  rfl

theorem writeEscaped_emitted (st st' : Emission σ) (str : Bytes) (ok : Bool)
    (h : st.writeEscaped str = some (st', ok)) : st'.emitted = st.emitted := by
  simp only [Emission.writeEscaped, Option.bind_eq_bind, Option.bind_eq_some_iff] at h
  obtain ⟨⟨buf, n⟩, -, he⟩ := h
  cases he
  rfl

/-- Emitting a node sets its own flag and no other flag of the nodes. -/
def FlagFrame (nodes : List (NodeBase σ)) : Prop :=
  ∀ n ∈ nodes, ∀ st st', n.emitValue st = some st' →
    ∀ m ∈ nodes, st'.emitted m.id = true ↔ st.emitted m.id = true ∨ m = n

theorem runItem_flags (nodes : List (NodeBase σ)) (hframe : FlagFrame nodes)
    (it : Item (NodeBase σ)) (hit : ∀ n ∈ itemValues [it], n ∈ nodes) (st st' : Emission σ)
    (ok : Bool) (h : runItem st it = some (st', ok)) :
    ∀ m ∈ nodes, st'.emitted m.id = true ↔ st.emitted m.id = true ∨ m ∈ itemValues [it] := by
  intro m hm
  cases it with
  | punct c =>
    rw [write_emitted st st' _ ok h]
    simp [itemValues]
  | key k =>
    rw [writeEscaped_emitted st st' _ ok h]
    simp [itemValues]
  | value n =>
    simp only [runItem, callEmitValue, Option.bind_eq_bind, Option.bind_eq_some_iff] at h
    obtain ⟨st1, he, h1⟩ := h
    cases h1
    simpa [itemValues] using hframe n (hit n (by simp [itemValues])) st st' he m hm

/-- After a complete run exactly the values among the items have been flagged. -/
theorem runItems_flags (nodes : List (NodeBase σ)) (hframe : FlagFrame nodes)
    (its : List (Item (NodeBase σ))) (hits : ∀ n ∈ itemValues its, n ∈ nodes)
    (st st' : Emission σ) (h : runItems its st = some (st', true)) :
    ∀ m ∈ nodes, st'.emitted m.id = true ↔ st.emitted m.id = true ∨ m ∈ itemValues its := by
  induction its generalizing st with
  | nil =>
    cases h
    simp [itemValues]
  | cons it its ih =>
    intro m hm
    have hsplit : itemValues (it :: its) = itemValues [it] ++ itemValues its :=
      itemValues_append [it] its
    rw [hsplit] at hits ⊢
    obtain ⟨st1, h1, h2⟩ := andThen_eq_true _ _ _ h
    rw [ih (fun n hn => hits n (List.mem_append_right _ hn)) st1 h2 m hm,
      runItem_flags nodes hframe it (fun n hn => hits n (List.mem_append_left _ hn)) st st1 true h1
        m hm, List.mem_append, or_assoc]

end run

end Espbase.StackJson
