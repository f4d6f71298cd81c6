import Espbase.StackJson.DataRoundTrip

namespace Espbase.StackJson

open Espbase.Lib

/-- The nodes that a builder points to, no more than its storage has room for. -/
structure Builder (maxNodes : Nat) where
  nodes : List (NodeInfo × Value)
  fits : nodes.length ≤ maxNodes

namespace Builder
variable {maxNodes : Nat}

def empty (maxNodes : Nat) : Builder maxNodes := ⟨[], Nat.zero_le _⟩

/-- `dest[count++] = &node`, while there is room. -/
def append (b : Builder maxNodes) (n : NodeInfo × Value) : Builder maxNodes :=
  if h : b.nodes.length < maxNodes then
    ⟨b.nodes ++ [n], by rw [List.length_append, List.length_singleton]; exact h⟩
  else b

/-- `append_pointers_to` -/
def add (b : Builder maxNodes) (doc : List (NodeInfo × Value)) : Builder maxNodes := doc.foldl append b

def emit {σ : Type} [Buffer σ] (b : Builder maxNodes) (st : Emission σ) : Option (Emission σ × Nat) :=
  emitDocument b.nodes st

section run

/-- What is cut off first is cut off in the end. -/
theorem take_append_take {α : Type} (n : Nat) (as bs : List α) :
    (as.take n ++ bs).take n = (as ++ bs).take n := by
  have hlen : n - min n as.length = n - as.length := by omega
  rw [List.take_append, List.take_append, List.take_take, List.length_take, Nat.min_self, hlen]

variable (b : Builder maxNodes)

theorem append_nodes (n : NodeInfo × Value) : (b.append n).nodes = (b.nodes ++ [n]).take maxNodes := by
  rw [append]
  split_ifs with h
  · exact (List.take_of_length_le (by rw [List.length_append, List.length_singleton]; exact h)).symm
  · rw [List.take_append_of_le_length (Nat.le_of_not_lt h), List.take_of_length_le b.fits]

theorem add_nodes (doc : List (NodeInfo × Value)) : (b.add doc).nodes = (b.nodes ++ doc).take maxNodes := by
  induction doc generalizing b with
  | nil =>
    rw [List.append_nil]
    exact (List.take_of_length_le b.fits).symm
  | cons n doc ih =>
    have hrest := ih (b.append n)
    rw [append_nodes, take_append_take] at hrest
    rw [List.append_cons]
    exact hrest

/-- The first nodes that were added are kept. -/
theorem addAll_nodes (docs : List (List (NodeInfo × Value))) :
    (docs.foldl add b).nodes = (b.nodes ++ docs.flatten).take maxNodes := by
  induction docs generalizing b with
  | nil =>
    rw [List.flatten_nil, List.append_nil]
    exact (List.take_of_length_le b.fits).symm
  | cons doc docs ih =>
    have hrest := ih (b.add doc)
    rw [add_nodes, take_append_take, List.append_assoc] at hrest
    exact hrest

end run

end Builder

/-- A builder emits the nodes that were added first as one document, from which each value comes back. For the
nodes that it has no room for there is no sign in the buffer or in the result: their values stay away. -/
theorem builder_roundTrip [FloatChars] (maxNodes : Nat) (docs : List (List (NodeInfo × Value)))
    (h : DataNodes (docs.flatten.take maxNodes)) (bs : List ParseNode)
    (hbs : DataBindings (docs.flatten.take maxNodes) bs) (maxSize : Nat) (emitted : Nat → Bool)
    (hroom : (documentText (docs.flatten.take maxNodes)).length ≤ maxSize) :
    ∃ st bs', (docs.foldl Builder.add (.empty maxNodes)).emit ⟨StackBuffer.empty maxSize, emitted⟩ =
        some (st, (documentText (docs.flatten.take maxNodes)).length) ∧
      st.buf.bad = false ∧ parse st.buf.view bs = some bs' ∧
      Delivers (docs.flatten.take maxNodes) bs bs' := by
  have hnodes : (docs.foldl Builder.add (.empty maxNodes)).nodes = docs.flatten.take maxNodes :=
    (Builder.empty maxNodes).addAll_nodes docs
  obtain ⟨st, n, he, hbad, hgood⟩ := emitDocument_ends (docs.flatten.take maxNodes)
    (Value.Nested.valid (.doc _) h.nested h.ids) (StackBuffer.empty maxSize) rfl (Nat.zero_le _) emitted
  have hfit : st.buf.bad = false := eq_false_of_ne_true fun hb => by
    have hlong := hbad.mp hb
    rw [show (StackBuffer.empty maxSize).head = 0 from rfl] at hlong
    omega
  obtain ⟨rfl, hview⟩ := hgood hfit
  obtain ⟨bs', hparse, hdelivers⟩ := h.delivers bs hbs
  refine ⟨st, bs', ?_, hfit, ?_, hdelivers⟩
  · rw [Builder.emit, hnodes, he]
  · rw [hview]
    exact hparse

/-- Two documents with members of one object, and with a node too many. -/
def layeredDocs : List (List (NodeInfo × Value)) :=
  [[(⟨0, false, [bytes "config", bytes "retries"]⟩, .int minusThree)],
   [(⟨1, false, [bytes "config", bytes "limits"]⟩, .stackArray [.int minusThree, .null]),
    (⟨2, false, [bytes "third"]⟩, .bool true)]]

theorem layeredDocs_kept : layeredDocs.flatten.take 2 =
    [(⟨0, false, [bytes "config", bytes "retries"]⟩, .int minusThree),
      (⟨1, false, [bytes "config", bytes "limits"]⟩, .stackArray [.int minusThree, .null])] := rfl

theorem layeredDocs_list : (Value.stackArray [.int minusThree, .null]).IsList := by
  refine ⟨rfl, fun e he => ?_⟩
  simp only [Value.elements, List.mem_cons, List.not_mem_nil, or_false] at he
  rcases he with rfl | rfl
  · exact ⟨trivial, by simp, by simp⟩
  · exact ⟨trivial, by simp, by simp⟩

theorem layeredDocs_data : DataNodes (layeredDocs.flatten.take 2) where
  nested := ⟨by decide, by decide, trivial, ⟨trivial, trivial, trivial⟩, trivial⟩
  ids := by decide
  keys := by simp [layeredDocs_kept, inlinedNodes, Value.inlined, PlainKey, Special, bytes, ch]
  values := by
    rw [layeredDocs_kept]
    intro p hp
    simp only [inlinedNodes, Value.inlined, List.mem_append, List.mem_singleton, List.not_mem_nil, or_false] at hp
    rcases hp with rfl | rfl
    · exact .inl trivial
    · exact .inr layeredDocs_list

/-- Nodes for the value that is dropped, and for the array. -/
def layeredBindings : List ParseNode :=
  [⟨[bytes "third"], false, false, .bind (.bool false)⟩,
   ⟨[bytes "config", bytes "limits"], false, false, .dynamic .blank⟩]

theorem layeredDocs_members : members (layeredDocs.flatten.take 2) =
    [([bytes "config", bytes "retries"], .int minusThree),
      ([bytes "config", bytes "limits"], .stackArray [.int minusThree, .null])] := rfl

theorem layeredBindings_fit : DataBindings (layeredDocs.flatten.take 2) layeredBindings where
  free := by decide
  targets := by
    intro b hb v hv hscalar
    simp only [layeredDocs_members, List.mem_cons, List.not_mem_nil, or_false, Prod.mk.injEq] at hv
    simp only [layeredBindings, List.mem_cons, List.not_mem_nil, or_false] at hb
    rcases hv with ⟨hp, rfl⟩ | ⟨-, rfl⟩
    · rcases hb with rfl | rfl <;> exact absurd hp (by decide)
    · exact hscalar.elim
  lists := by
    intro b hb v hv hlist
    simp only [layeredDocs_members, List.mem_cons, List.not_mem_nil, or_false, Prod.mk.injEq] at hv
    simp only [layeredBindings, List.mem_cons, List.not_mem_nil, or_false] at hb
    rcases hb with rfl | rfl
    · rcases hv with ⟨hp, -⟩ | ⟨hp, -⟩ <;> exact absurd hp (by decide)
    · exact ⟨_, rfl⟩

theorem builder_roundTrip_layeredDocs :
    ∃ st bs', (layeredDocs.foldl Builder.add (.empty 2)).emit ⟨StackBuffer.empty 44, fun _ => false⟩ =
        some (st, 44) ∧
      @parse keepFloats st.buf.view layeredBindings = some bs' ∧
      (∃ b', bs'[0]? = some b' ∧ b'.isSet = false) ∧
      ∃ b', bs'[1]? = some b' ∧
        @ParseNode.extractions keepFloats b' [.int (.zero ⟨.w32, true⟩), .bool true, .bool true] =
          some [(true, .int minusThree), (true, .bool false), (false, .bool true)] := by
  let _ := keepFloats
  obtain ⟨st, bs', he, -, hp, hb⟩ := builder_roundTrip 2 layeredDocs layeredDocs_data layeredBindings
    layeredBindings_fit 44 (fun _ => false) (by decide)
  have hapart : KeysApart (layeredDocs.flatten.take 2) ⟨[bytes "third"], false, false, .bind (.bool false)⟩ :=
    ⟨rfl, _, _, rfl, by decide, by rw [layeredDocs_members]; decide⟩
  obtain ⟨b, hb0, hset, -⟩ := (hb 0 _ rfl).2 hapart
  obtain ⟨b', hb1, -, hlist⟩ := (hb 1 _ rfl).1 (.stackArray [.int minusThree, .null])
    (by rw [layeredDocs_members]; simp)
  exact ⟨st, bs', he, hp, ⟨b, hb0, hset⟩, b', hb1, hlist layeredDocs_list [.int (.zero ⟨.w32, true⟩), .bool true]
    [.bool true] (.cons rfl (.cons trivial .nil))⟩

end Espbase.StackJson
