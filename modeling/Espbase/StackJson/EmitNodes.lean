import Espbase.StackJson.EmitLevel
import Espbase.StackJson.Flags
import Espbase.StackJson.ValueText
import Mathlib.Data.List.Nodup

namespace Espbase.StackJson

open Espbase.Lib

variable {σ : Type}

/-- The non-omitted nodes with their paths. -/
def shownNodes (nodes : List (NodeBase σ)) : List (List Bytes × NodeBase σ) :=
  (nodes.filter fun n => !n.omitted).map fun n => (n.path, n)

theorem le_maxDepth (nodes : List (NodeBase σ)) (n : NodeBase σ) (hn : n ∈ nodes) :
    n.path.length ≤ maxDepth nodes := by
  unfold maxDepth
  induction nodes with
  | nil => cases hn
  | cons m nodes ih =>
    simp only [List.map_cons, List.foldr_cons]
    rcases List.mem_cons.mp hn with rfl | hn
    · exact Nat.le_max_left _ _
    · exact (ih hn).trans (Nat.le_max_right _ _)

theorem entries_resetAll (nodes : List (NodeBase σ)) (st : Emission σ) :
    entries (resetAll nodes st) [] nodes = shownNodes nodes := by
  have : (nodes.filter fun n => Live (resetAll nodes st) n ∧ [] <+: n.path) =
      nodes.filter fun n => !n.omitted := by
    apply List.filter_congr
    intro n hn
    have hid : ∃ m ∈ nodes, m.id = n.id := ⟨n, hn, rfl⟩
    cases h : n.omitted <;> simp [Live, resetAll_emitted, hid, h]
  simp only [entries, this, shownNodes]
  rfl

section emit
variable [Buffer σ]

/-- The fast path writes the members in list order. -/
theorem flatLoop_eq (nodes : List (NodeBase σ)) (first : Bool) (st : Emission σ)
    (hd : ∀ n ∈ nodes, n.path.length = 1) :
    flatLoop nodes first st =
      runItems (memberItems first (KeyTree.build (shownNodes nodes))) st := by
  induction nodes generalizing first st with
  | nil => rfl
  | cons n nodes ih =>
    have ih (first st) := ih first st fun m hm => hd m (by simp [hm])
    rw [flatLoop]
    split_ifs with ho
    · rw [ih]
      simp [shownNodes, ho]
    · obtain ⟨k, hk⟩ := List.length_eq_one_iff.mp (hd n (by simp))
      have hitems : memberItems first (KeyTree.build (shownNodes (n :: nodes))) =
          sepItems first ++ .key k :: .punct (ch ':') :: .value n ::
            memberItems false (KeyTree.build (shownNodes nodes)) := by
        simp [shownNodes, ho, hk, KeyTree.build_cons_leaf, memberItems, treeItems]
      rw [hitems, runItems_append, separator_eq]
      apply andThen_congr _ _ _
      intro st1 _
      simp only [PathBase.getElement, hk, List.getElem?_cons_zero, Option.bind_eq_bind,
        Option.bind_some]
      exact andThen_congr _ _ _ fun st2 _ => andThen_congr _ _ _ fun st3 _ =>
        andThen_congr _ _ _ fun st4 _ => ih false st4

theorem emitBraced_eq (ms : List (Bytes × KeyTree Bytes (NodeBase σ)))
    (inner : Emission σ → Option (Emission σ × Bool)) (st : Emission σ)
    (h : ∀ st', st'.emitted = st.emitted → inner st' = runItems (memberItems true ms) st') :
    emitBraced inner st = runItems (treeItems (.node ms)) st := by
  rw [emitBraced, treeItems, runItems]
  apply andThen_congr _ _ _
  intro st1 h1
  rw [h st1 (write_emitted _ _ _ _ h1), runItems_append]
  apply andThen_congr _ _ _
  intro st2 _
  rw [runItems_single, runItem]

/-- Both paths of `emit_json_nodes` write the tree of the non-omitted nodes. -/
theorem emitJsonNodes_eq (nodes : List (NodeBase σ)) (hw : Emittable nodes) (hne : nodes ≠ [])
    (st : Emission σ) :
    ∃ st0 : Emission σ, st0.buf = st.buf ∧
      (∀ id, id ∉ nodes.map (fun n => n.id) → st0.emitted id = st.emitted id) ∧
      emitJsonNodes nodes st = written (Buffer.length st.buf)
        (runItems (treeItems (.node (KeyTree.build (shownNodes nodes)))) st0) := by
  have hempty : ¬ nodes.isEmpty = true := by simp [hne]
  unfold emitJsonNodes
  rw [if_neg hempty]
  split_ifs with hnest
  · refine ⟨resetAll nodes st, resetAll_buf nodes st, ?_, ?_⟩
    · intro id hid
      rw [resetAll_emitted, if_neg hid]
    · rw [emitBraced_eq (KeyTree.build (shownNodes nodes))]
      intro st' hst
      obtain ⟨n, hn, -⟩ := List.any_eq_true.mp hnest
      have hpos := List.length_pos_iff.mpr (hw.paths n hn)
      have hmax := le_maxDepth nodes n hn
      have hlive : ∀ m, Live st' m ↔ Live (resetAll nodes st) m := fun m => by simp [Live, hst]
      rw [emitLevel_eq nodes hw (maxDepth nodes) [] st' (by omega),
        entries_congr (resetAll nodes st) st' [] nodes (fun m _ _ => hlive m), entries_resetAll]
      intro m hm _ _
      have hm1 := List.length_pos_iff.mpr (hw.paths m hm)
      have hm2 := le_maxDepth nodes m hm
      simp only [List.length_nil]
      omega
  · refine ⟨st, rfl, fun _ _ => rfl, ?_⟩
    rw [emitBraced_eq (KeyTree.build (shownNodes nodes))]
    intro st' _
    apply flatLoop_eq nodes true st'
    intro n hn
    have hpos := List.length_pos_iff.mpr (hw.paths n hn)
    have hflat : ¬ 1 < n.path.length := fun h =>
      hnest (List.any_eq_true.mpr ⟨n, hn, decide_eq_true h⟩)
    omega

end emit

/-- The lists of nodes that the library is used with: distinct objects with non-empty paths, none of
them part of the value of another, and no non-omitted path a proper prefix of the path of an earlier
non-omitted node. -/
structure Layout (nodes : List NodeInfo) (inner : List Nat) : Prop where
  distinct : (nodes.map NodeInfo.id).Nodup
  separate : ∀ n ∈ nodes, n.id ∉ inner
  paths : ∀ n ∈ nodes, n.path ≠ []
  order : nodes.Pairwise fun m n =>
    m.omitted = false → n.omitted = false → n.path <+: m.path → n.path = m.path

/-- Prefix-free lists of paths have no bad order. -/
theorem order_of_prefixFree (nodes : List NodeInfo)
    (h : nodes.Pairwise fun m n =>
      m.omitted = false → n.omitted = false → ¬ m.path <+: n.path ∧ ¬ n.path <+: m.path) :
    nodes.Pairwise fun m n =>
      m.omitted = false → n.omitted = false → n.path <+: m.path → n.path = m.path :=
  h.imp fun hmn hm hn hp => absurd hp (hmn hm hn).2

/-- The identities of the nodes inside the values of a list of nodes. -/
def innerIds : List (NodeInfo × Value) → List Nat
  | [] => []
  | (_, v) :: nodes => v.ids ++ innerIds nodes

mutual
/-- All documents inside the value, and it itself, have a proper layout. -/
def Value.Valid : Value → Prop
  | .stackArray elements => ValidElements elements
  | .spanArray elements => ValidElements elements
  | .streamArray _ elements => ValidElements elements
  | .doc nodes => Layout (nodes.map Prod.fst) (innerIds nodes) ∧ ValidNodes nodes
  | _ => True

def ValidElements : List Value → Prop
  | [] => True
  | v :: elements => v.Valid ∧ ValidElements elements

def ValidNodes : List (NodeInfo × Value) → Prop
  | [] => True
  | (_, v) :: nodes => v.Valid ∧ ValidNodes nodes
end

section valueNode
variable [Buffer σ]

/-- The `ValueNode` with the given data and value. -/
def valueNode (n : NodeInfo) (v : Value) : NodeBase σ :=
  ⟨n, fun st => (writeJsonValue v st).bind fun st => some (st.onEmit n.id)⟩

theorem valueNodes_eq (nodes : List (NodeInfo × Value)) :
    valueNodes (σ := σ) nodes = nodes.map fun p => valueNode p.1 p.2 := by
  induction nodes with
  | nil => rfl
  | cons p nodes ih =>
    rw [List.map_cons, ← ih]
    rfl

theorem mem_innerIds (nodes : List (NodeInfo × Value)) (p : NodeInfo × Value) (hp : p ∈ nodes) :
    p.2.ids ⊆ innerIds nodes := by
  induction nodes with
  | nil => cases hp
  | cons q nodes ih =>
    rcases List.mem_cons.mp hp with rfl | hp
    · exact List.subset_append_left _ _
    · exact fun i hi => List.mem_append_right _ (ih hp hi)

theorem mem_nodeIds (nodes : List (NodeInfo × Value)) (p : NodeInfo × Value) (hp : p ∈ nodes) :
    p.1.id ∈ nodeIds nodes := by
  induction nodes with
  | nil => cases hp
  | cons q nodes ih =>
    rcases List.mem_cons.mp hp with rfl | hp
    · simp [nodeIds]
    · simp [nodeIds, ih hp]

/-- Distinct node objects outside of each other's values set their own flags only. -/
theorem valueNodes_flags (nodes : List (NodeInfo × Value))
    (hdistinct : (nodes.map fun p => p.1.id).Nodup)
    (hseparate : ∀ p ∈ nodes, p.1.id ∉ innerIds nodes) :
    FlagFrame (valueNodes (σ := σ) nodes) := by
  rw [valueNodes_eq]
  intro n hn st st' he m hm
  obtain ⟨p, hp, rfl⟩ := List.mem_map.mp hn
  obtain ⟨q, hq, rfl⟩ := List.mem_map.mp hm
  obtain ⟨st1, h1, h2⟩ := Option.bind_eq_some_iff.mp he
  cases h2
  have hq1 : q.1.id ∉ p.2.ids := fun hin => hseparate q hq (mem_innerIds nodes p hp hin)
  have hsame := writeJsonValue_touches p.2 st st1 h1 q.1.id hq1
  by_cases heq : q.1.id = p.1.id
  · have : q = p := List.inj_on_of_nodup_map hdistinct hq hp heq
    simp [this, Emission.onEmit, Emission.setEmitted, valueNode]
  · have hne : valueNode (σ := σ) q.1 q.2 ≠ valueNode p.1 p.2 := fun hv =>
      heq (congrArg (fun n : NodeBase σ => n.id) hv)
    have hset : (st1.onEmit p.1.id).emitted q.1.id = st1.emitted q.1.id := if_neg heq
    simp only [hne, or_false]
    change (st1.onEmit p.1.id).emitted q.1.id = true ↔ st.emitted q.1.id = true
    rw [hset, hsame]

/-- The nodes of a proper layout can be emitted. -/
theorem valueNodes_emittable (nodes : List (NodeInfo × Value))
    (h : Layout (nodes.map Prod.fst) (innerIds nodes)) :
    Emittable (valueNodes (σ := σ) nodes) := by
  have hids : (nodes.map fun p => p.1.id).Nodup := by
    have := h.distinct
    rwa [List.map_map] at this
  have hmem : ∀ p ∈ nodes, p.1 ∈ nodes.map Prod.fst := fun p hp => List.mem_map.mpr ⟨p, hp, rfl⟩
  have hflags : FlagFrame (valueNodes (σ := σ) nodes) :=
    valueNodes_flags nodes hids fun p hp => h.separate p.1 (hmem p hp)
  rw [valueNodes_eq] at hflags ⊢
  refine ⟨hflags, ?_, ?_, ?_⟩
  · refine List.Nodup.of_map (fun n : NodeBase σ => n.id) ?_
    rw [List.map_map]
    exact hids
  · intro n hn
    obtain ⟨p, hp, rfl⟩ := List.mem_map.mp hn
    exact h.paths p.1 (hmem p hp)
  · have := h.order
    rw [List.pairwise_map] at this ⊢
    exact this

end valueNode

end Espbase.StackJson
