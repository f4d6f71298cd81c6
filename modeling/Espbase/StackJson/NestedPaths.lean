import Espbase.Lib.KeyTreeGraft
import Espbase.StackJson.CompactText

namespace Espbase.StackJson

open Espbase.Lib

/-- A node of a document that is the value of another node, with the path from outside. -/
def NodeInfo.within (outer inner : NodeInfo) : NodeInfo :=
  ⟨inner.id, outer.omitted || inner.omitted, outer.path ++ inner.path⟩

def anyShown (nodes : List (NodeInfo × Value)) : Bool := nodes.any fun p => !p.1.omitted

mutual
/-- A node with its value, or the nodes of the document that is its value. An empty document stays. -/
def Value.inlined (n : NodeInfo) : Value → List (NodeInfo × Value)
  | .doc nodes =>
    if anyShown nodes then (inlinedNodes nodes).map fun p => (n.within p.1, p.2) else [(n, .doc nodes)]
  | v => [(n, v)]

/-- The nodes with paths in the place of nested documents. -/
def inlinedNodes : List (NodeInfo × Value) → List (NodeInfo × Value)
  | [] => []
  | (n, v) :: nodes => v.inlined n ++ inlinedNodes nodes
end

/-- The entries that a value stands for, relative to its node. -/
def Value.entries : Value → List (List Bytes × Value)
  | .doc nodes => if anyShown nodes then shown id (inlinedNodes nodes) else [([], .doc nodes)]
  | v => [([], v)]

def Value.tree : Value → KeyTree Bytes Value
  | .doc nodes => if anyShown nodes then .node (documentTree (inlinedNodes nodes)) else .leaf (.doc nodes)
  | v => .leaf v

mutual
/-- In the document and in those nested in it no path is empty, and no shown one is the beginning of
another. -/
def Value.Nested : Value → Prop
  | .doc nodes => (∀ p ∈ nodes, p.1.path ≠ []) ∧ KeyTree.PrefixFree (shown id nodes) ∧ NestedNodes nodes
  | v => v.Valid

def NestedNodes : List (NodeInfo × Value) → Prop
  | [] => True
  | (_, v) :: nodes => v.Nested ∧ NestedNodes nodes
end

section entries

theorem shown_append (nodes nodes' : List (NodeInfo × Value)) :
    shown id (nodes ++ nodes') = shown id nodes ++ shown id nodes' := by
  simp [shown]

theorem shown_within (n : NodeInfo) (nodes : List (NodeInfo × Value)) :
    shown id (nodes.map fun p => (n.within p.1, p.2)) =
      if n.omitted then [] else (shown id nodes).map fun e => (n.path ++ e.1, e.2) := by
  cases hn : n.omitted <;> simp [shown, NodeInfo.within, hn, List.filter_map, Function.comp_def]

theorem shown_value (n : NodeInfo) (v : Value) :
    shown id (v.inlined n) = if n.omitted then [] else v.entries.map fun e => (n.path ++ e.1, e.2) := by
  have hone (v : Value) : shown id [(n, v)] =
      if n.omitted then [] else [(([] : List Bytes), v)].map fun e => (n.path ++ e.1, e.2) := by
    cases hn : n.omitted <;> simp [shown, hn]
  cases v with
  | doc nodes =>
    rw [Value.inlined, Value.entries]
    split_ifs with hshown hn
    · rw [shown_within, if_pos hn]
    · rw [shown_within, if_neg hn]
    · rw [hone, if_pos ‹_›]
    · rw [hone, if_neg ‹_›]
  | _ => exact hone _

theorem shown_inlinedNodes (nodes : List (NodeInfo × Value)) :
    shown id (inlinedNodes nodes) = KeyTree.spread Value.entries (shown id nodes) := by
  induction nodes with
  | nil => rfl
  | cons p nodes ih =>
    obtain ⟨n, v⟩ := p
    rw [inlinedNodes, shown_append, ih, shown_value]
    cases hn : n.omitted with
    | true =>
      have hcons : shown id ((n, v) :: nodes) = shown id nodes := by simp [shown, hn]
      rw [hcons]
      rfl
    | false =>
      have hcons : shown id ((n, v) :: nodes) = (n.path, v) :: shown id nodes := by simp [shown, hn]
      rw [hcons, KeyTree.spread_cons]
      rfl

theorem mem_shown_id (nodes : List (NodeInfo × Value)) (e : List Bytes × Value) (h : e ∈ shown id nodes) :
    ∃ p ∈ nodes, p.1.omitted = false ∧ (p.1.path, p.2) = e := by
  simp only [shown, List.mem_map, List.mem_filter, Bool.not_eq_true'] at h
  obtain ⟨p, ⟨hp, ho⟩, he⟩ := h
  exact ⟨p, hp, ho, he⟩

theorem anyShown_iff (nodes : List (NodeInfo × Value)) : anyShown nodes = true ↔ shown id nodes ≠ [] := by
  simp [anyShown, shown]

end entries

section text

mutual
/-- Trees in the place of leaves do not change the text when each has the text of its leaf. -/
theorem graft_text (f : Value → KeyTree Bytes Value) : (t : KeyTree Bytes Value) →
    (∀ v ∈ t.leaves, treeText ((f v).map Value.text) = v.text) →
    treeText ((t.graft f).map Value.text) = treeText (t.map Value.text)
  | .leaf v, h => h v (List.mem_singleton_self v)
  | .node ms, h => by
    rw [KeyTree.graft, KeyTree.map, KeyTree.map, treeText, treeText, graftOf_text f ms h]

theorem graftOf_text (f : Value → KeyTree Bytes Value) : (ms : List (Bytes × KeyTree Bytes Value)) →
    (∀ v ∈ KeyTree.leavesOf ms, treeText ((f v).map Value.text) = v.text) →
    memberTexts (KeyTree.mapOf Value.text (KeyTree.graftOf f ms)) = memberTexts (KeyTree.mapOf Value.text ms)
  | [], _ => rfl
  | (k, t) :: ms, h => by
    rw [KeyTree.graftOf, KeyTree.mapOf, KeyTree.mapOf, memberTexts, memberTexts,
      graft_text f t fun v hv => h v (List.mem_append_left _ hv),
      graftOf_text f ms fun v hv => h v (List.mem_append_right _ hv)]
end

/-- The entries of a value make its tree, and the tree has the text of the value. -/
structure Value.Spelled (v : Value) : Prop where
  makes : KeyTree.Makes v.entries v.tree
  free : KeyTree.PrefixFree v.entries
  text : treeText (v.tree.map Value.text) = v.text

theorem spelled_alone (v : Value) (he : v.entries = [([], v)]) (ht : v.tree = .leaf v) : v.Spelled where
  makes := by
    rw [he, ht]
    exact .value v
  free := by
    rw [he]
    exact List.pairwise_singleton _ _
  text := by
    rw [ht]
    rfl

/-- Nodes that can be spelled with paths. -/
structure Spellable (nodes : List (NodeInfo × Value)) : Prop where
  paths : ∀ p ∈ nodes, p.1.path ≠ []
  free : KeyTree.PrefixFree (shown id nodes)
  values : ∀ p ∈ nodes, p.2.Spelled

section document
variable {nodes : List (NodeInfo × Value)}

theorem Spellable.entry (h : Spellable nodes) (e : List Bytes × Value) (he : e ∈ shown id nodes) :
    e.1 ≠ [] ∧ e.2.Spelled := by
  obtain ⟨p, hp, -, rfl⟩ := mem_shown_id nodes e he
  exact ⟨h.paths p hp, h.values p hp⟩

/-- The tree of the nodes with long paths is the tree of the document with trees in the place of its
values. -/
theorem Spellable.tree (h : Spellable nodes) :
    documentTree (inlinedNodes nodes) = KeyTree.graftOf Value.tree (documentTree nodes) := by
  rw [documentTree, shown_inlinedNodes]
  exact KeyTree.build_spread Value.tree Value.entries _ (fun e he => (h.entry e he).2.makes)
    (fun e he => (h.entry e he).1) h.free

theorem Spellable.text (h : Spellable nodes) : documentText (inlinedNodes nodes) = documentText nodes := by
  rw [documentText_eq, documentText_eq, h.tree, objectText, objectText, treeText, treeText, graftOf_text]
  intro v hv
  obtain ⟨p, hp, rfl⟩ := List.mem_map.mp ((documentTree_leaves nodes h.paths).mem_iff.mp hv)
  exact (h.values p (List.mem_of_mem_filter hp)).text

theorem Spellable.spelled (h : Spellable nodes) : (Value.doc nodes).Spelled := by
  cases hany : anyShown nodes with
  | false =>
    apply spelled_alone
    · rw [Value.entries, hany]
      rfl
    · rw [Value.tree, hany]
      rfl
  | true =>
    have hentries : (Value.doc nodes).entries = shown id (inlinedNodes nodes) := by
      rw [Value.entries, hany]
      rfl
    have htree : (Value.doc nodes).tree = .node (documentTree (inlinedNodes nodes)) := by
      rw [Value.tree, hany]
      rfl
    refine ⟨?_, ?_, ?_⟩
    · rw [hentries, htree]
      refine .members ?_ ?_
      · obtain ⟨e, es, he⟩ := List.exists_cons_of_ne_nil ((anyShown_iff nodes).mp hany)
        have hmakes := (h.entry e (by rw [he]; simp)).2.makes
        rw [shown_inlinedNodes, he, KeyTree.spread_cons]
        exact List.append_ne_nil_of_left_ne_nil (mt List.map_eq_nil_iff.mp hmakes.ne_nil) _
      · rw [shown_inlinedNodes]
        intro e he
        obtain ⟨e', he', e'', -, rfl⟩ := (KeyTree.mem_spread _ _ e).mp he
        exact List.append_ne_nil_of_left_ne_nil (h.entry e' he').1 _
    · rw [hentries, shown_inlinedNodes]
      exact h.free.spread _ fun e he => (h.entry e he).2.free
    · rw [htree, KeyTree.map, treeText]
      exact (documentText_eq _).symm.trans h.text

end document

mutual
theorem Value.Nested.spelled : (v : Value) → v.Nested → v.Spelled
  | .doc nodes, h => Spellable.spelled ⟨h.1, h.2.1, NestedNodes.spelled nodes h.2.2⟩
  | .null, _ | .bool _, _ | .int _, _ | .str _, _ | .cstr _, _ | .stackArray _, _ | .spanArray _, _
  | .streamArray _ _, _ | .print _, _ => spelled_alone _ rfl rfl

theorem NestedNodes.spelled : (nodes : List (NodeInfo × Value)) → NestedNodes nodes → ∀ p ∈ nodes, p.2.Spelled
  | [], _ => nofun
  | (_, v) :: nodes, h => List.forall_mem_cons.mpr ⟨Value.Nested.spelled v h.1, NestedNodes.spelled nodes h.2⟩
end

end text

section valid

theorem nodeIds_append (nodes nodes' : List (NodeInfo × Value)) :
    nodeIds (nodes ++ nodes') = nodeIds nodes ++ nodeIds nodes' := by
  induction nodes with
  | nil => rfl
  | cons p nodes ih => simp [nodeIds, ih]

theorem nodeIds_within (n : NodeInfo) (nodes : List (NodeInfo × Value)) :
    nodeIds (nodes.map fun p => (n.within p.1, p.2)) = nodeIds nodes := by
  induction nodes with
  | nil => rfl
  | cons p nodes ih =>
    rw [List.map_cons, nodeIds, nodeIds, ih]
    rfl

theorem nodeIds_alone (n : NodeInfo) (v : Value) : nodeIds [(n, v)] = n.id :: v.ids := by
  rw [nodeIds, nodeIds, List.append_nil]

mutual
/-- No node object is there twice that was not before. -/
theorem Value.inlined_ids (n : NodeInfo) : (v : Value) → (nodeIds (v.inlined n)).Sublist (n.id :: v.ids)
  | .doc nodes => by
    rw [Value.inlined]
    split_ifs
    · rw [nodeIds_within]
      exact (inlinedNodes_ids nodes).cons _
    · rw [nodeIds_alone]
  | .null | .bool _ | .int _ | .str _ | .cstr _ | .stackArray _ | .spanArray _ | .streamArray _ _
  | .print _ => (nodeIds_alone n _).symm ▸ .refl _

theorem inlinedNodes_ids : (nodes : List (NodeInfo × Value)) →
    (nodeIds (inlinedNodes nodes)).Sublist (nodeIds nodes)
  | [] => .refl _
  | (n, v) :: nodes => by
    rw [inlinedNodes, nodeIds_append, nodeIds]
    exact (Value.inlined_ids n v).append (inlinedNodes_ids nodes)
end

theorem nodeIds_perm (nodes : List (NodeInfo × Value)) :
    (nodeIds nodes).Perm (nodes.map (fun p => p.1.id) ++ innerIds nodes) := by
  induction nodes with
  | nil => rfl
  | cons p nodes ih =>
    rw [nodeIds, List.map_cons, innerIds, List.cons_append]
    refine .cons _ ((ih.append_left _).trans ?_)
    rw [← List.append_assoc, ← List.append_assoc]
    exact List.perm_append_comm.append_right _

variable {nodes : List (NodeInfo × Value)}

/-- Distinct node objects with prefix-free paths have a proper layout. -/
theorem layout_of_nodup (hids : (nodeIds nodes).Nodup) (hpaths : ∀ p ∈ nodes, p.1.path ≠ [])
    (hfree : KeyTree.PrefixFree (shown id nodes)) : Layout (nodes.map Prod.fst) (innerIds nodes) := by
  obtain ⟨hdistinct, -, hapart⟩ := List.nodup_append.mp ((nodeIds_perm nodes).nodup_iff.mp hids)
  have hpairs : nodes.Pairwise fun p q => p.1.omitted = false → q.1.omitted = false →
      ¬ p.1.path <+: q.1.path ∧ ¬ q.1.path <+: p.1.path := by
    unfold KeyTree.PrefixFree shown at hfree
    rw [List.pairwise_map, List.pairwise_filter] at hfree
    refine hfree.imp fun {p q} hpq hp hq => ?_
    exact hpq (by simp [hp]) (by simp [hq])
  refine ⟨?_, ?_, ?_, order_of_prefixFree _ (List.pairwise_map.mpr hpairs)⟩
  · rw [List.map_map]
    exact hdistinct
  · intro n hn hin
    obtain ⟨p, hp, rfl⟩ := List.mem_map.mp hn
    exact hapart _ (List.mem_map.mpr ⟨p, hp, rfl⟩) _ hin rfl
  · intro n hn
    obtain ⟨p, hp, rfl⟩ := List.mem_map.mp hn
    exact hpaths p hp

theorem validNodes_append {nodes' : List (NodeInfo × Value)} (h : ValidNodes nodes) (h' : ValidNodes nodes') :
    ValidNodes (nodes ++ nodes') := by
  induction nodes with
  | nil => exact h'
  | cons p nodes ih => exact ⟨h.1, ih h.2⟩

theorem validNodes_within (n : NodeInfo) (h : ValidNodes nodes) :
    ValidNodes (nodes.map fun p => (n.within p.1, p.2)) := by
  induction nodes with
  | nil => trivial
  | cons p nodes ih => exact ⟨h.1, ih h.2⟩

theorem NestedNodes.nodup_cons {n : NodeInfo} {v : Value} (h : (nodeIds ((n, v) :: nodes)).Nodup) :
    v.ids.Nodup ∧ (nodeIds nodes).Nodup := by
  rw [nodeIds, List.nodup_cons, List.nodup_append] at h
  exact ⟨h.2.1, h.2.2.1⟩

mutual
theorem Value.Nested.valid : (v : Value) → v.Nested → v.ids.Nodup → v.Valid
  | .doc nodes, h, hids => ⟨layout_of_nodup hids h.1 h.2.1, NestedNodes.valid nodes h.2.2 hids⟩
  | .null, h, _ | .bool _, h, _ | .int _, h, _ | .str _, h, _ | .cstr _, h, _ | .stackArray _, h, _
  | .spanArray _, h, _ | .streamArray _ _, h, _ | .print _, h, _ => h

theorem NestedNodes.valid : (nodes : List (NodeInfo × Value)) → NestedNodes nodes → (nodeIds nodes).Nodup →
    ValidNodes nodes
  | [], _, _ => trivial
  | (_, v) :: nodes, h, hids =>
    ⟨Value.Nested.valid v h.1 (NestedNodes.nodup_cons hids).1,
      NestedNodes.valid nodes h.2 (NestedNodes.nodup_cons hids).2⟩
end

mutual
theorem Value.Nested.inlined (n : NodeInfo) : (v : Value) → v.Nested → v.ids.Nodup → ValidNodes (v.inlined n)
  | .doc nodes, h, hids => by
    rw [Value.inlined]
    split_ifs
    · exact validNodes_within n (NestedNodes.inlined nodes h.2.2 hids)
    · exact ⟨Value.Nested.valid (.doc nodes) h hids, trivial⟩
  | .null, h, _ | .bool _, h, _ | .int _, h, _ | .str _, h, _ | .cstr _, h, _ | .stackArray _, h, _
  | .spanArray _, h, _ | .streamArray _ _, h, _ | .print _, h, _ => ⟨h, trivial⟩

theorem NestedNodes.inlined : (nodes : List (NodeInfo × Value)) → NestedNodes nodes → (nodeIds nodes).Nodup →
    ValidNodes (inlinedNodes nodes)
  | [], _, _ => trivial
  | (n, v) :: nodes, h, hids =>
    validNodes_append (Value.Nested.inlined n v h.1 (NestedNodes.nodup_cons hids).1)
      (NestedNodes.inlined nodes h.2 (NestedNodes.nodup_cons hids).2)
end

theorem mem_inlinedNodes (p : NodeInfo × Value) (h : p ∈ inlinedNodes nodes) :
    ∃ q ∈ nodes, p ∈ q.2.inlined q.1 := by
  induction nodes with
  | nil => cases h
  | cons q nodes ih =>
    rw [inlinedNodes, List.mem_append] at h
    rcases h with h | h
    · exact ⟨q, by simp, h⟩
    · obtain ⟨q', hq', h⟩ := ih h
      exact ⟨q', by simp [hq'], h⟩

theorem Value.inlined_path (n : NodeInfo) (v : Value) (p : NodeInfo × Value) (h : p ∈ v.inlined n) :
    n.path <+: p.1.path := by
  cases v with
  | doc nodes =>
    rw [Value.inlined] at h
    split_ifs at h
    · obtain ⟨p', -, rfl⟩ := List.mem_map.mp h
      exact List.prefix_append _ _
    · obtain rfl := List.mem_singleton.mp h
      exact List.prefix_refl _
  | _ =>
    obtain rfl := List.mem_singleton.mp h
    exact List.prefix_refl _

/-- With paths in the place of the nested documents the document is as valid as before. -/
theorem nested_inlined_valid (h : (Value.doc nodes).Nested) (hids : (nodeIds nodes).Nodup) :
    (Value.doc (inlinedNodes nodes)).Valid := by
  have hspelled := NestedNodes.spelled nodes h.2.2
  refine ⟨layout_of_nodup (hids.sublist (inlinedNodes_ids nodes)) ?_ ?_, NestedNodes.inlined nodes h.2.2 hids⟩
  · intro p hp
    obtain ⟨q, hq, hin⟩ := mem_inlinedNodes p hp
    exact fun hnil => h.1 q hq (List.prefix_nil.mp (hnil ▸ q.2.inlined_path q.1 p hin))
  · rw [shown_inlinedNodes]
    refine h.2.1.spread _ fun e he => ?_
    obtain ⟨p, hp, -, rfl⟩ := mem_shown_id nodes e he
    exact (hspelled p hp).free

mutual
/-- Only empty documents stay. -/
theorem Value.inlined_empty (n : NodeInfo) : (v : Value) → ∀ p ∈ v.inlined n, ∀ inner, p.2 = .doc inner →
    anyShown inner = false
  | .doc nodes, p, hp, inner, hdoc => by
    rw [Value.inlined] at hp
    split_ifs at hp with hany
    · obtain ⟨p', hp', rfl⟩ := List.mem_map.mp hp
      exact inlinedNodes_empty nodes p' hp' inner hdoc
    · rw [List.mem_singleton.mp hp] at hdoc
      rw [← Value.doc.inj hdoc]
      exact eq_false_of_ne_true hany
  | .null, p, hp, inner, hdoc | .bool _, p, hp, inner, hdoc | .int _, p, hp, inner, hdoc
  | .str _, p, hp, inner, hdoc | .cstr _, p, hp, inner, hdoc | .stackArray _, p, hp, inner, hdoc
  | .spanArray _, p, hp, inner, hdoc | .streamArray _ _, p, hp, inner, hdoc | .print _, p, hp, inner, hdoc => by
    rw [List.mem_singleton.mp hp] at hdoc
    cases hdoc

theorem inlinedNodes_empty : (nodes : List (NodeInfo × Value)) → ∀ p ∈ inlinedNodes nodes,
    ∀ inner, p.2 = .doc inner → anyShown inner = false
  | [], _, hp => nomatch hp
  | (n, v) :: nodes, p, hp => by
    rw [inlinedNodes, List.mem_append] at hp
    rcases hp with hp | hp
    · exact Value.inlined_empty n v p hp
    · exact inlinedNodes_empty nodes p hp
end

end valid

section emission
variable {maxSize : Nat}

/-- The buffer fails exactly when the text does not fit, and otherwise ends with the text. -/
theorem emitDocument_ends (nodes : List (NodeInfo × Value)) (hvalid : (Value.doc nodes).Valid)
    (b : StackBuffer maxSize) (hg : b.bad = false) (hw : b.Within) (emitted : Nat → Bool) :
    ∃ st n, emitDocument nodes ⟨b, emitted⟩ = some (st, n) ∧
      (st.buf.bad = true ↔ maxSize < b.head + (documentText nodes).length) ∧
      (st.buf.bad = false → n = (documentText nodes).length ∧ st.buf.view = b.view ++ documentText nodes) := by
  by_cases hroom : b.head + (documentText nodes).length ≤ maxSize
  · obtain ⟨st, he, ha⟩ := emitDocument_fits nodes hvalid ⟨b, emitted⟩ hg hroom
    refine ⟨st, _, he, ?_, fun _ => ⟨rfl, ha.view⟩⟩
    rw [ha.bad, hg]
    exact iff_of_false Bool.false_ne_true (Nat.not_lt.mpr hroom)
  · have hlong : maxSize < b.head + (documentText nodes).length := Nat.not_le.mp hroom
    obtain ⟨st, ok, he, hem⟩ := emitDocument_valid nodes hvalid ⟨b, emitted⟩ hw
    have hbad := (hem.misfit hg (by rw [documentChunks_flatten]; exact hlong)).1
    refine ⟨st, _, he, iff_of_true hbad hlong, fun hgood => ?_⟩
    rw [hbad] at hgood
    cases hgood

/-- Nested documents and nested paths are two ways to write one document: with paths in the place of all
documents that are not empty the same bytes are emitted, and the buffer fails in the same cases. -/
theorem nested_paths (nodes : List (NodeInfo × Value)) (h : (Value.doc nodes).Nested)
    (hids : (nodeIds nodes).Nodup) (b : StackBuffer maxSize) (hg : b.bad = false) (hw : b.Within)
    (emitted emitted' : Nat → Bool) :
    (∀ p ∈ inlinedNodes nodes, ∀ inner, p.2 = .doc inner → anyShown inner = false) ∧
    ∃ st n st' n', emitDocument nodes ⟨b, emitted⟩ = some (st, n) ∧
      emitDocument (inlinedNodes nodes) ⟨b, emitted'⟩ = some (st', n') ∧
      st.buf.bad = st'.buf.bad ∧ (st.buf.bad = true ↔ maxSize < b.head + (documentText nodes).length) ∧
      (st.buf.bad = false → n = n' ∧ st.buf.view = st'.buf.view ∧ st.buf.view = b.view ++ documentText nodes) := by
  have htext := Spellable.text ⟨h.1, h.2.1, NestedNodes.spelled nodes h.2.2⟩
  obtain ⟨st, n, he, hbad, hgood⟩ := emitDocument_ends nodes (Value.Nested.valid (.doc nodes) h hids) b hg hw emitted
  obtain ⟨st', n', he', hbad', hgood'⟩ :=
    emitDocument_ends (inlinedNodes nodes) (nested_inlined_valid h hids) b hg hw emitted'
  rw [htext] at hbad' hgood'
  have hsame : st.buf.bad = st'.buf.bad := Bool.eq_iff_iff.mpr (hbad.trans hbad'.symm)
  refine ⟨inlinedNodes_empty nodes, st, n, st', n', he, he', hsame, hbad, fun hb => ?_⟩
  obtain ⟨hn, hv⟩ := hgood hb
  obtain ⟨hn', hv'⟩ := hgood' (hsame ▸ hb)
  exact ⟨hn.trans hn'.symm, hv.trans hv'.symm, hv⟩

end emission

/-- A document in a document, an empty one, and one that is omitted. -/
def deviceInfo : List (NodeInfo × Value) :=
  [(⟨0, false, [bytes "net"]⟩, .doc
      [(⟨1, false, [bytes "wifi", bytes "up"]⟩, .bool true),
       (⟨2, false, [bytes "ntp"]⟩, .doc [(⟨3, false, [bytes "on"]⟩, .bool false), (⟨4, true, [bytes "off"]⟩, .null)])]),
   (⟨5, false, [bytes "extra"]⟩, .doc []),
   (⟨6, true, [bytes "old"]⟩, .doc [(⟨7, false, [bytes "a"]⟩, .null)])]

theorem deviceInfo_nested : (Value.doc deviceInfo).Nested := by
  refine ⟨by decide, by decide,
    ⟨by decide, by decide, trivial, ⟨by decide, by decide, trivial, trivial, trivial⟩, trivial⟩,
    ⟨by decide, by decide, trivial⟩, ⟨by decide, by decide, trivial, trivial⟩, trivial⟩

theorem nested_paths_deviceInfo :
    (inlinedNodes deviceInfo).map (fun p => p.1.path) =
        [[bytes "net", bytes "wifi", bytes "up"], [bytes "net", bytes "ntp", bytes "on"],
          [bytes "net", bytes "ntp", bytes "off"], [bytes "extra"], [bytes "old", bytes "a"]] ∧
      ∃ st n st' n', emitDocument deviceInfo ⟨StackBuffer.empty 60, fun _ => false⟩ = some (st, n) ∧
        emitDocument (inlinedNodes deviceInfo) ⟨StackBuffer.empty 60, fun _ => true⟩ = some (st', n') ∧
        st.buf.view = st'.buf.view ∧
        st.buf.view = bytes
          "\x7b\"net\":\x7b\"wifi\":\x7b\"up\":true\x7d,\"ntp\":\x7b\"on\":false\x7d\x7d,\"extra\":\x7b\x7d\x7d" := by
  obtain ⟨-, st, n, st', n', he, he', -, hbad, hgood⟩ := nested_paths deviceInfo deviceInfo_nested (by decide)
    (StackBuffer.empty 60) rfl (Nat.zero_le _) (fun _ => false) fun _ => true
  obtain ⟨-, hsame, hview⟩ := hgood (eq_false_of_ne_true (mt hbad.mp (by decide)))
  exact ⟨by decide, st, n, st', n', he, he', hsame, hview⟩

end Espbase.StackJson
