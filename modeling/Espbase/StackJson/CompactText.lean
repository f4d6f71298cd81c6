import Espbase.StackJson.ValueWrite

namespace Espbase.StackJson

open Espbase.Lib StackBuffer

/-- The tree obtained by inserting the non-omitted nodes one after the other. -/
def documentTree (nodes : List (NodeInfo × Value)) : List (Bytes × KeyTree Bytes Value) :=
  KeyTree.build (shown id nodes)

theorem documentText_eq (nodes : List (NodeInfo × Value)) :
    documentText nodes = objectText (KeyTree.mapOf Value.text (documentTree nodes)) := by
  have hmap : nodeTexts nodes = nodes.map fun p => (p.1, p.2.text) := by
    induction nodes with
    | nil => rfl
    | cons p nodes ih => simp [nodeTexts, ih]
  have hshown : shown id (nodes.map fun p => (p.1, p.2.text)) =
      (shown id nodes).map fun e => (e.1, e.2.text) := by
    simp only [shown, List.filter_map, List.map_map]
    rfl
  rw [documentText, Value.text, hmap, hshown, KeyTree.build_map]
  rfl

/-- Every non-omitted value is at exactly one leaf of the tree. -/
theorem documentTree_leaves (nodes : List (NodeInfo × Value)) (hpaths : ∀ p ∈ nodes, p.1.path ≠ []) :
    (KeyTree.leavesOf (documentTree nodes)).Perm
      ((nodes.filter fun p => !p.1.omitted).map Prod.snd) := by
  have hne : ∀ e ∈ shown id nodes, e.1 ≠ [] := by
    intro e he
    simp only [shown, List.mem_map, List.mem_filter] at he
    obtain ⟨p, ⟨hp, -⟩, rfl⟩ := he
    exact hpaths p hp
  have h := KeyTree.leavesOf_build (shown id nodes) hne
  simp only [shown, List.map_map] at h
  exact h

variable {maxSize : Nat}

theorem emitDocument_valid (nodes : List (NodeInfo × Value)) (hvalid : (Value.doc nodes).Valid)
    (st : StackEmission maxSize) (hw : st.buf.Within) :
    ∃ st' ok, emitDocument nodes st =
        some (st', if ok = true then st'.buf.head - st.buf.head else 0) ∧
      Emitted (plainNodes nodes = true) (nodeIds nodes) (documentChunks nodes) st st' ok :=
  emitDocument_emits nodes hvalid.1 (nodes_puts nodes hvalid.2) (List.Subset.refl _) st hw

/-- With room for its text, a document is appended whole and its length returned. -/
theorem emitDocument_fits (nodes : List (NodeInfo × Value)) (hvalid : (Value.doc nodes).Valid)
    (st : StackEmission maxSize) (hg : st.buf.bad = false)
    (hroom : st.buf.head + (documentText nodes).length ≤ maxSize) :
    ∃ st', emitDocument nodes st = some (st', (documentText nodes).length) ∧
      Appended st.buf (documentText nodes) st'.buf := by
  have hw : st.buf.Within := by
    simp only [Within]
    omega
  obtain ⟨st', ok, he, hem⟩ := emitDocument_valid nodes hvalid st hw
  obtain ⟨rfl, ha⟩ := hem.fits hg (by rw [documentChunks_flatten]; exact hroom)
  rw [documentChunks_flatten] at ha
  refine ⟨st', ?_, ha⟩
  rw [he, if_pos rfl, ha.head hw, Nat.add_sub_cancel_left]

/-- On an empty buffer with room for it, the text is the whole content. -/
theorem emitDocument_whole (nodes : List (NodeInfo × Value)) (hvalid : (Value.doc nodes).Valid)
    (emitted : Nat → Bool) (hroom : (documentText nodes).length ≤ maxSize) :
    ∃ st' n, emitDocument nodes ⟨StackBuffer.empty maxSize, emitted⟩ = some (st', n) ∧
      st'.buf.view = documentText nodes := by
  obtain ⟨st', he, ha⟩ := emitDocument_fits nodes hvalid ⟨StackBuffer.empty maxSize, emitted⟩ rfl
    ((Nat.zero_add _).trans_le hroom)
  exact ⟨st', _, he, ha.view⟩

/-- Emission appends the compact text of the tree of the non-omitted nodes, whatever flags earlier
emissions have left, and does so again when it is called again. -/
theorem emitDocument_appends_tree (nodes : List (NodeInfo × Value))
    (hvalid : (Value.doc nodes).Valid) (st : StackEmission maxSize)
    (hg : st.buf.bad = false) (hroom : st.buf.head + (documentText nodes).length ≤ maxSize) :
    ∃ st', emitDocument nodes st = some (st', (documentText nodes).length) ∧
      st'.buf.view = st.buf.view ++ documentText nodes ∧
      documentText nodes = objectText (KeyTree.mapOf Value.text (documentTree nodes)) ∧
      (KeyTree.leavesOf (documentTree nodes)).Perm
        ((nodes.filter fun p => !p.1.omitted).map Prod.snd) ∧
      (st.buf.head + 2 * (documentText nodes).length ≤ maxSize →
        ∃ st'', emitDocument nodes st' = some (st'', (documentText nodes).length) ∧
          st''.buf.view = st.buf.view ++ documentText nodes ++ documentText nodes) := by
  have hpaths : ∀ p ∈ nodes, p.1.path ≠ [] := fun p hp =>
    hvalid.1.paths p.1 (List.mem_map.mpr ⟨p, hp, rfl⟩)
  obtain ⟨st', he, ha⟩ := emitDocument_fits nodes hvalid st hg hroom
  refine ⟨st', he, ha.view, documentText_eq nodes, documentTree_leaves nodes hpaths, ?_⟩
  intro htwice
  have hw : st.buf.Within := by
    simp only [Within]
    omega
  have hh := ha.head hw
  obtain ⟨st'', he2, ha2⟩ := emitDocument_fits nodes hvalid st' (ha.bad.trans hg) (by omega)
  exact ⟨st'', he2, by rw [ha2.view, ha.view]⟩

/-- Two members of one object with another member and an omitted one between them. -/
def mergedPaths : List (NodeInfo × Value) :=
  [(⟨0, false, [bytes "config", bytes "retries"]⟩, .int ⟨⟨.w32, true⟩, 3, by decide, by decide⟩),
   (⟨1, false, [bytes "name"]⟩, .str (bytes "a\nb")),
   (⟨2, true, [bytes "config"]⟩, .null),
   (⟨3, false, [bytes "config", bytes "list"]⟩,
     .stackArray [.bool true, .doc [(⟨4, false, [bytes "x"]⟩, .cstr none)]])]

theorem mergedPaths_valid : (Value.doc mergedPaths).Valid := by
  refine ⟨⟨by decide, by decide, by decide, by decide⟩, ?_⟩
  refine ⟨trivial, trivial, trivial, ⟨trivial, ⟨⟨by decide, by decide, by decide, by decide⟩, ?_⟩,
    trivial⟩, trivial⟩
  exact ⟨trivial, trivial⟩

theorem emitDocument_appends_tree_mergedPaths :
    ∃ st' : Emission (StackBuffer 200),
      emitDocument mergedPaths ⟨StackBuffer.empty 200, fun _ => true⟩ = some (st', 63) ∧
        st'.buf.view =
          bytes "\x7b\"config\":\x7b\"retries\":3,\"list\":[true,\x7b\"x\":null\x7d]\x7d,\"name\":\"a\\nb\"\x7d" := by
  obtain ⟨st', he, hv, -⟩ := emitDocument_appends_tree mergedPaths mergedPaths_valid
    ⟨StackBuffer.empty 200, fun _ => true⟩ rfl (by decide)
  exact ⟨st', he, hv⟩

/-- On an empty buffer the failure flag tells exactly whether the text is too long; a text that fits
is the whole content, and no access leaves the array, the terminator's included. -/
theorem emitDocument_capacity (nodes : List (NodeInfo × Value)) (hvalid : (Value.doc nodes).Valid)
    (maxSize : Nat) (emitted : Nat → Bool) :
    ∃ st' n, emitDocument nodes ⟨StackBuffer.empty maxSize, emitted⟩ = some (st', n) ∧
      (st'.buf.bad = true ↔ maxSize < (documentText nodes).length) ∧
      ((documentText nodes).length ≤ maxSize → st'.buf.view = documentText nodes) ∧
      st'.buf.head ≤ maxSize ∧ (st'.buf.cStr).isSome = true := by
  have hw : (StackBuffer.empty maxSize).Within := Nat.zero_le _
  obtain ⟨st', ok, he, hem⟩ := emitDocument_valid nodes hvalid ⟨StackBuffer.empty maxSize, emitted⟩ hw
  have hlen : (StackBuffer.empty maxSize).head + (documentChunks nodes).flatten.length =
      (documentText nodes).length := by
    rw [documentChunks_flatten]
    exact Nat.zero_add _
  have hhead : st'.buf.head ≤ maxSize := hem.grows.within
  have hfit (hf : (documentText nodes).length ≤ maxSize) := (hem.fits rfl (hlen ▸ hf)).2
  refine ⟨st', _, he, ⟨?_, fun hm => (hem.misfit rfl (hlen ▸ hm)).1⟩, ?_, hhead, ?_⟩
  · intro hb
    by_contra hf
    rw [(hfit (Nat.le_of_not_lt hf)).bad] at hb
    cases hb
  · intro hf
    rw [(hfit hf).view, documentChunks_flatten]
    rfl
  · have hc : st'.buf.head + [(0 : UInt8)].length ≤ maxSize + 1 := Nat.succ_le_succ hhead
    rw [StackBuffer.cStr, StackBuffer.copyTo, dif_pos hc]
    rfl

theorem emitDocument_capacity_mergedPaths :
    ∃ st' n, emitDocument mergedPaths ⟨StackBuffer.empty 62, fun _ => false⟩ = some (st', n) ∧
      st'.buf.bad = true := by
  obtain ⟨st', n, he, hb, -⟩ :=
    emitDocument_capacity mergedPaths mergedPaths_valid 62 fun _ => false
  exact ⟨st', n, he, hb.mpr (by decide)⟩

end Espbase.StackJson
