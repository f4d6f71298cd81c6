import Espbase.StackJson.EmitNodes
import Espbase.StackJson.NumberWrite
import Espbase.StackJson.PrinterWrite

namespace Espbase.StackJson

open Espbase.Lib StackBuffer

section items
variable {α β : Type} (f : α → β)

theorem map_sepItems (first : Bool) : (sepItems first).map (Item.map f) = sepItems first := by
  cases first <;> rfl

mutual
theorem map_treeItems : (t : KeyTree Bytes α) → (treeItems t).map (Item.map f) = treeItems (t.map f)
  | .leaf _ => rfl
  | .node ms => by
    have h := map_memberItems true ms
    simp [treeItems, KeyTree.map, Item.map, h]

theorem map_memberItems (first : Bool) : (ms : List (Bytes × KeyTree Bytes α)) →
    (memberItems first ms).map (Item.map f) = memberItems first (KeyTree.mapOf f ms)
  | [] => rfl
  | (k, t) :: ms => by
    have ht := map_treeItems t
    have hms := map_memberItems false ms
    simp [memberItems, KeyTree.mapOf, Item.map, ht, hms, map_sepItems]
end

end items

mutual
/-- Whether the value holds no print callback. -/
def Value.plain : Value → Bool
  | .stackArray elements => plainElements elements
  | .spanArray elements => plainElements elements
  | .streamArray _ elements => plainElements elements
  | .print _ => false
  | .doc nodes => plainNodes nodes
  | _ => true

def plainElements : List Value → Bool
  | [] => true
  | v :: elements => v.plain && plainElements elements

def plainNodes : List (NodeInfo × Value) → Bool
  | [] => true
  | (_, v) :: nodes => v.plain && plainNodes nodes
end

variable {maxSize : Nat}

section scalars
variable {clean : Prop} {ids : List Nat}

theorem drop_eq (r : Option (StackEmission maxSize × Bool)) :
    (r.bind fun x => some x.1) = r.map Prod.fst := by cases r <;> rfl

theorem put_puts (str : Bytes) (hne : str ≠ []) :
    Puts clean ids [str] fun st : StackEmission maxSize => st.put str := by
  have h : Emits clean ids [str] fun st : StackEmission maxSize => st.write str :=
    write_emits str hne
  intro st hw
  obtain ⟨st', he, hem⟩ := h.drop st hw
  exact ⟨st', (drop_eq _).trans he, hem⟩

theorem putEscaped_puts (str : Bytes) :
    Puts clean ids (stringChunks str) fun st : StackEmission maxSize => st.putEscaped str := by
  have h : Emits clean ids (stringChunks str) fun st : StackEmission maxSize => st.writeEscaped str :=
    writeEscaped_emits str
  intro st hw
  obtain ⟨st', he, hem⟩ := h.drop st hw
  exact ⟨st', (drop_eq _).trans he, hem⟩

theorem putInteger_puts (n : Integer) :
    Puts clean ids [signedDecimal n.val] fun st : StackEmission maxSize => st.putInteger n := by
  intro st hw
  cases hg : st.buf.bad with
  | true =>
    exact ⟨st, by simp [Emission.putInteger, writeInteger_bad st.buf n hg],
      Emitted.of_bad hw hg (Grows.refl _ hw) fun _ _ => rfl⟩
  | false =>
    obtain ⟨b', ok, he, hs⟩ := writeInteger_sent st.buf n hw hg
    have hem : Emitted clean ids [signedDecimal n.val] st { st with buf := b' } ok :=
      Emitted.of_sent hw hs rfl
    exact ⟨{ st with buf := b' }, by simp [Emission.putInteger, he], hem.within, hem.grows, hem.flags,
      fun hb hf => ⟨rfl, (hem.fits hb hf).2⟩, hem.misfit⟩

theorem putSeparator_puts (first : Bool) :
    Puts clean ids (if first then [] else [[ch ',']])
      fun st : StackEmission maxSize => putSeparator first st := by
  cases first
  · exact put_puts [ch ','] (by simp)
  · exact fun st hw => ⟨st, rfl, Emitted.nil hw⟩

theorem separator_emits (first : Bool) :
    Emits clean ids (if first then [] else [[ch ',']])
      fun st : StackEmission maxSize => separator first st := by
  cases first
  · exact write_emits [ch ','] (by simp)
  · exact fun st hw => ⟨st, true, rfl, Emitted.nil hw⟩

theorem bracket_puts (l r : Bytes) (hl : l ≠ []) (hr : r ≠ []) (ws : List Bytes)
    (e : StackEmission maxSize → Option (StackEmission maxSize))
    (he : Puts clean ids ws e) :
    Puts clean ids ([l] ++ (ws ++ [r])) fun st =>
      (st.put l).bind fun st => (e st).bind fun st => st.put r :=
  (put_puts l hl).bind (he.bind (put_puts r hr))

/-- One `emit` of a streaming callback; it reports whether the buffer is still sound. -/
theorem emitElement_emits (first : Bool) (ws : List Bytes)
    (e : StackEmission maxSize → Option (StackEmission maxSize))
    (he : Puts clean ids ws e) (st : StackEmission maxSize) (hw : st.buf.Within) :
    ∃ st1 first1, emitElement e first st = some (st1, first1, !st1.buf.bad) ∧
      Emitted clean ids ((if first then [] else [[ch ',']]) ++ ws) st st1 true ∧
      (st1.buf.bad = false → first1 = false) := by
  unfold emitElement
  have hbuf (st : StackEmission maxSize) : Buffer.bad st.buf = st.buf.bad := rfl
  simp only [hbuf]
  cases hg : st.buf.bad with
  | true =>
    exact ⟨st, first, by simp [hg], Emitted.of_bad hw hg (Grows.refl _ hw) (fun _ _ => rfl),
      by simp [hg]⟩
  | false =>
    have hsep : Emits clean ids _ fun st : StackEmission maxSize => _ := separator_emits first
    obtain ⟨st1, ok, h1, hem1⟩ := hsep st hw
    cases ok with
    | false =>
      have hb : st1.buf.bad = true := by
        by_contra hb
        have hm : ¬ st.buf.head + (if first then [] else [[ch ',']]).flatten.length ≤ maxSize :=
          fun hf => Bool.false_ne_true (hem1.fits hg hf).1
        exact hb (hem1.misfit hg (Nat.lt_of_not_le hm)).1
      refine ⟨st1, false, by simp [h1, hb], ?_, fun _ => rfl⟩
      exact hem1.after_bad hb (Grows.refl _ hem1.grows.within) (fun _ _ => rfl) ws true
    | true =>
      obtain ⟨st2, h2, hem2⟩ := he st1 hem1.grows.within
      exact ⟨st2, false, by simp [h1, h2], hem1.trans hem2, fun _ => rfl⟩

theorem printLoop_bad (texts : List Bytes) (st : StackEmission maxSize)
    (hg : st.buf.bad = true) : printLoop texts st = some st := by
  induction texts with
  | nil => rfl
  | cons text texts ih => simp [printLoop, vprint_bad st.buf text hg, ih]

/-- The prints of a callback append their escaped texts, or stop with room for at most one byte less
than they need. -/
theorem printLoop_spec (texts : List Bytes) (st : StackEmission maxSize)
    (hw : st.buf.Within) (hg : st.buf.bad = false) :
    ∃ st', printLoop texts st = some st' ∧ st'.emitted = st.emitted ∧
      (Appended st.buf (texts.map escape).flatten st'.buf ∨
        (Grows st.buf st'.buf ∧ st'.buf.bad = true ∧
          maxSize ≤ st.buf.head + (texts.map escape).flatten.length)) := by
  induction texts generalizing st with
  | nil => exact ⟨st, rfl, rfl, .inl (Appended.nil _ hw)⟩
  | cons text texts ih =>
    have hlen : ((text :: texts).map escape).flatten.length =
        (escape text).length + (texts.map escape).flatten.length := by simp
    obtain ⟨b1, n, h1, ha | ⟨hw1, hv1, hb1, hroom⟩⟩ := vprint_spec st.buf text hw hg
    · obtain ⟨st2, h2, hf2, hrest⟩ := ih { st with buf := b1 } ha.within (ha.bad.trans hg)
      have hh := ha.head hw
      refine ⟨st2, by simp [printLoop, h1, h2], hf2, ?_⟩
      rcases hrest with ha2 | ⟨hgr, hb2, hroom⟩
      · exact .inl (ha.trans ha2)
      · refine .inr ⟨ha.grows.trans hgr, hb2, ?_⟩
        change maxSize ≤ b1.head + _ at hroom
        omega
    · have hstop : printLoop texts { st with buf := b1 } = some { st with buf := b1 } :=
        printLoop_bad texts _ hb1
      refine ⟨{ st with buf := b1 }, by simp [printLoop, h1, hstop], rfl, .inr ⟨?_, hb1, by omega⟩⟩
      exact ⟨hw1, hv1 ▸ List.prefix_rfl, fun _ => hb1⟩

/-- A print callback with its closing quote. -/
theorem printLoop_puts (texts : List Bytes) (hclean : ¬ clean) :
    Puts clean ids (texts.map escape ++ [[ch '"']]) fun st : StackEmission maxSize =>
      (printLoop texts st).bind fun st => st.put [ch '"'] := by
  have hquote : Puts clean ids [[ch '"']] fun st : StackEmission maxSize => st.put [ch '"'] :=
    put_puts _ (by simp)
  intro st hw
  cases hg : st.buf.bad with
  | true =>
    obtain ⟨st2, h2, hem2⟩ := hquote st hw
    exact ⟨st2, by simp [printLoop_bad texts st hg, h2],
      Emitted.of_bad hw hg hem2.grows hem2.flags⟩
  | false =>
    obtain ⟨st1, h1, hf1, hcase⟩ := printLoop_spec texts st hw hg
    have hw1 : st1.buf.Within := by
      rcases hcase with ha | ⟨hgr, -, -⟩
      · exact ha.within
      · exact hgr.within
    obtain ⟨st2, h2, hem2⟩ := hquote st1 hw1
    refine ⟨st2, by simp [h1, h2], ?_⟩
    rcases hcase with ha | ⟨hgr, hb, hroom⟩
    · have hh := ha.head hw
      have hin : st1.buf.head ≤ maxSize := ha.within
      have hem1 : Emitted clean ids (texts.map escape) st st1 true :=
        ⟨hw, ha.grows, fun id _ => by rw [hf1], fun _ _ => ⟨rfl, ha⟩, fun _ hm => by omega⟩
      exact hem1.trans hem2
    · have hlen : (texts.map escape ++ [[ch '"']]).flatten.length =
          (texts.map escape).flatten.length + 1 := by simp
      refine ⟨hw, hgr.trans hem2.grows, fun id hid => by rw [hem2.flags id hid, hf1], ?_, ?_⟩
      · intro _ hf
        omega
      · exact fun _ _ => ⟨hem2.grows.bad hb, fun hc => absurd hc hclean⟩

end scalars

section document
variable {clean : Prop} {ids : List Nat}

/-- The nodes of a document, each with the writes of its value. -/
def valuePairs (maxSize : Nat) (nodes : List (NodeInfo × Value)) :
    List (NodeInfo × NodeBase (StackBuffer maxSize) × List Bytes) :=
  nodes.map fun p => (p.1, valueNode p.1 p.2, p.2.chunks)

def pairTree (maxSize : Nat) (nodes : List (NodeInfo × Value)) :
    KeyTree Bytes (NodeBase (StackBuffer maxSize) × List Bytes) :=
  .node (KeyTree.build (shown id (valuePairs maxSize nodes)))

theorem nodeChunks_eq (nodes : List (NodeInfo × Value)) :
    nodeChunks nodes = nodes.map fun p => (p.1, p.2.chunks) := by
  induction nodes with
  | nil => rfl
  | cons p nodes ih => simp [nodeChunks, ih]

/-- The document writes the items of its tree. -/
theorem pairTree_fst (nodes : List (NodeInfo × Value)) :
    (treeItems (pairTree maxSize nodes)).map (Item.map Prod.fst) =
      treeItems (.node (KeyTree.build (shownNodes (valueNodes nodes)))) := by
  have h : shownNodes (valueNodes nodes) =
      (shown id (valuePairs maxSize nodes)).map fun e => (e.1, e.2.1) := by
    simp only [shownNodes, shown, valuePairs, valueNodes_eq, List.filter_map, List.map_map]
    rfl
  rw [map_treeItems, h, KeyTree.build_map]
  rfl

theorem pairTree_snd (nodes : List (NodeInfo × Value)) :
    (treeItems (pairTree maxSize nodes)).map (Item.map Prod.snd) =
      objectItems (nodeChunks nodes) := by
  have h : shown id (nodeChunks nodes) =
      (shown id (valuePairs maxSize nodes)).map fun e => (e.1, e.2.2) := by
    simp only [shown, valuePairs, nodeChunks_eq, List.filter_map, List.map_map]
    rfl
  rw [map_treeItems, objectItems, h, KeyTree.build_map]
  rfl

theorem pairTree_values (nodes : List (NodeInfo × Value)) (hpaths : ∀ p ∈ nodes, p.1.path ≠ [])
    (x : NodeBase (StackBuffer maxSize) × List Bytes)
    (hx : x ∈ itemValues (treeItems (pairTree maxSize nodes))) :
    ∃ p ∈ nodes, x = (valueNode p.1 p.2, p.2.chunks) := by
  have hne : ∀ e ∈ shown id (valuePairs maxSize nodes), e.1 ≠ [] := by
    intro e he
    simp only [shown, valuePairs, List.mem_map, List.mem_filter] at he
    obtain ⟨_, ⟨⟨p, hp, rfl⟩, -⟩, rfl⟩ := he
    exact hpaths p hp
  rw [itemValues_treeItems, pairTree, KeyTree.leaves, (KeyTree.leavesOf_build _ hne).mem_iff] at hx
  simp only [shown, valuePairs, List.mem_map, List.mem_filter] at hx
  obtain ⟨_, ⟨_, ⟨⟨p, hp, rfl⟩, -⟩, rfl⟩, rfl⟩ := hx
  exact ⟨p, hp, rfl⟩

/-- A node emits the writes of its value. -/
theorem valueNode_puts (n : NodeInfo) (v : Value) (hn : n.id ∈ ids)
    (hv : Puts clean ids v.chunks fun st : StackEmission maxSize => writeJsonValue v st) :
    Puts clean ids v.chunks (valueNode (σ := StackBuffer maxSize) n v).emitValue := by
  intro st hw
  obtain ⟨st1, h1, hem⟩ := hv st hw
  refine ⟨st1.onEmit n.id, by simp [valueNode, h1], hem.within, hem.grows, ?_, hem.fits, hem.misfit⟩
  intro id hid
  have hne : id ≠ n.id := fun he => hid (by rw [he]; exact hn)
  rw [← hem.flags id hid]
  exact if_neg hne

theorem pairTree_puts (nodes : List (NodeInfo × Value)) (hpaths : ∀ p ∈ nodes, p.1.path ≠ [])
    (hvalues : ∀ p ∈ nodes,
      Puts clean ids p.2.chunks fun st : StackEmission maxSize => writeJsonValue p.2 st)
    (hids : nodeIds nodes ⊆ ids) :
    ∀ x ∈ itemValues (treeItems (pairTree maxSize nodes)), Puts clean ids x.2 x.1.emitValue := by
  intro x hx
  obtain ⟨p, hp, rfl⟩ := pairTree_values nodes hpaths x hx
  exact valueNode_puts p.1 p.2 (hids (mem_nodeIds nodes p hp)) (hvalues p hp)

/-- A document with nodes is written item by item. -/
theorem emitDocument_eq (nodes : List (NodeInfo × Value)) (hne : nodes ≠ [])
    (hlayout : Layout (nodes.map Prod.fst) (innerIds nodes)) (hids : nodeIds nodes ⊆ ids)
    (st : StackEmission maxSize) :
    ∃ st0 : StackEmission maxSize, st0.buf = st.buf ∧
      (∀ id ∉ ids, st0.emitted id = st.emitted id) ∧
      emitDocument nodes st = written st.buf.head
        (runItems ((treeItems (pairTree maxSize nodes)).map (Item.map Prod.fst)) st0) := by
  have hne' : valueNodes (σ := StackBuffer maxSize) nodes ≠ [] := by
    simpa [valueNodes_eq] using hne
  obtain ⟨st0, hbuf, hflags, heq⟩ := emitJsonNodes_eq (valueNodes nodes)
    (valueNodes_emittable nodes hlayout) hne' st
  refine ⟨st0, hbuf, fun id hid => hflags id fun hm => hid (hids ?_), ?_⟩
  · rw [valueNodes_eq, List.map_map] at hm
    obtain ⟨p, hp, rfl⟩ := List.mem_map.mp hm
    exact mem_nodeIds nodes p hp
  · rw [pairTree_fst]
    exact heq

theorem documentChunks_cons (maxSize : Nat) (nodes : List (NodeInfo × Value)) (hne : nodes ≠ []) :
    documentChunks nodes =
      itemChunks ((treeItems (pairTree maxSize nodes)).map (Item.map Prod.snd)) := by
  have : ¬ (nodeChunks nodes).isEmpty = true := by simpa [nodeChunks_eq] using hne
  rw [pairTree_snd]
  exact if_neg this

/-- The empty document is one write. -/
theorem emitDocument_nil (st : StackEmission maxSize) (hw : st.buf.Within) :
    ∃ st' ok, emitDocument [] st =
        some (st', if ok = true then st'.buf.head - st.buf.head else 0) ∧
      st'.emitted = st.emitted ∧ Sent st.buf (documentChunks []) st'.buf ok := by
  by_cases h : st.buf.head + [ch '{', ch '}'].length ≤ maxSize
  · obtain ⟨b', he, ha⟩ := write_fits st.buf [ch '{', ch '}'] h
    have hn : b'.head - st.buf.head = 2 := by
      rw [ha.head hw]
      simp
    refine ⟨{ st with buf := b' }, true, ?_, rfl, .all h ha⟩
    simp only [emitDocument, valueNodes, emitJsonNodes, List.isEmpty_nil, if_true, he, hn]
    rfl
  · have hm := Nat.lt_of_not_le h
    refine ⟨{ st with buf := st.buf.fail }, false, ?_, rfl, .cut hm ⟨hw, ?_, rfl⟩⟩
    · simp only [emitDocument, valueNodes, emitJsonNodes, List.isEmpty_nil, if_true,
        write_misfit st.buf _ hm]
      rfl
    · have hhead : st.buf.head ≤ maxSize := hw
      have hchunks : documentChunks [] = [[ch '{', ch '}']] := rfl
      rw [hchunks, fitted, if_neg (by omega), List.append_nil, fail_view]

/-- What `emit_json_nodes` does to a stack buffer: it emits the writes of the document, with their
number as the result unless a write of its own failed. -/
theorem emitDocument_emits (nodes : List (NodeInfo × Value))
    (hlayout : Layout (nodes.map Prod.fst) (innerIds nodes))
    (hvalues : ∀ p ∈ nodes,
      Puts clean ids p.2.chunks fun st : StackEmission maxSize => writeJsonValue p.2 st)
    (hids : nodeIds nodes ⊆ ids) (st : StackEmission maxSize) (hw : st.buf.Within) :
    ∃ st' ok, emitDocument nodes st =
        some (st', if ok = true then st'.buf.head - st.buf.head else 0) ∧
      Emitted clean ids (documentChunks nodes) st st' ok := by
  by_cases hne : nodes = []
  · subst hne
    obtain ⟨st', ok, he, hflags, hs⟩ := emitDocument_nil st hw
    exact ⟨st', ok, he, Emitted.of_sent hw hs hflags⟩
  · have hpaths : ∀ p ∈ nodes, p.1.path ≠ [] := fun p hp =>
      hlayout.paths p.1 (List.mem_map.mpr ⟨p, hp, rfl⟩)
    obtain ⟨st0, hbuf, hflags, heq⟩ := emitDocument_eq nodes hne hlayout hids st
    obtain ⟨st', ok, he, hem⟩ := runItems_emits (treeItems (pairTree maxSize nodes))
      (pairTree_puts nodes hpaths hvalues hids) st0 (by rw [hbuf]; exact hw)
    refine ⟨st', ok, by rw [heq, he]; rfl, ?_⟩
    obtain ⟨-, hgrows, hf0, hfits, hmisfit⟩ := hem
    rw [hbuf] at hgrows hfits hmisfit
    rw [documentChunks_cons maxSize nodes hne]
    exact ⟨hw, hgrows, fun id hid => (hf0 id hid).trans (hflags id hid), hfits, hmisfit⟩

end document

section stream
variable {clean : Prop} {ids : List Nat}

/-- A streaming callback that goes on with `k` after its first element. -/
theorem streamStep_puts (breaks first : Bool) (ws : List Bytes) (rest : Bool → List Bytes)
    (e : StackEmission maxSize → Option (StackEmission maxSize))
    (k : Bool → StackEmission maxSize → Option (StackEmission maxSize))
    (he : Puts clean ids ws e) (hk : ∀ first, Puts clean ids (rest first) (k first)) :
    Puts clean ids ((if first then [] else [[ch ',']]) ++ (ws ++ rest false)) fun st =>
      (emitElement e first st).bind fun x =>
        if breaks && !x.2.2 then some x.1 else k x.2.1 x.1 := by
  intro st hw
  obtain ⟨st1, first1, h1, hem, hfirst⟩ := emitElement_emits first ws e he st hw
  rw [← List.append_assoc]
  cases hb : st1.buf.bad with
  | false =>
    obtain ⟨st2, h2, hem2⟩ := hk first1 st1 hem.grows.within
    rw [hfirst hb] at h2 hem2
    exact ⟨st2, by simp [h1, hb, hfirst hb, h2], hem.trans hem2⟩
  | true =>
    obtain ⟨st2, h2, hem2⟩ := hk first1 st1 hem.grows.within
    cases breaks with
    | true =>
      exact ⟨st1, by simp [h1, hb],
        hem.after_bad hb (Grows.refl _ hem.grows.within) (fun _ _ => rfl) _ true⟩
    | false => exact ⟨st2, by simp [h1, h2], hem.after_bad hb hem2.grows hem2.flags _ true⟩

end stream

mutual
/-- Every value emits its writes, wherever the room ends. -/
theorem writeJsonValue_puts : (v : Value) → v.Valid →
    Puts (v.plain = true) v.ids v.chunks fun st : StackEmission maxSize => writeJsonValue v st
  | .null, _ => put_puts _ (by decide)
  | .bool value, _ => put_puts _ (by cases value <;> decide)
  | .int value, _ => putInteger_puts value
  | .str value, _ => putEscaped_puts value
  | .cstr none, _ => put_puts _ (by decide)
  | .cstr (some value), _ => putEscaped_puts _
  | .stackArray elements, h =>
    bracket_puts _ _ (by simp) (by simp) _ _ (elementLoop_puts elements h true)
  | .spanArray elements, h =>
    bracket_puts _ _ (by simp) (by simp) _ _ (elementLoop_puts elements h true)
  | .streamArray breaks elements, h =>
    bracket_puts _ _ (by simp) (by simp) _ _ (streamLoop_puts breaks elements h true)
  | .print texts, _ => (put_puts [ch '"'] (by simp)).bind (printLoop_puts texts (by simp [Value.plain]))
  | .doc nodes, h => by
    intro st hw
    obtain ⟨st', ok, he, hem⟩ := emitDocument_emits nodes h.1 (nodes_puts nodes h.2)
      (List.Subset.refl _) st hw
    refine ⟨st', ?_, hem.within, hem.grows, hem.flags, fun hg hf => ⟨rfl, (hem.fits hg hf).2⟩,
      hem.misfit⟩
    change ((emitDocument nodes st).bind fun x => some x.1) = _
    rw [he]
    rfl

theorem elementLoop_puts : (elements : List Value) → ValidElements elements → (first : Bool) →
    Puts (plainElements elements = true) (elementIds elements)
      (separated first (elementChunks elements)) fun st : StackEmission maxSize => elementLoop elements first st
  | [], _, _ => fun st hw => ⟨st, rfl, Emitted.nil hw⟩
  | v :: elements, h, first => by
    have hv : Puts (plainElements (v :: elements) = true) (elementIds (v :: elements)) v.chunks
        fun st : StackEmission maxSize => writeJsonValue v st := (writeJsonValue_puts v h.1).mono
      (fun hc => ((Bool.and_eq_true _ _).mp hc).1) (List.subset_append_left _ _)
    have hrest : Puts (plainElements (v :: elements) = true) (elementIds (v :: elements)) _
        fun st : StackEmission maxSize => _ := (elementLoop_puts elements h.2 false).mono
      (fun hc => ((Bool.and_eq_true _ _).mp hc).2) (List.subset_append_right _ _)
    exact (putSeparator_puts first).bind (hv.bind hrest)

theorem streamLoop_puts (breaks : Bool) : (elements : List Value) → ValidElements elements →
    (first : Bool) →
    Puts (plainElements elements = true) (elementIds elements)
      (separated first (elementChunks elements)) fun st : StackEmission maxSize => streamLoop breaks elements first st
  | [], _, _ => fun st hw => ⟨st, rfl, Emitted.nil hw⟩
  | v :: elements, h, first => by
    have hv : Puts (plainElements (v :: elements) = true) (elementIds (v :: elements)) v.chunks
        fun st : StackEmission maxSize => writeJsonValue v st := (writeJsonValue_puts v h.1).mono
      (fun hc => ((Bool.and_eq_true _ _).mp hc).1) (List.subset_append_left _ _)
    have hrest (first : Bool) : Puts (plainElements (v :: elements) = true)
        (elementIds (v :: elements)) _ fun st : StackEmission maxSize => _ :=
      (streamLoop_puts breaks elements h.2 first).mono
      (fun hc => ((Bool.and_eq_true _ _).mp hc).2) (List.subset_append_right _ _)
    exact streamStep_puts breaks first v.chunks _ _ _ hv hrest

theorem nodes_puts : (nodes : List (NodeInfo × Value)) → ValidNodes nodes → ∀ p ∈ nodes,
    Puts (plainNodes nodes = true) (nodeIds nodes) p.2.chunks
      fun st : StackEmission maxSize => writeJsonValue p.2 st
  | [], _ => fun p hp => nomatch hp
  | (n, v) :: nodes, h => by
    intro p hp
    rcases List.mem_cons.mp hp with rfl | hp
    · exact (writeJsonValue_puts v h.1).mono
        (fun hc => ((Bool.and_eq_true _ _).mp hc).1) (fun i hi => by simp [nodeIds, hi])
    · exact (nodes_puts nodes h.2 p hp).mono
        (fun hc => ((Bool.and_eq_true _ _).mp hc).2) (fun i hi => by simp [nodeIds, hi])
end

end Espbase.StackJson
