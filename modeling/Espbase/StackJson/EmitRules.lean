import Espbase.StackJson.CompactText

namespace Espbase.StackJson

open Espbase.Lib

section pieces

/-- One call that an emission makes on its buffer: a write, an escaped string, an integer, or a print
callback with its quotes. -/
inductive Piece where
  | mark (str : Bytes)
  | quoted (str : Bytes)
  | integer (n : Integer)
  | printed (texts : List Bytes)

/-- The writes that a piece is made of. -/
def Piece.chunks : Piece → List Bytes
  | .mark str => [str]
  | .quoted str => stringChunks str
  | .integer n => [signedDecimal n.val]
  | .printed texts => [[ch '"']] ++ (texts.map escape ++ [[ch '"']])

def piecesText (ps : List Piece) : Bytes := (ps.flatMap Piece.chunks).flatten

theorem piecesText_append (ps qs : List Piece) :
    piecesText (ps ++ qs) = piecesText ps ++ piecesText qs := by
  simp [piecesText]

def separatorPieces (first : Bool) : List Piece := if first then [] else [.mark [ch ',']]

def separatedPieces : Bool → List (List Piece) → List Piece
  | _, [] => []
  | first, ps :: rest => separatorPieces first ++ (ps ++ separatedPieces false rest)

def arrayPieces (elements : List (List Piece)) : List Piece :=
  [.mark [ch '[']] ++ (separatedPieces true elements ++ [.mark [ch ']']])

def Item.pieces : Item (List Piece) → List Piece
  | .punct c => [.mark [c]]
  | .key k => [.quoted k]
  | .value ps => ps

def objectPieces (nodes : List (NodeInfo × List Piece)) : List Piece :=
  if nodes.isEmpty then [.mark [ch '{', ch '}']]
  else (treeItems (.node (KeyTree.build (shown id nodes)))).flatMap Item.pieces

mutual
/-- The pieces that a value is emitted in, in order. -/
def Value.pieces : Value → List Piece
  | .null => [.mark (bytes "null")]
  | .bool value => [.mark (if value then bytes "true" else bytes "false")]
  | .int value => [.integer value]
  | .str value => [.quoted value]
  | .cstr none => [.mark (bytes "null")]
  | .cstr (some value) => [.quoted (cString value)]
  | .stackArray elements => arrayPieces (elementPieces elements)
  | .spanArray elements => arrayPieces (elementPieces elements)
  | .streamArray _ elements => arrayPieces (elementPieces elements)
  | .print texts => [.printed texts]
  | .doc nodes => objectPieces (nodePieces nodes)

def elementPieces : List Value → List (List Piece)
  | [] => []
  | v :: elements => v.pieces :: elementPieces elements

def nodePieces : List (NodeInfo × Value) → List (NodeInfo × List Piece)
  | [] => []
  | (n, v) :: nodes => (n, v.pieces) :: nodePieces nodes
end

def documentPieces (nodes : List (NodeInfo × Value)) : List Piece := (Value.doc nodes).pieces

theorem nodePieces_eq (nodes : List (NodeInfo × Value)) :
    nodePieces nodes = nodes.map fun p => (p.1, p.2.pieces) := by
  induction nodes with
  | nil => rfl
  | cons p nodes ih => simp [nodePieces, ih]

theorem separatedPieces_subset (elements : List (List Piece)) :
    separatedPieces true elements ⊆ separatedPieces false elements := by
  cases elements with
  | nil => exact List.Subset.refl _
  | cons ps rest => exact List.subset_append_right _ _

theorem separatedPieces_chunks (first : Bool) (elements : List (List Piece)) :
    (separatedPieces first elements).flatMap Piece.chunks =
      separated first (elements.map fun ps => ps.flatMap Piece.chunks) := by
  induction elements generalizing first with
  | nil => rfl
  | cons ps rest ih => cases first <;> simp [separatedPieces, separatorPieces, separated, ih, Piece.chunks]

theorem arrayPieces_chunks (elements : List (List Piece)) :
    (arrayPieces elements).flatMap Piece.chunks =
      arrayChunks (elements.map fun ps => ps.flatMap Piece.chunks) := by
  simp [arrayPieces, arrayChunks, separatedPieces_chunks, Piece.chunks]

theorem itemPieces_chunks (its : List (Item (List Piece))) :
    (its.flatMap Item.pieces).flatMap Piece.chunks =
      itemChunks (its.map (Item.map fun ps => ps.flatMap Piece.chunks)) := by
  induction its with
  | nil => rfl
  | cons it its ih =>
    have hone : it.pieces.flatMap Piece.chunks =
        (it.map fun ps => ps.flatMap Piece.chunks).chunks := by
      cases it <;> simp [Item.pieces, Item.map, Item.chunks, Piece.chunks]
    rw [List.flatMap_cons, List.flatMap_append, hone, ih]
    rfl

theorem objectPieces_chunks (nodes : List (NodeInfo × List Piece)) :
    (objectPieces nodes).flatMap Piece.chunks =
      objectChunks (nodes.map fun p => (p.1, p.2.flatMap Piece.chunks)) := by
  have hempty : (nodes.map fun p => (p.1, p.2.flatMap Piece.chunks)).isEmpty = nodes.isEmpty := by
    cases nodes <;> rfl
  rw [objectPieces, objectChunks, hempty]
  split_ifs
  · rfl
  · have hshown : shown id (nodes.map fun p => (p.1, p.2.flatMap Piece.chunks)) =
        (shown id nodes).map fun e => (e.1, e.2.flatMap Piece.chunks) := by
      simp only [shown, List.filter_map, List.map_map]
      rfl
    rw [itemPieces_chunks, map_treeItems, objectItems, hshown,
      KeyTree.build_map fun ps : List Piece => ps.flatMap Piece.chunks]
    rfl

mutual
/-- The pieces of a value are made of its writes. -/
theorem Value.pieces_chunks : (v : Value) → v.pieces.flatMap Piece.chunks = v.chunks
  | .null => rfl
  | .bool value => by simp [Value.pieces, Value.chunks, Piece.chunks]
  | .int value => by simp [Value.pieces, Value.chunks, Piece.chunks]
  | .str value => by simp [Value.pieces, Value.chunks, Piece.chunks]
  | .cstr none => rfl
  | .cstr (some value) => by simp [Value.pieces, Value.chunks, Piece.chunks]
  | .stackArray elements => (arrayPieces_chunks _).trans (congrArg _ (elementPieces_chunks elements))
  | .spanArray elements => (arrayPieces_chunks _).trans (congrArg _ (elementPieces_chunks elements))
  | .streamArray _ elements => (arrayPieces_chunks _).trans (congrArg _ (elementPieces_chunks elements))
  | .print texts => by simp [Value.pieces, Value.chunks, Piece.chunks]
  | .doc nodes => (objectPieces_chunks _).trans (congrArg _ (nodePieces_chunks nodes))

theorem elementPieces_chunks : (elements : List Value) →
    ((elementPieces elements).map fun ps => ps.flatMap Piece.chunks) = elementChunks elements
  | [] => rfl
  | v :: elements => by
    rw [elementPieces, List.map_cons, v.pieces_chunks, elementPieces_chunks elements, elementChunks]

theorem nodePieces_chunks : (nodes : List (NodeInfo × Value)) →
    ((nodePieces nodes).map fun p => (p.1, p.2.flatMap Piece.chunks)) = nodeChunks nodes
  | [] => rfl
  | (n, v) :: nodes => by
    rw [nodePieces, List.map_cons, v.pieces_chunks, nodePieces_chunks nodes, nodeChunks]
end

theorem documentPieces_text (nodes : List (NodeInfo × Value)) :
    piecesText (documentPieces nodes) = documentText nodes := by
  rw [piecesText, documentPieces, Value.pieces_chunks]
  exact documentChunks_flatten nodes

end pieces

section tree

/-- The tree of the non-omitted nodes with their values. -/
def entryTree (nodes : List (NodeInfo × Value)) : KeyTree Bytes (NodeInfo × Value) :=
  .node (KeyTree.build (shown id (nodes.map fun p => (p.1, p))))

theorem entryTree_nodes {σ : Type} [Buffer σ] (nodes : List (NodeInfo × Value)) :
    (treeItems (entryTree nodes)).map (Item.map fun p => valueNode (σ := σ) p.1 p.2) =
      treeItems (.node (KeyTree.build (shownNodes (valueNodes nodes)))) := by
  have h : shownNodes (valueNodes (σ := σ) nodes) =
      (shown id (nodes.map fun p => (p.1, p))).map fun e => (e.1, valueNode e.2.1 e.2.2) := by
    simp only [shownNodes, shown, valueNodes_eq, List.filter_map, List.map_map]
    rfl
  rw [map_treeItems, h, KeyTree.build_map fun p : NodeInfo × Value => valueNode p.1 p.2]
  rfl

theorem entryTree_pieces (nodes : List (NodeInfo × Value)) (hne : nodes ≠ []) :
    documentPieces nodes =
      ((treeItems (entryTree nodes)).map (Item.map fun p => p.2.pieces)).flatMap Item.pieces := by
  have hempty : ¬ (nodePieces nodes).isEmpty = true := by simpa [nodePieces_eq] using hne
  have h : shown id (nodePieces nodes) =
      (shown id (nodes.map fun p => (p.1, p))).map fun e => (e.1, e.2.2.pieces) := by
    simp only [shown, nodePieces_eq, List.filter_map, List.map_map]
    rfl
  rw [map_treeItems, documentPieces, Value.pieces, objectPieces, if_neg hempty, h,
    KeyTree.build_map fun p : NodeInfo × Value => p.2.pieces]
  rfl

theorem entryTree_values (nodes : List (NodeInfo × Value)) (hpaths : ∀ p ∈ nodes, p.1.path ≠ [])
    (p : NodeInfo × Value) (hp : p ∈ itemValues (treeItems (entryTree nodes))) : p ∈ nodes := by
  have hne : ∀ e ∈ shown id (nodes.map fun p => (p.1, p)), e.1 ≠ [] := by
    intro e he
    simp only [shown, List.mem_map, List.mem_filter] at he
    obtain ⟨_, ⟨⟨p, hp, rfl⟩, -⟩, rfl⟩ := he
    exact hpaths p hp
  rw [itemValues_treeItems, entryTree, KeyTree.leaves, (KeyTree.leavesOf_build _ hne).mem_iff] at hp
  simp only [shown, List.mem_map, List.mem_filter] at hp
  obtain ⟨_, ⟨_, ⟨⟨p, hp, rfl⟩, -⟩, rfl⟩, rfl⟩ := hp
  exact hp

mutual
/-- No mark between the values of a tree is a quote. -/
theorem punct_treeItems {α : Type} : (t : KeyTree Bytes α) → ∀ c, Item.punct c ∈ treeItems t → c ≠ ch '"'
  | .leaf a => by simp [treeItems]
  | .node ms => by
    intro c hc
    simp only [treeItems, List.mem_cons, List.mem_append, List.not_mem_nil, or_false,
      Item.punct.injEq] at hc
    rcases hc with rfl | hc | rfl
    · decide
    · exact punct_memberItems true ms c hc
    · decide

theorem punct_memberItems {α : Type} (first : Bool) : (ms : List (Bytes × KeyTree Bytes α)) →
    ∀ c, Item.punct c ∈ memberItems first ms → c ≠ ch '"'
  | [] => by simp [memberItems]
  | (k, t) :: ms => by
    intro c hc
    simp only [memberItems, List.mem_cons, List.mem_append, Item.punct.injEq, reduceCtorEq,
      false_or] at hc
    rcases hc with hc | rfl | hc | hc
    · cases first
      · obtain rfl : c = ch ',' := by simpa [sepItems] using hc
        decide
      · simp [sepItems] at hc
    · decide
    · exact punct_treeItems t c hc
    · exact punct_memberItems false ms c hc
end

end tree

section plain

/-- What holds of marks and quoted strings, and of the pieces of the elements, holds of an array's. -/
theorem forall_arrayPieces {P : Piece → Prop} (hmark : ∀ str, P (.mark str)) (elements : List (List Piece))
    (h : ∀ ps ∈ elements, ∀ p ∈ ps, P p) : ∀ p ∈ arrayPieces elements, P p := by
  have hsep (first : Bool) : ∀ p ∈ separatedPieces first elements, P p := by
    induction elements generalizing first with
    | nil => exact fun p hp => nomatch hp
    | cons ps rest ih =>
      intro p hp
      rw [separatedPieces, List.mem_append, List.mem_append] at hp
      rcases hp with hp | hp | hp
      · cases first with
        | true => cases hp
        | false =>
          rw [List.mem_singleton.mp hp]
          exact hmark _
      · exact h ps (by simp) p hp
      · exact ih (fun qs hq => h qs (List.mem_cons_of_mem _ hq)) false p hp
  intro p hp
  rw [arrayPieces, List.mem_append, List.mem_append, List.mem_singleton, List.mem_singleton] at hp
  rcases hp with rfl | hp | rfl
  · exact hmark _
  · exact hsep true p hp
  · exact hmark _

theorem forall_documentPieces {P : Piece → Prop} (hmark : ∀ str, P (.mark str))
    (hquoted : ∀ str, P (.quoted str)) (nodes : List (NodeInfo × Value))
    (hpaths : ∀ p ∈ nodes, p.1.path ≠ []) (h : ∀ q ∈ nodes, ∀ p ∈ q.2.pieces, P p) :
    ∀ p ∈ documentPieces nodes, P p := by
  intro p hp
  by_cases hne : nodes = []
  · subst hne
    rw [List.mem_singleton.mp hp]
    exact hmark _
  · rw [entryTree_pieces nodes hne, List.flatMap_map] at hp
    obtain ⟨it, hit, hp⟩ := List.mem_flatMap.mp hp
    cases it with
    | punct c =>
      rw [List.mem_singleton.mp hp]
      exact hmark _
    | key k =>
      rw [List.mem_singleton.mp hp]
      exact hquoted _
    | value q =>
      refine h q (entryTree_values nodes hpaths q ?_) p hp
      obtain ⟨as, bs, heq⟩ := List.append_of_mem hit
      rw [heq, itemValues_append]
      simp [itemValues]

mutual
/-- A value without print callbacks prints nothing. -/
theorem Value.plain_pieces : (v : Value) → v.Valid → v.plain = true →
    ∀ p ∈ v.pieces, ∀ texts, p ≠ Piece.printed texts
  | .null, _, _ => by simp [Value.pieces]
  | .bool _, _, _ => by simp [Value.pieces]
  | .int _, _, _ => by simp [Value.pieces]
  | .str _, _, _ => by simp [Value.pieces]
  | .cstr none, _, _ => by simp [Value.pieces]
  | .cstr (some _), _, _ => by simp [Value.pieces]
  | .stackArray elements, h, hp =>
    forall_arrayPieces (by simp) _ (elementPieces_plain elements h hp)
  | .spanArray elements, h, hp =>
    forall_arrayPieces (by simp) _ (elementPieces_plain elements h hp)
  | .streamArray _ elements, h, hp =>
    forall_arrayPieces (by simp) _ (elementPieces_plain elements h hp)
  | .print _, _, hp => by cases hp
  | .doc nodes, h, hp =>
    forall_documentPieces (by simp) (by simp) nodes
      (fun p hp => h.1.paths p.1 (List.mem_map.mpr ⟨p, hp, rfl⟩)) (nodePieces_plain nodes h.2 hp)

theorem elementPieces_plain : (elements : List Value) → ValidElements elements →
    plainElements elements = true → ∀ ps ∈ elementPieces elements, ∀ p ∈ ps, ∀ texts,
      p ≠ Piece.printed texts
  | [], _, _ => by simp [elementPieces]
  | v :: elements, h, hp => by
    obtain ⟨hv, hrest⟩ := (Bool.and_eq_true _ _).mp hp
    intro ps hps
    rcases List.mem_cons.mp hps with rfl | hps
    · exact v.plain_pieces h.1 hv
    · exact elementPieces_plain elements h.2 hrest ps hps

theorem nodePieces_plain : (nodes : List (NodeInfo × Value)) → ValidNodes nodes →
    plainNodes nodes = true → ∀ q ∈ nodes, ∀ p ∈ q.2.pieces, ∀ texts, p ≠ Piece.printed texts
  | [], _, _ => by simp
  | (_, v) :: nodes, h, hp => by
    obtain ⟨hv, hrest⟩ := (Bool.and_eq_true _ _).mp hp
    intro q hq
    rcases List.mem_cons.mp hq with rfl | hq
    · exact v.plain_pieces h.1 hv
    · exact nodePieces_plain nodes h.2 hrest q hq
end

end plain

section rules
variable {σ : Type}

/-- The buffer after an emission, with its result. -/
def bufs (r : Option (Emission σ × Bool)) : Option (σ × Bool) := r.map fun r => (r.1.buf, r.2)

/-- A void emission as one that succeeds. -/
def voided (r : Option (Emission σ)) : Option (Emission σ × Bool) := r.map fun st => (st, true)

variable [Buffer σ]

/-- What can be said of an emission when it holds of each call on the buffer, of a sequence when it holds
of the parts, and does not depend on the flags of the nodes. -/
structure EmitRules (σ : Type) [Buffer σ] where
  Emits : List Piece → (Emission σ → Option (Emission σ × Bool)) → Prop
  nil : Emits [] fun st => some (st, true)
  next {ps qs : List Piece} {e k : Emission σ → Option (Emission σ × Bool)} (he : Emits ps e)
    (hk : Emits qs k) : Emits (ps ++ qs) fun st => andThen (e st) k
  drop {ps : List Piece} {e : Emission σ → Option (Emission σ × Bool)} (he : Emits ps e) :
    Emits ps fun st => (e st).map fun r => (r.1, true)
  flags {ps : List Piece} {e e' : Emission σ → Option (Emission σ × Bool)} (he : Emits ps e)
    (hsame : ∀ st, ∃ emitted, bufs (e' st) = bufs (e ⟨st.buf, emitted⟩)) : Emits ps e'
  mark (str : Bytes) (hne : str ≠ []) (hquote : ch '"' ∉ str) : Emits [.mark str] fun st => st.write str
  quoted (str : Bytes) : Emits [.quoted str] fun st => st.writeEscaped str
  integer (n : Integer) : Emits [.integer n] fun st => voided (st.putInteger n)
  printed (texts : List Bytes) : Emits [.printed texts] fun st =>
    voided ((st.put [ch '"']).bind fun st => (printLoop texts st).bind fun st => st.put [ch '"'])
  stream {ps : List Piece} (breaks first : Bool) (rest : Bool → List Piece)
    {e : Emission σ → Option (Emission σ)} {k : Bool → Emission σ → Option (Emission σ)}
    (hsub : rest true ⊆ rest false) (he : Emits ps fun st => voided (e st))
    (hk : ∀ first, Emits (rest first) fun st => voided (k first st)) :
    Emits (separatorPieces first ++ (ps ++ rest false)) fun st =>
      voided ((emitElement e first st).bind fun x =>
        if breaks && !x.2.2 then some x.1 else k x.2.1 x.1)

namespace EmitRules
variable (R : EmitRules σ)

/-- The same of an emission through void calls. -/
def Puts (ps : List Piece) (e : Emission σ → Option (Emission σ)) : Prop :=
  R.Emits ps fun st => voided (e st)

variable {R} {ps qs : List Piece}

theorem Puts.bind {e k : Emission σ → Option (Emission σ)} (he : R.Puts ps e) (hk : R.Puts qs k) :
    R.Puts (ps ++ qs) fun st => (e st).bind k := by
  have h := R.next he hk
  have heq : (fun st => voided ((e st).bind k)) =
      fun st => andThen (voided (e st)) fun st => voided (k st) := by
    funext st
    cases e st <;> rfl
  rw [Puts, heq]
  exact h

/-- A call whose result is dropped. -/
theorem Puts.of_emits {e : Emission σ → Option (Emission σ × Bool)} (he : R.Emits ps e) :
    R.Puts ps fun st => (e st).bind fun r => some r.1 := by
  have heq : (fun st => voided ((e st).bind fun r => some r.1)) =
      fun st => (e st).map fun r => (r.1, true) := by
    funext st
    cases e st <;> rfl
  rw [Puts, heq]
  exact R.drop he

variable (R)

theorem put (str : Bytes) (hne : str ≠ []) (hquote : ch '"' ∉ str) :
    R.Puts [.mark str] fun st => st.put str := Puts.of_emits (R.mark str hne hquote)

theorem putEscaped (str : Bytes) : R.Puts [.quoted str] fun st => st.putEscaped str :=
  Puts.of_emits (R.quoted str)

theorem putSeparator (first : Bool) :
    R.Puts (separatorPieces first) fun st => StackJson.putSeparator first st := by
  cases first
  · exact R.put [ch ','] (by simp) (by decide)
  · exact R.nil

theorem brackets {e : Emission σ → Option (Emission σ)} (elements : List (List Piece))
    (he : R.Puts (separatedPieces true elements) e) :
    R.Puts (arrayPieces elements) fun st =>
      (st.put [ch '[']).bind fun st => (e st).bind fun st => st.put [ch ']'] :=
  (R.put [ch '['] (by simp) (by decide)).bind (he.bind (R.put [ch ']'] (by simp) (by decide)))

/-- Items are emitted in order, when each value among them is. -/
theorem items {α : Type} (node : α → NodeBase σ) (pieces : α → List Piece) (its : List (Item α))
    (hmarks : ∀ c, Item.punct c ∈ its → c ≠ ch '"')
    (h : ∀ a ∈ itemValues its, R.Puts (pieces a) (node a).emitValue) :
    R.Emits ((its.map (Item.map pieces)).flatMap Item.pieces) (runItems (its.map (Item.map node))) := by
  induction its with
  | nil => exact R.nil
  | cons it its ih =>
    have hone : R.Emits (it.map pieces).pieces fun st => runItem st (it.map node) := by
      cases it with
      | punct c => exact R.mark [c] (by simp) (by simpa using (hmarks c (by simp)).symm)
      | key k => exact R.quoted k
      | value a =>
        have heq : (fun st => runItem st ((Item.value a).map node)) =
            fun st => voided ((node a).emitValue st) := by
          funext st
          simp only [runItem, Item.map, callEmitValue]
          cases (node a).emitValue st <;> rfl
        rw [heq]
        exact h a (by simp [itemValues])
    have hrest := ih (fun c hc => hmarks c (List.mem_cons_of_mem _ hc))
      fun a ha => h a (by cases it <;> simp [itemValues, ha])
    exact R.next hone hrest

theorem node (n : NodeInfo) (v : Value) (hv : R.Puts v.pieces fun st => writeJsonValue v st) :
    R.Puts v.pieces (valueNode (σ := σ) n v).emitValue := by
  apply R.flags hv
  intro st
  refine ⟨st.emitted, ?_⟩
  simp only [valueNode]
  cases writeJsonValue v st <;> rfl

/-- A document is emitted in its pieces, when its values are. -/
theorem document (nodes : List (NodeInfo × Value))
    (hlayout : Layout (nodes.map Prod.fst) (innerIds nodes))
    (hvalues : ∀ p ∈ nodes, R.Puts p.2.pieces fun st => writeJsonValue p.2 st) :
    R.Puts (documentPieces nodes) fun st => (emitDocument nodes st).bind fun r => some r.1 := by
  by_cases hne : nodes = []
  · subst hne
    have heq : (fun st : Emission σ => (emitDocument [] st).bind fun r => some r.1) =
        fun st => st.put [ch '{', ch '}'] := by
      funext st
      simp only [emitDocument, valueNodes, emitJsonNodes, List.isEmpty_nil, if_true, Emission.put,
        Emission.write]
      cases Buffer.write st.buf [ch '{', ch '}'] <;> rfl
    rw [heq]
    exact R.put [ch '{', ch '}'] (by simp) (by decide)
  · have hpaths : ∀ p ∈ nodes, p.1.path ≠ [] := fun p hp =>
      hlayout.paths p.1 (List.mem_map.mpr ⟨p, hp, rfl⟩)
    have hall := R.items (fun p => valueNode p.1 p.2) (fun p => p.2.pieces)
      (treeItems (entryTree nodes)) (punct_treeItems _) fun p hp =>
        R.node p.1 p.2 (hvalues p (entryTree_values nodes hpaths p hp))
    rw [← entryTree_pieces nodes hne, entryTree_nodes] at hall
    apply R.flags (R.drop hall)
    intro st
    have hne' : valueNodes (σ := σ) nodes ≠ [] := by simpa [valueNodes_eq] using hne
    obtain ⟨st0, hbuf, -, heq⟩ := emitJsonNodes_eq (valueNodes nodes)
      (valueNodes_emittable nodes hlayout) hne' st
    have heq : emitDocument nodes st = _ := heq
    refine ⟨st0.emitted, ?_⟩
    change bufs (voided ((emitDocument nodes st).bind fun r => some r.1)) = _
    rw [← hbuf, heq, written]
    cases runItems (treeItems (.node (KeyTree.build (shownNodes (valueNodes nodes))))) st0 <;> rfl

mutual
/-- Every value is emitted in its pieces. -/
theorem value : (v : Value) → v.Valid → R.Puts v.pieces fun st => writeJsonValue v st
  | .null, _ => R.put _ (by decide) (by decide)
  | .bool value, _ => R.put _ (by cases value <;> decide) (by cases value <;> decide)
  | .int value, _ => R.integer value
  | .str value, _ => R.putEscaped value
  | .cstr none, _ => R.put _ (by decide) (by decide)
  | .cstr (some value), _ => R.putEscaped _
  | .stackArray vs, h => R.brackets _ (elements vs h true)
  | .spanArray vs, h => R.brackets _ (elements vs h true)
  | .streamArray breaks vs, h => R.brackets _ (streamed breaks vs h true)
  | .print texts, _ => R.printed texts
  | .doc nodes, h => R.document nodes h.1 (values nodes h.2)

theorem elements : (vs : List Value) → ValidElements vs → (first : Bool) →
    R.Puts (separatedPieces first (elementPieces vs)) fun st => elementLoop vs first st
  | [], _, _ => R.nil
  | v :: vs, h, first =>
    (R.putSeparator first).bind ((value v h.1).bind (elements vs h.2 false))

theorem streamed (breaks : Bool) : (vs : List Value) → ValidElements vs → (first : Bool) →
    R.Puts (separatedPieces first (elementPieces vs)) fun st => streamLoop breaks vs first st
  | [], _, _ => R.nil
  | v :: vs, h, first =>
    R.stream breaks first _ (separatedPieces_subset _) (value v h.1) (streamed breaks vs h.2)

theorem values : (nodes : List (NodeInfo × Value)) → ValidNodes nodes → ∀ p ∈ nodes,
    R.Puts p.2.pieces fun st => writeJsonValue p.2 st
  | [], _ => fun p hp => nomatch hp
  | (_, v) :: nodes, h => by
    intro p hp
    rcases List.mem_cons.mp hp with rfl | hp
    · exact value v h.1
    · exact values nodes h.2 p hp
end

/-- What the rules say of every emission of a document. -/
theorem emitDocument_emits (nodes : List (NodeInfo × Value)) (hvalid : (Value.doc nodes).Valid) :
    R.Emits (documentPieces nodes) fun st => (emitDocument nodes st).map fun r => (r.1, true) := by
  have h := R.document nodes hvalid.1 (R.values nodes hvalid.2)
  have heq : (fun st : Emission σ => voided ((emitDocument nodes st).bind fun r => some r.1)) =
      fun st => (emitDocument nodes st).map fun r => (r.1, true) := by
    funext st
    cases emitDocument nodes st <;> rfl
  rw [Puts, heq] at h
  exact h

end EmitRules

end rules

end Espbase.StackJson
