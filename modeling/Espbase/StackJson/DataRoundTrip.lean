import Espbase.StackJson.ArrayElements
import Espbase.StackJson.NestedPaths
import Espbase.StackJson.RoundTrip

namespace Espbase.StackJson

open Espbase.Lib

def Value.isArray : Value → Bool
  | .stackArray _ => true
  | .spanArray _ => true
  | .streamArray _ _ => true
  | _ => false

def Value.elements : Value → List Value
  | .stackArray elements => elements
  | .spanArray elements => elements
  | .streamArray _ elements => elements
  | _ => []

/-- A scalar that an extraction from an array tells from the end of the array and from `null`. -/
def Value.IsElement (v : Value) : Prop := v.IsScalar ∧ v ≠ .str [] ∧ v ≠ .str (bytes "null")

/-- An array of scalars. -/
def Value.IsList (v : Value) : Prop := v.isArray = true ∧ ∀ e ∈ v.elements, e.IsElement

section elements

/-- No element is taken for the end of the array, and only `null` for `null`. -/
theorem element_raw (v : Value) (h : v.IsElement) :
    v.raw ≠ [] ∧ (v.raw == bytes "null") = v.isNull := by
  obtain ⟨hscalar, hne, hnull⟩ := h
  cases v with
  | null => exact ⟨by decide, by decide⟩
  | bool value => cases value <;> exact ⟨by decide, by decide⟩
  | int n =>
    refine ⟨(signedDecimal_primitive n.val).1, signedDecimal_ne_null n.val⟩
  | str s =>
    have hdecode := decodeJsonString_escape s _ (escape_length_ge s)
    refine ⟨?_, beq_eq_false_iff_ne.mpr ?_⟩
    · intro hraw
      have hlen := escape_length_ge s
      rw [show escape s = [] from hraw] at hlen
      exact hne (congrArg Value.str (List.eq_nil_of_length_eq_zero (Nat.le_zero.mp hlen)))
    · intro hraw
      rw [show escape s = bytes "null" from hraw] at hdecode
      have hsame : decodeJsonString (bytes "null") (bytes "null").length = some (bytes "null") := by decide
      exact hnull (congrArg Value.str (Option.some.inj (hdecode.symm.trans hsame)))
  | _ => exact hscalar.elim

variable [FloatChars] (isNull : Bool)

/-- At the end of an array all extractions fail and leave their targets. -/
theorem extractions_over (n : DynamicNodeBase) (hn : n.rawVal.head? = some (ch '['))
    (hahead : n.ahead = [ch ']']) (targets : List Target) :
    extractions true isNull targets n = some (targets.map fun target => (false, target)) := by
  induction targets generalizing n with
  | nil => rfl
  | cons target targets ih =>
    have hend := nextArrayToken_end [] (by simp) false
    rw [List.nil_append] at hend
    have hnext := ih { n with iterState := [ch ']'], iterStarted := true } hn rfl
    rw [extractions, extract_array isNull n hn _ (by rw [hahead, hend])]
    simp only [if_pos, Option.bind_eq_bind, Option.bind_some, hnext]
    rfl

/-- The extraction of an element that stands behind separators. -/
theorem extract_received (n : DynamicNodeBase) (hn : n.rawVal.head? = some (ch '[')) (sep : Bytes)
    (hsep : ∀ c ∈ sep, isSeparator c = true) (v : Value) (hv : v.IsElement) (target : Target)
    (hfit : v.Fits target) (rest : Bytes) (hrest : ∀ c ∈ rest.head?, isPrimitiveDelim c = true)
    (hahead : n.ahead = sep ++ (v.text ++ rest)) :
    extract true isNull n target =
      some (true, { n with iterState := rest, iterStarted := true }, v.received target) := by
  obtain ⟨hne, hnull⟩ := element_raw v hv
  obtain ⟨-, -, hcoerce⟩ := coerceValue_raw v target hv.1 hfit
  have htoken := nextArrayToken_value sep hsep (valueDoc v) (valueDoc_wf v hv.1) rest (fun _ => hrest) false
  rw [valueDoc_text v hv.1, ← hahead] at htoken
  rw [extract_array isNull n hn _ htoken]
  show (if v.raw = [] then _ else _) = _
  rw [if_neg hne]
  show Option.map _ (coerceValue v.raw (v.raw == bytes "null") target) = _
  rw [hnull, hcoerce]
  rfl

/-- The results of extractions: the elements that were received, then failures. -/
def receipts (vs : List Value) (targets more : List Target) : List (Bool × Target) :=
  List.zipWith (fun v target => (true, v.received target)) vs targets ++ more.map fun target => (false, target)

omit [FloatChars] in
theorem rest_head (ws : List Bytes) :
    ∀ c ∈ ((ws.flatMap fun w => ch ',' :: w) ++ [ch ']']).head?, isPrimitiveDelim c = true := by
  intro c hc
  cases ws with
  | nil =>
    rw [← Option.some.inj hc]
    rfl
  | cons w ws =>
    rw [← Option.some.inj hc]
    rfl

theorem extractions_rest (vs : List Value) (hvs : ∀ v ∈ vs, v.IsElement) (n : DynamicNodeBase)
    (hn : n.rawVal.head? = some (ch '['))
    (hahead : n.ahead = ((elementTexts vs).flatMap fun w => ch ',' :: w) ++ [ch ']'])
    (targets : List Target) (hfit : List.Forall₂ Value.Fits vs targets) (more : List Target) :
    extractions true isNull (targets ++ more) n = some (receipts vs targets more) := by
  induction vs generalizing n targets with
  | nil =>
    cases hfit
    exact extractions_over isNull n hn hahead more
  | cons v vs ih =>
    cases hfit with
    | @cons _ target _ targets hv hrest =>
      have hcomma : ∀ c ∈ [ch ','], isSeparator c = true := by
        intro c hc
        rw [List.mem_singleton.mp hc]
        rfl
      have hfirst := extract_received isNull n hn [ch ','] hcomma v (hvs v (by simp)) target hv _
        (rest_head (elementTexts vs)) (by rw [hahead, elementTexts]; simp)
      have hnext := ih (fun v hv => hvs v (by simp [hv])) { n with
        iterState := ((elementTexts vs).flatMap fun w => ch ',' :: w) ++ [ch ']'], iterStarted := true }
        hn rfl targets hrest
      rw [List.cons_append, extractions, hfirst]
      simp only [Option.bind_eq_bind, Option.bind_some, hnext]
      rfl

/-- From an array of scalars the extractions into fitting targets deliver the elements in order, and all
later ones fail. -/
theorem extractions_received (vs : List Value) (hvs : ∀ v ∈ vs, v.IsElement) (n : DynamicNodeBase)
    (hn : n.rawVal.head? = some (ch '[')) (hahead : n.ahead = commaSep (elementTexts vs) ++ [ch ']'])
    (targets : List Target) (hfit : List.Forall₂ Value.Fits vs targets) (more : List Target) :
    extractions true isNull (targets ++ more) n = some (receipts vs targets more) := by
  cases hfit with
  | nil => exact extractions_over isNull n hn hahead more
  | @cons v target vs targets hv hrest =>
    rw [elementTexts, commaSep_cons, List.append_assoc] at hahead
    have hfirst := extract_received isNull n hn [] (by simp) v (hvs v (by simp)) target hv _
      (rest_head (elementTexts vs)) hahead
    have hnext := extractions_rest isNull vs (fun v hv => hvs v (by simp [hv])) { n with
      iterState := ((elementTexts vs).flatMap fun w => ch ',' :: w) ++ [ch ']'], iterStarted := true }
      hn rfl targets hrest more
    rw [List.cons_append, extractions, hfirst]
    simp only [Option.bind_eq_bind, Option.bind_some, hnext]
    rfl

end elements

section text

/-- The JSON of a scalar or of an array of scalars. -/
def dataDoc (v : Value) : Doc :=
  if v.isArray then .block false (arrayItems (v.elements.map valueDoc)) [] else valueDoc v

theorem dataDoc_array (v : Value) (h : v.isArray = true) :
    dataDoc v = .block false (arrayItems (v.elements.map valueDoc)) [] := by
  rw [dataDoc, if_pos h]

theorem dataDoc_scalar (v : Value) (h : v.IsScalar) : dataDoc v = valueDoc v := by
  have hnot : ¬ v.isArray = true := by
    cases v with
    | null | bool | int | str => exact Bool.false_ne_true
    | _ => exact h.elim
  rw [dataDoc, if_neg hnot]

theorem Value.text_array (v : Value) (h : v.isArray = true) : v.text = arrayText (elementTexts v.elements) := by
  cases v with
  | stackArray | spanArray | streamArray => rfl
  | _ => cases h

theorem elementTexts_doc (vs : List Value) (h : ∀ v ∈ vs, v.IsElement) :
    (vs.map valueDoc).map Doc.text = elementTexts vs := by
  induction vs with
  | nil => rfl
  | cons v vs ih =>
    rw [List.map_cons, List.map_cons, elementTexts, valueDoc_text v (h v (by simp)).1,
      ih fun v hv => h v (by simp [hv])]

theorem dataDoc_text (v : Value) (h : v.IsScalar ∨ v.IsList) : (dataDoc v).text = v.text := by
  rcases h with hscalar | hlist
  · rw [dataDoc_scalar v hscalar, valueDoc_text v hscalar]
  · rw [dataDoc_array v hlist.1, Doc.text, arrayItems_text, elementTexts_doc _ hlist.2, v.text_array hlist.1]
    rfl

theorem dataDoc_plain (v : Value) (h : v.IsScalar ∨ v.IsList) : (dataDoc v).WF ∧ (dataDoc v).Plain := by
  rcases h with hscalar | hlist
  · rw [dataDoc_scalar v hscalar]
    exact ⟨valueDoc_wf v hscalar, trivial⟩
  rw [dataDoc_array v hlist.1, Doc.WF]
  refine ⟨⟨arrayItems_wf _ ?_, .nil⟩, ?_⟩
  · intro d hd
    obtain ⟨e, he, rfl⟩ := List.mem_map.mp hd
    exact valueDoc_wf e (hlist.2 e he).1
  · have hitems (p : Doc → Prop) (hp : ∀ e, p (valueDoc e)) (vs : List Value) :
        Doc.AllItems p (arrayItems (vs.map valueDoc)) := by
      induction vs with
      | nil => trivial
      | cons e vs ih => exact ⟨hp e, ih⟩
    exact ⟨hitems _ (fun _ => rfl) v.elements, hitems _ (fun _ => trivial) v.elements⟩

end text

/-- Documents of scalars and arrays of scalars, with documents and paths nested in any way, whose node
objects and keys can be told apart. -/
structure DataNodes (nodes : List (NodeInfo × Value)) : Prop where
  nested : (Value.doc nodes).Nested
  ids : (nodeIds nodes).Nodup
  keys : ∀ p ∈ inlinedNodes nodes, ∀ k ∈ p.1.path, PlainKey k
  values : ∀ p ∈ inlinedNodes nodes, p.2.IsScalar ∨ p.2.IsList

/-- The values of a document, with the whole paths to them. -/
def members (nodes : List (NodeInfo × Value)) : List (List Bytes × Value) := shown id (inlinedNodes nodes)

section document
variable {nodes : List (NodeInfo × Value)}

theorem DataNodes.member (h : DataNodes nodes) (e : List Bytes × Value) (he : e ∈ members nodes) :
    e.1 ≠ [] ∧ (∀ k ∈ e.1, PlainKey k) ∧ (e.2.IsScalar ∨ e.2.IsList) := by
  obtain ⟨p, hp, -, rfl⟩ := mem_shown_id _ e he
  refine ⟨?_, h.keys p hp, h.values p hp⟩
  exact (nested_inlined_valid h.nested h.ids).1.paths p.1 (List.mem_map_of_mem hp)

theorem DataNodes.free (h : DataNodes nodes) : KeyTree.PrefixFree (members nodes) := by
  rw [members, shown_inlinedNodes]
  refine h.nested.2.1.spread _ fun e he => ?_
  obtain ⟨p, hp, -, rfl⟩ := mem_shown_id nodes e he
  exact (NestedNodes.spelled nodes h.nested.2.2 p hp).free

/-- The tree of the documents of the values. -/
def dataTree (nodes : List (NodeInfo × Value)) : List (Bytes × KeyTree Bytes Doc) :=
  KeyTree.build ((members nodes).map fun e => (e.1, dataDoc e.2))

theorem DataNodes.entry (h : DataNodes nodes) (e : List Bytes × Doc)
    (he : e ∈ (members nodes).map fun e => (e.1, dataDoc e.2)) :
    e.1 ≠ [] ∧ (∀ k ∈ e.1, PlainKey k) ∧ e.2.WF ∧ e.2.Plain := by
  obtain ⟨e', he', rfl⟩ := List.mem_map.mp he
  obtain ⟨hne, hkeys, hvalue⟩ := h.member e' he'
  exact ⟨hne, hkeys, dataDoc_plain e'.2 hvalue⟩

theorem DataNodes.tree_proper (h : DataNodes nodes) :
    KeyTree.ProperOf PlainKey (dataTree nodes) ∧
      ∀ p d, KeyTree.At (dataTree nodes) p d ↔ (p, d) ∈ (members nodes).map fun e => (e.1, dataDoc e.2) :=
  KeyTree.build_proper PlainKey _ (fun e he => (h.entry e he).1) (fun e he => (h.entry e he).2.1)
    (List.pairwise_map.mpr h.free)

theorem DataNodes.leaves (h : DataNodes nodes) : PlainLeaves (KeyTree.leavesOf (dataTree nodes)) := by
  intro d hd
  rw [dataTree, (KeyTree.leavesOf_build _ fun e he => (h.entry e he).1).mem_iff] at hd
  obtain ⟨e, he, rfl⟩ := List.mem_map.mp hd
  exact (h.entry e he).2.2

/-- The JSON text that is emitted for the nodes. -/
def DataNodes.json (h : DataNodes nodes) : JsonText where
  before := []
  root := .block true (treeMembers (dataTree nodes)) []
  after := []
  before_gap := .nil
  after_gap := .nil
  root_wf := by
    rw [Doc.WF]
    exact ⟨h.leaves.treeMembers_wf _ h.tree_proper.1, .nil⟩

theorem DataNodes.json_text (h : DataNodes nodes) : h.json.text = documentText nodes := by
  have htext : (members nodes).map (fun e => (e.1, (dataDoc e.2).text)) =
      (members nodes).map fun e => (e.1, e.2.text) :=
    List.map_congr_left fun e he => congrArg (Prod.mk e.1) (dataDoc_text e.2 (h.member e he).2.2)
  have htree : KeyTree.mapOf Doc.text (dataTree nodes) =
      KeyTree.mapOf Value.text (documentTree (inlinedNodes nodes)) := by
    rw [dataTree, ← KeyTree.build_map, List.map_map, documentTree, ← KeyTree.build_map]
    exact congrArg KeyTree.build htext
  have hspell := Spellable.text ⟨h.nested.1, h.nested.2.1, NestedNodes.spelled nodes h.nested.2.2⟩
  rw [← hspell, documentText_eq, ← htree]
  show [] ++ ((Doc.block true (treeMembers (dataTree nodes)) []).text ++ []) = _
  rw [List.nil_append, List.append_nil, Doc.text, treeMembers_text _ h.tree_proper.1, objectText, treeText]
  rfl

theorem DataNodes.hasMember (h : DataNodes nodes) (path : PathBase) (v : Value)
    (hv : (path, v) ∈ members nodes) : h.json.root.HasMember path (dataDoc v) := by
  apply memberAt_treeMembers
  rw [h.tree_proper.2]
  exact List.mem_map.mpr ⟨(path, v), hv, rfl⟩

theorem DataNodes.json_plain (h : DataNodes nodes) : h.json.root.Plain :=
  ⟨treeMembers_here _ h.tree_proper.1, h.leaves.treeMembers_plain _ h.tree_proper.1⟩

end document

/-- A node of a parser at a path whose first key is that of no value. -/
def KeysApart (nodes : List (NodeInfo × Value)) (b : ParseNode) : Prop :=
  b.isCatchAll = false ∧ ∃ k p, b.path = k :: p ∧ k ≠ [] ∧ ∀ e ∈ members nodes, e.1.head? ≠ some k

/-- Nothing in the text is looked up at a path that starts with a key of its own. -/
theorem DataNodes.lookups_apart {nodes : List (NodeInfo × Value)} (h : DataNodes nodes) (b : ParseNode)
    (hb : KeysApart nodes b) : ∀ e ∈ docLookups [] [] h.json.root, ¬ e.path <+: b.path := by
  obtain ⟨hproper, hat⟩ := h.tree_proper
  obtain ⟨-, k, p, hpath, hne, hapart⟩ := hb
  rw [hpath]
  intro e he hpre
  have hfirst (key : Bytes) (q : List Bytes) (hq : e.path = key :: q) : key = k := by
    rw [hq] at hpre
    exact (List.cons_prefix_cons.mp hpre).1
  have hroot : docLookups [] [] h.json.root = ⟨[], [], true, h.json.root.text, false⟩ ::
      itemLookups [] (treeMembers (dataTree nodes)) := rfl
  rw [hroot, itemLookups_root, List.mem_cons, List.mem_flatMap] at he
  rcases he with rfl | ⟨⟨s, d⟩, hm, he⟩
  · exact hne (hfirst [] [] rfl).symm
  have hwf := h.leaves.treeMembers_wf _ hproper
  have hplain := h.leaves.treeMembers_plain _ hproper
  obtain ⟨key, q, hq, hkey⟩ := path_plain d (Doc.WF.with d (Doc.wf_of_mem hwf hm).2) (Doc.all_of_mem hplain hm) []
    s.key ((treeMembers_here _ hproper).2 _ hm) e he
  obtain rfl := hfirst key q hq
  rcases hkey with hkey | hkey
  · obtain ⟨⟨key', t⟩, ht, hs⟩ : ∃ m ∈ dataTree nodes, m.1 = s.key := by
      rw [← List.mem_map, ← treeMembers_keys]
      exact List.mem_map_of_mem (f := fun m => m.1.key) hm
    obtain ⟨-, hproper'⟩ := hproper.of_mem PlainKey _ key' t ht
    obtain ⟨q', d', hq'⟩ := KeyTree.exists_at PlainKey t hproper' _ key' ht
    obtain ⟨e', he', heq⟩ := List.mem_map.mp ((hat _ _).mp hq')
    refine hapart e' he' ?_
    rw [congrArg Prod.fst heq, hkey, ← hs]
    rfl
  · exact hne hkey

section roundTrip
variable [FloatChars]

/-- A parser for the document: its paths can be told apart, and at the path of a scalar it has a binding with
a target of its type, at that of an array a dynamic node. It may leave out values, and have nodes for more. -/
structure DataBindings (nodes : List (NodeInfo × Value)) (bs : List ParseNode) : Prop where
  free : bs.Pairwise fun m n => ¬ m.path <+: n.path ∧ ¬ n.path <+: m.path
  targets : ∀ b ∈ bs, ∀ v, (b.path, v) ∈ members nodes → v.IsScalar →
    ∃ target, b.kind = .bind target ∧ v.Fits target
  lists : ∀ b ∈ bs, ∀ v, (b.path, v) ∈ members nodes → v.IsList → ∃ data, b.kind = .dynamic data

/-- A node of the parser has got the value. -/
def Delivered (v : Value) (b b' : ParseNode) : Prop :=
  (v.IsScalar → ∃ target, b.kind = .bind target ∧ b' = ⟨b.path, true, v.isNull, .bind (v.received target)⟩) ∧
    (v.IsList → ∀ targets more, List.Forall₂ Value.Fits v.elements targets →
      b'.extractions (targets ++ more) = some (receipts v.elements targets more))

theorem delivered_list (v : Value) (hv : v.IsList) (path : PathBase) (b : ParseNode) :
    Delivered v b (capturedNode path (dataDoc v)) := by
  have hdoc := dataDoc_array v hv.1
  refine ⟨?_, fun _ targets more hfit => ?_⟩
  · intro hscalar
    rw [dataDoc_scalar v hscalar] at hdoc
    cases hdoc
  · have htext : (dataDoc v).content = arrayText (elementTexts v.elements) := by
      rw [hdoc]
      show (Doc.block false _ []).text = _
      rw [← hdoc, dataDoc_text v (.inr hv), v.text_array hv.1]
    show extractions true _ _ ⟨(dataDoc v).content, _, _, false⟩ = _
    refine extractions_received _ v.elements hv.2 _ ?_ ?_ targets hfit more
    · rw [htext]
      rfl
    · show (dataDoc v).content.drop 1 = _
      rw [htext]
      rfl

section parsed
variable {nodes : List (NodeInfo × Value)} (h : DataNodes nodes) {bs bs' : List ParseNode} (k : Nat)
  (b : ParseNode)

/-- A node of the parser gets the value at its path. -/
theorem DataNodes.delivered (hbs : DataBindings nodes bs) (hparse : parse h.json.text bs = some bs')
    (hk : bs[k]? = some b) (v : Value) (hv : (b.path, v) ∈ members nodes) :
    ∃ b', bs'[k]? = some b' ∧ Delivered v b b' := by
  have hmem : b ∈ bs := List.mem_of_getElem? hk
  obtain ⟨-, hplain, hvalue⟩ := h.member _ hv
  have hkeys : [] ∉ b.path := fun hm => (hplain [] hm).1 rfl
  have hmember := h.hasMember b.path v hv
  rcases hvalue with hscalar | hlist
  · obtain ⟨target, hb, hfit⟩ := hbs.targets b hmem v hv hscalar
    obtain ⟨hnull, htarget, hcoerce⟩ := coerceValue_raw v target hscalar hfit
    rw [dataDoc_scalar v hscalar] at hmember
    obtain ⟨target', hc, hres⟩ := outcome_scalar_member h.json h.json_plain bs hbs.free k b hk hkeys target
      hb htarget v.isString v.raw hmember
    have hall : b.isCatchAll = false := by rw [ParseNode.isCatchAll, hb]
    obtain ⟨bs₁, hp, hn⟩ := parse_jsonText h.json bs k b hk hall
    obtain rfl := Option.some.inj (hparse.symm.trans hp)
    rw [hnull, hcoerce] at hc
    rw [hres, hnull, ← Option.some.inj hc] at hn
    refine ⟨_, hn, fun _ => ⟨target, hb, rfl⟩, fun hlist => ?_⟩
    have hdoc := dataDoc_array v hlist.1
    rw [dataDoc_scalar v hscalar] at hdoc
    cases hdoc
  · obtain ⟨data, hb⟩ := hbs.lists b hmem v hv hlist
    obtain ⟨path, isSet, isNull, kind⟩ := b
    obtain rfl : kind = .dynamic data := hb
    have hcap := captured_plain h.json h.json_plain bs k _ rfl hkeys (dataDoc v) hmember
      (unbound_before bs hbs.free k _ hk)
    obtain ⟨bs₁, hp, hn⟩ := hcap.parse hk
    obtain rfl := Option.some.inj (hparse.symm.trans hp)
    exact ⟨_, hn, delivered_list v hlist path _⟩

theorem DataNodes.untouched (hparse : parse h.json.text bs = some bs') (hk : bs[k]? = some b)
    (hapart : KeysApart nodes b) : ∃ b', bs'[k]? = some b' ∧ Untouched b b' := by
  obtain ⟨bs₁, hp, hn⟩ := parse_jsonText h.json bs k b hk hapart.1
  obtain rfl := Option.some.inj (hparse.symm.trans hp)
  refine ⟨_, hn, (outcome_untouched_iff _ b _).mpr fun e he => ?_⟩
  have hnot : ¬ bound e.path b = true := fun hb => h.lookups_apart b hapart e he ((bound_iff _ _ hapart.1).mp hb)
  rw [takes, eq_false_of_ne_true hnot]
  rfl

end parsed

/-- Every node of the parser has the value at its path, and one at a path of its own nothing. -/
def Delivers (nodes : List (NodeInfo × Value)) (bs bs' : List ParseNode) : Prop :=
  ∀ (k : Nat) (b : ParseNode), bs[k]? = some b →
    (∀ v, (b.path, v) ∈ members nodes → ∃ b', bs'[k]? = some b' ∧ Delivered v b b') ∧
      (KeysApart nodes b → ∃ b', bs'[k]? = some b' ∧ Untouched b b')

theorem DataNodes.delivers {nodes : List (NodeInfo × Value)} (h : DataNodes nodes) (bs : List ParseNode)
    (hbs : DataBindings nodes bs) : ∃ bs', parse (documentText nodes) bs = some bs' ∧ Delivers nodes bs bs' := by
  obtain ⟨bs', hparse⟩ : ∃ bs', parse h.json.text bs = some bs' := ⟨_, parse_eq _ bs⟩
  refine ⟨bs', by rw [← h.json_text, hparse], fun k b hk => ⟨?_, ?_⟩⟩
  · exact h.delivered k b hbs hparse hk
  · exact h.untouched k b hparse hk

/-- A document of scalars and arrays that is emitted and parsed again brings each value to its node, the
arrays element by element, and nothing to others, however documents and paths are nested in it. -/
theorem data_roundTrip (nodes : List (NodeInfo × Value)) (h : DataNodes nodes) (bs : List ParseNode)
    (hbs : DataBindings nodes bs) (maxSize : Nat) (emitted : Nat → Bool)
    (hroom : (documentText nodes).length ≤ maxSize) :
    ∃ st n bs', emitDocument nodes ⟨StackBuffer.empty maxSize, emitted⟩ = some (st, n) ∧
      parse st.buf.view bs = some bs' ∧ Delivers nodes bs bs' := by
  obtain ⟨st, n, he, hview⟩ := emitDocument_whole nodes (Value.Nested.valid (.doc nodes) h.nested h.ids)
    emitted hroom
  obtain ⟨bs', hparse, hdelivers⟩ := h.delivers bs hbs
  exact ⟨st, n, bs', he, by rw [hview, hparse], hdelivers⟩

end roundTrip

/-- A string that needs escapes, and null. -/
def sensorNames : Value := .stackArray [.str (bytes "a]\"b"), .null]

theorem sensorNames_list : sensorNames.IsList := by
  refine ⟨rfl, ?_⟩
  simp [sensorNames, Value.elements, Value.IsElement, Value.IsScalar, bytes]
  exact fun h => absurd h (by decide)

/-- A document in a document, with an array in each. -/
def sensorReport : List (NodeInfo × Value) :=
  [(⟨0, false, [bytes "net"]⟩, .doc
      [(⟨1, false, [bytes "wifi", bytes "up"]⟩, .bool true),
       (⟨2, false, [bytes "names"]⟩, sensorNames)]),
   (⟨3, false, [bytes "levels"]⟩, .spanArray [.int minusThree])]

theorem sensorReport_inlined : inlinedNodes sensorReport =
    [(⟨1, false, [bytes "net", bytes "wifi", bytes "up"]⟩, .bool true),
      (⟨2, false, [bytes "net", bytes "names"]⟩, sensorNames),
      (⟨3, false, [bytes "levels"]⟩, .spanArray [.int minusThree])] := rfl

theorem sensorReport_data : DataNodes sensorReport where
  nested := ⟨by decide, by decide, ⟨by decide, by decide, trivial, ⟨trivial, trivial, trivial⟩, trivial⟩,
    ⟨trivial, trivial⟩, trivial⟩
  ids := by decide
  keys := by simp [sensorReport_inlined, PlainKey, Special, bytes, ch]
  values := by
    rw [sensorReport_inlined]
    intro p hp
    simp only [List.mem_cons, List.not_mem_nil, or_false] at hp
    rcases hp with rfl | rfl | rfl
    · exact .inl trivial
    · exact .inr sensorNames_list
    · refine .inr ⟨rfl, fun e he => ?_⟩
      rw [List.mem_singleton.mp he]
      exact ⟨trivial, nofun, nofun⟩

/-- Nodes for an array and a scalar, and one for a value that is not there. -/
def sensorBindings : List ParseNode :=
  [⟨[bytes "level"], false, false, .bind (.bool true)⟩, ⟨[bytes "net", bytes "names"], false, false, .dynamic .blank⟩,
   ⟨[bytes "net", bytes "wifi", bytes "up"], false, false, .bind (.bool false)⟩]

theorem sensorReport_members : members sensorReport =
    [([bytes "net", bytes "wifi", bytes "up"], .bool true),
      ([bytes "net", bytes "names"], sensorNames),
      ([bytes "levels"], .spanArray [.int minusThree])] := rfl

theorem sensorBindings_fit : DataBindings sensorReport sensorBindings where
  free := by decide
  targets := by
    intro b hb v hv hscalar
    simp only [sensorReport_members, List.mem_cons, List.not_mem_nil, or_false, Prod.mk.injEq] at hv
    simp only [sensorBindings, List.mem_cons, List.not_mem_nil, or_false] at hb
    rcases hv with ⟨hp, rfl⟩ | ⟨-, rfl⟩ | ⟨-, rfl⟩
    · rcases hb with rfl | rfl | rfl
      · exact absurd hp (by decide)
      · exact absurd hp (by decide)
      · exact ⟨_, rfl, trivial⟩
    · exact hscalar.elim
    · exact hscalar.elim
  lists := by
    intro b hb v hv hlist
    simp only [sensorReport_members, List.mem_cons, List.not_mem_nil, or_false, Prod.mk.injEq] at hv
    simp only [sensorBindings, List.mem_cons, List.not_mem_nil, or_false] at hb
    rcases hb with rfl | rfl | rfl
    · rcases hv with ⟨hp, -⟩ | ⟨hp, -⟩ | ⟨hp, -⟩
      · exact absurd hp (by decide)
      · exact absurd hp (by decide)
      · exact absurd hp (by decide)
    · exact ⟨_, rfl⟩
    · rcases hv with ⟨-, rfl⟩ | ⟨hp, -⟩ | ⟨hp, -⟩
      · cases hlist.1
      · exact absurd hp (by decide)
      · exact absurd hp (by decide)

theorem data_roundTrip_sensorReport :
    ∃ st n bs', emitDocument sensorReport ⟨StackBuffer.empty 80, fun _ => true⟩ = some (st, n) ∧
      @parse keepFloats st.buf.view sensorBindings = some bs' ∧
      ∃ b', bs'[1]? = some b' ∧
        @ParseNode.extractions keepFloats b' [.string [], .bool true, .bool true] =
          some [(true, .string (bytes "a]\"b")), (true, .bool false), (false, .bool true)] := by
  let _ := keepFloats
  obtain ⟨st, n, bs', he, hp, hb⟩ := data_roundTrip sensorReport sensorReport_data sensorBindings
    sensorBindings_fit 80 (fun _ => true) (by decide)
  obtain ⟨b', hn, -, hlist⟩ := (hb 1 _ rfl).1 sensorNames (by rw [sensorReport_members]; simp)
  exact ⟨st, n, bs', he, hp, b', hn,
    hlist sensorNames_list [.string [], .bool true] [.bool true] (.cons trivial (.cons trivial .nil))⟩

end Espbase.StackJson
