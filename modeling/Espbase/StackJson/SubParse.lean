import Espbase.StackJson.Capture
import Espbase.StackJson.ParserReuse
import Espbase.StackJson.ScalarLookup

namespace Espbase.StackJson

open Espbase.Lib

section subParse
variable [FloatChars]

/-- `DynamicNodeBase::parse` with the members that `is_set_` and `is_null_` name: its result, and the nodes of
the parser that it builds. -/
def DynamicNodeBase.parse (isSet isNull : Bool) (d : DynamicNodeBase) (nodes : List ParseNode) :
    Option (Bool × List ParseNode) :=
  if !isSet || isNull then some (false, nodes)
  else do
    let nodes ← StackJson.parse d.rawVal nodes
    some (true, nodes)

/-- The node whose path starts at the root of the document. -/
def ParseNode.below (p : PathBase) (n : ParseNode) : ParseNode := { n with path := p ++ n.path }

/-- What an object leaves in the node makes no difference to a later value. The conversion of a floating-point
number leaves its target alone where the text starts with a brace. -/
def ParseNode.Forgets (n : ParseNode) : Prop :=
  match n.kind with
  | .bind (.float _) => ∀ raw bits, raw.head? = some (ch '{') → FloatChars.float raw bits = bits
  | .bind (.double _) => ∀ raw bits, raw.head? = some (ch '{') → FloatChars.double raw bits = bits
  | .bind (.span _) => False
  | .bind _ => True
  | .dynamic _ => True
  | .unknown _ _ => False

end subParse

/-- The same lookup, seen from the root. -/
def Lookup.below (p : PathBase) (e : Lookup) : Lookup := { e with trail := p ++ e.trail }

section below
variable (p : PathBase)

@[simp] theorem Lookup.below_path (e : Lookup) : (e.below p).path = p ++ e.path := List.append_assoc ..

theorem onPath_below (q : PathBase) (e : Lookup) : onPath (p ++ q) (e.below p) = onPath q e := by
  rw [Bool.eq_iff_iff, onPath_iff, onPath_iff, Lookup.below_path]
  exact List.prefix_append_right_inj p

theorem filter_below (q : PathBase) (es : List Lookup) :
    (es.map (Lookup.below p)).filter (onPath (p ++ q)) = (es.filter (onPath q)).map (Lookup.below p) := by
  rw [List.filter_map]
  congr 1
  exact List.filter_congr fun e _ => onPath_below p q e

theorem enterTrail_below (trail : List Bytes) (key : Bytes) (curly : Bool) :
    enterTrail (p ++ trail) key curly = p ++ enterTrail trail key curly := by
  unfold enterTrail
  split_ifs
  · exact List.append_assoc ..
  · rfl

variable {gap : Bytes → Prop}

theorem docLookups_objectFree_below (d : Doc) (h : d.ObjectFree) (trail : List Bytes) (key : Bytes) :
    docLookups (p ++ trail) key d = (docLookups trail key d).map (Lookup.below p) := by
  induction d generalizing key trail with
  | scalar isString raw => rfl
  | block curly items g ih =>
    have hfree : ∀ m ∈ items, m.2.ObjectFree := fun m hm => Doc.all_of_mem h.2 hm
    have hpops : ∀ m ∈ items, docPops m.1.key m.2 = 0 := fun m hm => docPops_objectFree m.2 (hfree m hm) m.1.key
    rw [docLookups, docLookups, List.map_cons, enterTrail_below, itemLookups_eq_flatMap _ _ hpops,
      itemLookups_eq_flatMap _ _ hpops, List.map_flatMap]
    congr 1
    exact List.flatMap_congr fun m hm => ih m hm (hfree m hm) _ _

theorem docLookups_below (d : Doc) (h : d.Plain) (trail : List Bytes) (key : Bytes) :
    docLookups (p ++ trail) key d = (docLookups trail key d).map (Lookup.below p) := by
  induction d generalizing key trail with
  | scalar isString raw => rfl
  | block curly items g ih =>
    cases curly with
    | false =>
      have hfree : (Doc.block false items g).ObjectFree := by
        rw [Doc.ObjectFree, Doc.All]
        exact ⟨rfl, h.1⟩
      exact docLookups_objectFree_below p _ hfree trail key
    | true =>
      have hplain : ∀ m ∈ items, m.2.Plain := fun m hm => Doc.all_of_mem h.2 hm
      have hpops : ∀ m ∈ items, docPops m.1.key m.2 = 0 := plain_pops items h.1.2 hplain
      rw [docLookups, docLookups, List.map_cons, enterTrail_below, itemLookups_eq_flatMap _ _ hpops,
        itemLookups_eq_flatMap _ _ hpops, List.map_flatMap]
      congr 1
      exact List.flatMap_congr fun m hm => ih m hm (hplain m hm) _ _

theorem itemLookups_below (items : List (Slot × Doc)) (ho : PlainObject gap items) (trail : List Bytes) :
    itemLookups (p ++ trail) items = (itemLookups trail items).map (Lookup.below p) := by
  have hpops := plain_pops items ho.nonempty ho.plain
  rw [itemLookups_eq_flatMap _ _ hpops, itemLookups_eq_flatMap _ _ hpops, List.map_flatMap]
  exact List.flatMap_congr fun m hm => docLookups_below p m.2 (ho.plain m hm) _ _

/-- On a path into an object: the objects around it and itself, then what lies on the rest of the path in it. -/
theorem PlainObject.filter_object {items : List (Slot × Doc)} {p : PathBase} {d : Doc}
    (hm : Doc.MemberAt items p d) (ho : PlainObject gap items) (ms : List (Slot × Doc)) (g : Bytes)
    (hd : d = .block true ms g) (q : PathBase) (hq : [] ∉ p ++ q) (trail : List Bytes) :
    ∃ blocks, blocks ≠ [] ∧
      (itemLookups trail items).filter (onPath (trail ++ (p ++ q))) =
        blocks ++ (itemLookups (trail ++ p) ms).filter (onPath (trail ++ (p ++ q))) ∧
      ∀ e ∈ blocks, e.structural = true ∧ e.isString = false ∧ e.raw.head? = some (ch '{') := by
  induction hm generalizing trail with
  | @here items s d h =>
    subst hd
    refine ⟨[⟨trail, s.key, true, (Doc.block true ms g).text, false⟩], List.cons_ne_nil _ _, ?_, ?_⟩
    · rw [List.singleton_append, List.singleton_append, ho.filter_inside h trail q hq, List.append_assoc,
        List.singleton_append]
    · intro e he
      rw [List.mem_singleton.mp he]
      exact ⟨rfl, rfl, rfl⟩
  | @inside items s ms' g' path d h _ ih =>
    have hsub : PlainObject gap ms' := .of_doc (Doc.wfWith_of_mem ho.wf h).2 (ho.plain _ h)
    obtain ⟨blocks, -, hfilter, hblocks⟩ :=
      ih hsub hd (fun hmem => hq (List.mem_cons_of_mem _ hmem)) (trail ++ [s.key])
    refine ⟨⟨trail, s.key, true, (Doc.block true ms' g').text, false⟩ :: blocks, List.cons_ne_nil _ _, ?_, ?_⟩
    · rw [List.cons_append, ho.filter_inside h trail (path ++ q) hq, hfilter]
      simp only [List.append_assoc, List.cons_append, List.nil_append]
    · intro e he
      rcases List.mem_cons.mp he with rfl | he
      · exact ⟨rfl, rfl, rfl⟩
      · exact hblocks e he

end below

section forgets
variable [FloatChars]

theorem ParseNode.Forgets.isCatchAll {n : ParseNode} (h : n.Forgets) : n.isCatchAll = false := by
  unfold Forgets at h
  unfold ParseNode.isCatchAll
  cases hk : n.kind with
  | unknown data calls =>
    rw [hk] at h
    exact h.elim
  | bind target => rfl
  | dynamic data => rfl

/-- The object is assigned, and then the value as if it were the first. -/
theorem coerceValue_forgets (target : Target) (path : PathBase) (isSet isNull : Bool)
    (h : ParseNode.Forgets ⟨path, isSet, isNull, .bind target⟩) (raw : Bytes) (hraw : raw.head? = some (ch '{')) :
    ∃ target', coerceValue raw false target = some target' ∧
      ParseNode.Forgets ⟨path, true, false, .bind target'⟩ ∧
      ∀ raw isNull, coerceValue raw isNull target' = coerceValue raw isNull target := by
  cases target with
  | bool value => exact ⟨_, rfl, trivial, fun _ _ => rfl⟩
  | view value => exact ⟨_, rfl, trivial, fun _ _ => rfl⟩
  | span value => exact h.elim
  | float bits =>
    have hb : FloatChars.float raw bits = bits := h raw bits hraw
    refine ⟨.float bits, ?_, h, fun _ _ => rfl⟩
    rw [coerceValue, if_neg Bool.false_ne_true, hb]
  | double bits =>
    have hb : FloatChars.double raw bits = bits := h raw bits hraw
    refine ⟨.double bits, ?_, h, fun _ _ => rfl⟩
    rw [coerceValue, if_neg Bool.false_ne_true, hb]
  | int value =>
    refine ⟨.int value, ?_, trivial, fun _ _ => rfl⟩
    rw [coerceValue, coerceInt, if_neg Bool.false_ne_true, fromChars_block raw value true hraw]
  | string value =>
    obtain ⟨out, hout, -⟩ := decodeJsonString_total raw raw.length
    refine ⟨.string out, ?_, trivial, fun _ _ => rfl⟩
    rw [coerceValue, if_neg Bool.false_ne_true, hout]
    rfl

theorem assigned_forgets (b : ParseNode) (hb : b.Forgets) (blk : Lookup) (hs : blk.structural = true)
    (hraw : blk.raw.head? = some (ch '{')) :
    (b.assigned blk).Forgets ∧ ∀ e, (b.assigned blk).assigned e = b.assigned e := by
  obtain ⟨path, isSet, isNull, kind⟩ := b
  have hnull : blk.isNull = false := by rw [Lookup.isNull, hs]; rfl
  cases kind with
  | unknown data calls => exact hb.elim
  | dynamic data =>
    rw [assigned_dynamic blk _ data rfl]
    exact ⟨trivial, fun e => by rw [assigned_dynamic e _ _ rfl, assigned_dynamic e _ data rfl]⟩
  | bind target =>
    obtain ⟨target', hc, hforgets, hsame⟩ := coerceValue_forgets target path isSet isNull hb blk.raw hraw
    rw [assigned_bind blk _ target target' rfl (by rw [hnull, hc]), hnull]
    refine ⟨hforgets, fun e => ?_⟩
    obtain ⟨value, hv⟩ := coerceValue_total e.raw e.isNull target
    rw [assigned_bind e _ target' value rfl (by rw [hsame, hv]), assigned_bind e _ target value rfl hv]

theorem foldl_forgets (blocks : List Lookup)
    (h : ∀ e ∈ blocks, e.structural = true ∧ e.isString = false ∧ e.raw.head? = some (ch '{')) (b : ParseNode)
    (hb : b.Forgets) (e : Lookup) : (blocks.foldl (fun n e => n.assigned e) b).assigned e = b.assigned e := by
  induction blocks generalizing b with
  | nil => rfl
  | cons blk blocks ih =>
    obtain ⟨hs, -, hraw⟩ := h blk (by simp)
    obtain ⟨hforgets, hsame⟩ := assigned_forgets b hb blk hs hraw
    rw [List.foldl_cons, ih (fun e he => h e (by simp [he])) _ hforgets, hsame]

/-- A node takes of a value the same under its longer path. -/
theorem assigned_below (p : PathBase) (b : ParseNode) (hb : b.isCatchAll = false) (e : Lookup) :
    (b.below p).assigned (e.below p) = (b.assigned e).below p := by
  obtain ⟨path, isSet, isNull, kind⟩ := b
  cases kind with
  | unknown data calls => cases hb
  | dynamic data =>
    rw [assigned_dynamic e _ data rfl, assigned_dynamic (e.below p) _ data rfl]
    rfl
  | bind target =>
    obtain ⟨value, hv⟩ := coerceValue_total e.raw e.isNull target
    rw [assigned_bind e _ target value rfl hv, assigned_bind (e.below p) _ target value rfl hv]
    rfl

theorem foldl_below (p : PathBase) (es : List Lookup) (b : ParseNode) (hb : b.isCatchAll = false) :
    (es.map (Lookup.below p)).foldl (fun n e => n.assigned e) (b.below p) =
      (es.foldl (fun n e => n.assigned e) b).below p := by
  induction es generalizing b with
  | nil => rfl
  | cons e es ih =>
    rw [List.map_cons, List.foldl_cons, List.foldl_cons, assigned_below p b hb e,
      ih (b.assigned e) (by rw [ParseNode.assigned_isCatchAll, hb])]

end forgets

section takes
variable (p : PathBase)

theorem bound_below (q : PathBase) (n : ParseNode) : bound (p ++ q) (n.below p) = bound q n := by
  have hmatch : (p ++ n.path).matchesParent (p ++ q) = n.path.matchesParent q := by
    rw [Bool.eq_iff_iff, PathBase.matchesParent_iff, PathBase.matchesParent_iff]
    exact List.prefix_append_right_inj p
  rw [bound, bound]
  exact congrArg ((!n.isCatchAll) && ·) hmatch

theorem any_bound_below (q : PathBase) (nodes : List ParseNode) :
    (nodes.map (ParseNode.below p)).any (bound (p ++ q)) = nodes.any (bound q) := by
  rw [List.any_map]
  exact congrArg nodes.any (funext fun n => bound_below p q n)

variable {gap : Bytes → Prop}

/-- What a node takes of the whole document: the objects around, and what it takes of its own object. -/
theorem filter_takes_below {items : List (Slot × Doc)} (g : Bytes) (ho : PlainObject gap items)
    (ms : List (Slot × Doc)) (g' : Bytes) (hm : Doc.MemberAt items p (.block true ms g'))
    (hms : PlainObject gap ms) (before : List ParseNode) (b : ParseNode) (hb : b.isCatchAll = false)
    (hq : [] ∉ p ++ b.path) :
    ∃ blocks, blocks ≠ [] ∧
      (docLookups [] [] (.block true items g)).filter (takes (before.map (ParseNode.below p)) (b.below p)) =
        blocks ++ ((docLookups [] [] (.block true ms g')).filter (takes before b)).map (Lookup.below p) ∧
      ∀ e ∈ blocks, e.structural = true ∧ e.isString = false ∧ e.raw.head? = some (ch '{') := by
  obtain ⟨blocks, hne, hfilter, hblocks⟩ := ho.filter_object hm ms g' rfl b.path hq []
  have hq' : [] ∉ b.path := fun hmem => hq (List.mem_append_right p hmem)
  have hinner := itemLookups_below p ms hms []
  rw [List.append_nil] at hinner
  rw [List.nil_append, List.nil_append, hinner, filter_below] at hfilter
  refine ⟨blocks, hne, ?_, hblocks⟩
  have hbelow : (b.below p).isCatchAll = false := hb
  rw [filter_takes _ _ hbelow, filter_takes before b hb, ParseNode.below, docLookups_onPath items g _ hq,
    docLookups_onPath ms g' _ hq', hfilter, List.filter_append]
  congr 1
  · rw [List.filter_eq_self]
    intro e he
    rw [(hblocks e he).1, Bool.true_or]
  · rw [List.filter_map]
    congr 1
    apply List.filter_congr
    intro e _
    simp only [Function.comp_apply, Lookup.below_path, any_bound_below]
    rfl

end takes

/-- The text of an object that stands in a document, without anything around it. -/
def capturedText (d : Doc) (h : d.WF) : JsonText := ⟨[], d, [], .nil, .nil, h⟩

theorem objectText_text (d : Doc) (h : d.WF) : (capturedText d h).text = d.text := by
  simp [capturedText, JsonText.text]

theorem plain_of_memberAt {items : List (Slot × Doc)} {p : PathBase} {d : Doc} (hm : Doc.MemberAt items p d)
    (h : ∀ m ∈ items, m.2.Plain) : d.Plain := by
  induction hm with
  | here hmem => exact h _ hmem
  | inside hmem _ ih => exact ih fun m hm => Doc.all_of_mem (h _ hmem).2 hm

section agree
variable [FloatChars]

/-- A dynamic node captures the text of its member, if that is an object or an array. -/
theorem parse_block_member (j : JsonText) (hj : j.root.Plain) (q : PathBase) (hq : [] ∉ q) (curly : Bool)
    (items : List (Slot × Doc)) (gap : Bytes) (hm : j.root.HasMember q (.block curly items gap))
    (nodes : List ParseNode) (k : Nat) (isSet isNull : Bool) (data : DynamicNodeBase)
    (hk : nodes[k]? = some ⟨q, isSet, isNull, .dynamic data⟩) :
    ∃ nodes' captured, parse j.text nodes = some nodes' ∧
      nodes'[k]? = some ⟨q, true, false, .dynamic captured⟩ ∧ captured.rawVal = (Doc.block curly items gap).text := by
  obtain ⟨nodes', hp, hn⟩ := parse_jsonText j nodes k _ hk rfl
  obtain ⟨init, e, hfilter, hstruct, -, hpath, hraw⟩ :=
    foundLast_plain j.root (Doc.WF.with _ j.root_wf) hj q hq curly items gap hm
  have htakes : takes (nodes.take k) (ParseNode.reset ⟨q, isSet, isNull, .dynamic data⟩) e = true := by
    rw [takes, hstruct, Bool.true_or, Bool.and_true, bound_iff _ _ rfl, hpath]
    exact List.prefix_refl q
  obtain ⟨init', hlast⟩ := outcome_last (nodes.take k) _ rfl _ init e hfilter htakes
  obtain ⟨data', hkind, hpath'⟩ := foldl_dynamic init' (ParseNode.reset ⟨q, isSet, isNull, .dynamic data⟩)
    data rfl
  refine ⟨nodes', ⟨e.raw, e.isString, e.raw, false⟩, hp, ?_, hraw⟩
  rw [hn, hlast, assigned_dynamic e _ data' hkind, hpath', Lookup.isNull, hstruct]
  rfl

/-- An object that a dynamic node has captured is parsed with paths of its own exactly as the whole document with
the paths below it: a node that is set there has the same value here. A node that is not set there is set here, by
the objects around. -/
theorem parse_captured (j : JsonText) (hj : j.root.Plain) (p : PathBase) (hp : [] ∉ p)
    (items : List (Slot × Doc)) (gap : Bytes) (hm : j.root.HasMember p (.block true items gap))
    (outer : List ParseNode) (i : Nat) (isSet isNull : Bool) (data : DynamicNodeBase)
    (hi : outer[i]? = some ⟨p, isSet, isNull, .dynamic data⟩) (nodes : List ParseNode)
    (hnodes : ∀ n ∈ nodes, [] ∉ n.path ∧ n.Forgets) :
    ∃ outer' captured part whole, parse j.text outer = some outer' ∧
      outer'[i]? = some ⟨p, true, false, .dynamic captured⟩ ∧
      captured.parse true false nodes = some (true, part) ∧
      parse j.text (nodes.map (ParseNode.below p)) = some whole ∧
      ∀ (k : Nat) (b : ParseNode), part[k]? = some b →
        ∃ b' : ParseNode, whole[k]? = some b' ∧ b'.isSet = true ∧ (b.isSet = true → b' = b.below p) := by
  obtain ⟨outer', captured, houter, hcaptured, hraw⟩ :=
    parse_block_member j hj p hp true items gap hm outer i isSet isNull data hi
  obtain ⟨ms, mgap, hroot⟩ := hm.eq_object
  have hrootWf := j.root_wf
  rw [hroot] at hm hj hrootWf
  have hsubWf : (Doc.block true items gap).WF := Doc.wf_of_memberAt hm hrootWf.1
  have hms : PlainObject IsGap ms := .of_doc (Doc.WF.with _ hrootWf) hj
  have hitems : PlainObject IsGap items :=
    .of_doc (Doc.WF.with _ hsubWf) (plain_of_memberAt hm hms.plain)
  let sub := capturedText (.block true items gap) hsubWf
  have hsub : sub.text = captured.rawVal := (objectText_text _ hsubWf).trans hraw.symm
  obtain ⟨part, hpart⟩ : ∃ part, parse sub.text nodes = some part := ⟨_, parse_eq sub.text nodes⟩
  obtain ⟨whole, hwhole⟩ : ∃ whole, parse j.text (nodes.map (ParseNode.below p)) = some whole :=
    ⟨_, parse_eq j.text _⟩
  refine ⟨outer', captured, part, whole, houter, hcaptured, ?_, hwhole, ?_⟩
  · rw [DynamicNodeBase.parse, ← hsub, hpart]
    rfl
  intro k b hk
  -- the node that was given
  have hlt : k < nodes.length := by
    have hlen := congrArg List.length (parse_shape _ _ _ hpart)
    rw [List.length_map, List.length_map] at hlen
    rw [← hlen]
    exact (List.getElem?_eq_some_iff.mp hk).1
  obtain ⟨hkeys, hforgets⟩ := hnodes _ (List.getElem_mem hlt)
  have hget : nodes[k]? = some nodes[k] := List.getElem?_eq_getElem hlt
  have hq : [] ∉ p ++ nodes[k].path := by
    rw [List.mem_append]
    exact fun hmem => hmem.elim hp hkeys
  obtain ⟨part', hpart', hin⟩ := parse_jsonText sub nodes k nodes[k] hget hforgets.isCatchAll
  obtain rfl : part = part' := Option.some.inj (hpart.symm.trans hpart')
  obtain rfl := Option.some.inj (hk.symm.trans hin)
  have hget' : (nodes.map (ParseNode.below p))[k]? = some (nodes[k].below p) := by
    rw [List.getElem?_map, hget]
    rfl
  obtain ⟨whole', hwhole', hout⟩ := parse_jsonText j _ k _ hget' hforgets.isCatchAll
  obtain rfl : whole = whole' := Option.some.inj (hwhole.symm.trans hwhole')
  obtain ⟨blocks, hne, hfilter, hblocks⟩ := filter_takes_below p mgap hms items gap hm hitems (nodes.take k)
    nodes[k].reset hforgets.isCatchAll hq
  have hwholeTaken : outcome ((nodes.map (ParseNode.below p)).take k) (nodes[k].below p).reset
      (docLookups [] [] j.root) = (blocks ++ ((docLookups [] [] (.block true items gap)).filter
        (takes (nodes.take k) nodes[k].reset)).map (Lookup.below p)).foldl (fun n e => n.assigned e)
          (nodes[k].reset.below p) := by
    rw [outcome, hroot, ← List.map_take, ← hfilter]
    rfl
  refine ⟨_, hout, ?_, ?_⟩
  · rw [hwholeTaken]
    exact foldl_assigned_isSet _ _ (.inl (List.append_ne_nil_of_left_ne_nil hne _))
  · intro hset
    have hall : nodes[k].reset.isCatchAll = false := hforgets.isCatchAll
    rw [hwholeTaken, outcome, ← foldl_below p _ _ hall, List.foldl_append]
    cases htaken : (docLookups [] [] sub.root).filter (takes (nodes.take k) nodes[k].reset) with
    | nil =>
      rw [outcome, htaken] at hset
      cases hset
    | cons e es =>
      rw [show (docLookups [] [] (.block true items gap)).filter (takes (nodes.take k) nodes[k].reset) = e :: es
        from htaken, List.map_cons, List.foldl_cons, List.foldl_cons]
      have hbelow : (nodes[k].reset.below p).Forgets := hforgets
      rw [foldl_forgets blocks hblocks _ hbelow]

end agree

theorem parse_captured_nestedText :
    ∃ outer' captured part whole,
      @parse keepFloats nestedText.text [⟨[bytes "a"], false, false, .dynamic ⟨[], false, [], false⟩⟩] = some outer' ∧
      outer'[0]? = some ⟨[bytes "a"], true, false, .dynamic captured⟩ ∧
      @DynamicNodeBase.parse keepFloats true false captured [intNode [bytes "b"], intNode [bytes "c"]] =
        some (true, part) ∧
      @parse keepFloats nestedText.text [intNode [bytes "a", bytes "b"], intNode [bytes "a", bytes "c"]] =
        some whole ∧
      ∀ (k : Nat) (b : ParseNode), part[k]? = some b → ∃ b' : ParseNode, whole[k]? = some b' ∧ b'.isSet = true ∧
        (b.isSet = true → b' = b.below [bytes "a"]) := by
  let _ := keepFloats
  refine parse_captured nestedText nestedText_plain [bytes "a"] (by decide) _ _
    (.here (s := ⟨bytes " ", some ⟨bytes "a", bytes " ", bytes " "⟩, [], true⟩) (.head _))
    [⟨[bytes "a"], false, false, .dynamic ⟨[], false, [], false⟩⟩] 0 false false _ rfl
    [intNode [bytes "b"], intNode [bytes "c"]] ?_
  intro n hn
  rcases List.mem_cons.mp hn with rfl | hn
  · exact ⟨by decide, trivial⟩
  · rw [List.mem_singleton.mp hn]
    exact ⟨by decide, trivial⟩

end Espbase.StackJson
