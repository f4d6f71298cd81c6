import Espbase.StackJson.ParserReuse
import Espbase.StackJson.ScalarLookup

namespace Espbase.StackJson

open Espbase.Lib

section captured

/-- The lookup of a value in a document. -/
def valueLookup (trail : List Bytes) (key : Bytes) (d : Doc) : Lookup :=
  ⟨trail, key, d.isBlock, d.content, d.isString⟩

/-- A primitive that is `null` is looked up as such, no other value is. -/
theorem valueLookup_isNull (trail : List Bytes) (key : Bytes) (d : Doc) :
    (valueLookup trail key d).isNull = decide (d.kind = .null) := by
  cases d with
  | block curly items gap => cases curly <;> rfl
  | scalar isString raw =>
    cases isString with
    | true => rfl
    | false =>
      show (raw == bytes "null") = decide (Doc.kind _ = .null)
      unfold Doc.kind
      by_cases hnull : raw = bytes "null"
      · simp [hnull]
      · by_cases hbool : raw = bytes "true" ∨ raw = bytes "false" <;> simp [hnull, hbool]

/-- Of all that the text offers the node `b`, at position `k` of the parser, it takes last the value `d`
at its exact path. -/
def Captured (nodes : List ParseNode) (k : Nat) (b : ParseNode) (json : Bytes) (d : Doc) : Prop :=
  ∃ trail key, trail ++ [key] = b.path ∧
    (taken nodes k b json).getLast? = some (valueLookup trail key d)

/-- A dynamic node that holds a value, before anything is extracted from it. -/
def capturedNode (path : PathBase) (d : Doc) : ParseNode :=
  ⟨path, true, decide (d.kind = .null), .dynamic ⟨d.content, d.isString, d.content, false⟩⟩

/-- The last value on the path of a member is the member. -/
theorem PlainObject.filter_last {items : List (Slot × Doc)} {q : PathBase} {d : Doc}
    (hm : Doc.MemberAt items q d) (ho : PlainObject IsGap items) (hq : [] ∉ q) :
    ∃ init trail key, trail ++ [key] = q ∧
      (itemLookups [] items).filter (onPath q) = init ++ [valueLookup trail key d] := by
  cases d with
  | scalar isString raw =>
    obtain ⟨init, e, hfilter, -, hpath, hs, hstr, hraw⟩ := ho.filter_member hm hq isString raw rfl []
    refine ⟨init, e.trail, e.key, hpath, ?_⟩
    rw [List.nil_append] at hfilter
    rw [hfilter, ← hraw, ← hstr]
    show init ++ [e] = init ++ [⟨e.trail, e.key, false, e.raw, e.isString⟩]
    rw [← hs]
  | block curly ms gap =>
    obtain ⟨init, e, hfilter, hs, hstr, hpath, hraw⟩ := ho.filter_block hm hq curly ms gap rfl []
    refine ⟨init, e.trail, e.key, hpath, ?_⟩
    rw [List.nil_append] at hfilter
    rw [hfilter]
    show init ++ [e] = init ++ [⟨e.trail, e.key, true, (Doc.block curly ms gap).text, false⟩]
    rw [← hraw, ← hs, ← hstr]

/-- In a plain document every member is captured by the first binding of its path. -/
theorem captured_plain (j : JsonText) (hj : j.root.Plain) (nodes : List ParseNode) (k : Nat)
    (b : ParseNode) (hb : b.isCatchAll = false) (hq : [] ∉ b.path) (d : Doc)
    (hm : j.root.HasMember b.path d) (hfirst : (nodes.take k).any (bound b.path) = false) :
    Captured nodes k b j.text d := by
  obtain ⟨items, gap, hroot⟩ := hm.eq_object
  have hwf := j.root_wf
  rw [hroot] at hm hj hwf
  obtain ⟨init, trail, key, hpath, hfilter⟩ :=
    (PlainObject.of_doc (Doc.WF.with _ hwf) hj).filter_last hm hq
  have honpath : (docLookups [] [] j.root).filter (onPath b.path) = init ++ [valueLookup trail key d] := by
    rw [hroot, docLookups_onPath items gap b.path hq, hfilter]
  have hlast : [valueLookup trail key d].filter
      (fun e => e.structural || !(nodes.take k).any (bound e.path)) = [valueLookup trail key d] := by
    have hp : (valueLookup trail key d).path = b.path := hpath
    simp [hp, hfirst]
  refine ⟨trail, key, hpath, ?_⟩
  rw [taken, lookups_jsonText, filter_takes _ b hb, honpath, List.filter_append, hlast,
    List.getLast?_append_of_ne_nil _ (List.cons_ne_nil _ _), List.getLast?_singleton]

variable [FloatChars]

/-- What a parse leaves in a node that captured a value. -/
theorem Captured.parse {nodes : List ParseNode} {k : Nat} {q : PathBase} {isSet isNull : Bool}
    {data : DynamicNodeBase} {json : Bytes} {d : Doc}
    (hk : nodes[k]? = some ⟨q, isSet, isNull, .dynamic data⟩)
    (hcap : Captured nodes k ⟨q, isSet, isNull, .dynamic data⟩ json d) :
    ∃ nodes', StackJson.parse json nodes = some nodes' ∧ nodes'[k]? = some (capturedNode q d) := by
  obtain ⟨trail, key, -, hlast⟩ := hcap
  obtain ⟨nodes', hp, hn⟩ := parse_dynamic (b := ⟨q, isSet, isNull, .dynamic data⟩) json nodes isSet isNull
    data rfl rfl hk
  refine ⟨nodes', hp, ?_⟩
  rw [hn, hlast, dynamicAfter, valueLookup_isNull]
  rfl

/-- What is asked of the node after a parse is asked of the node that holds the value. -/
theorem Captured.parse_iff {nodes : List ParseNode} {k : Nat} {q : PathBase} {isSet isNull : Bool}
    {data : DynamicNodeBase} {json : Bytes} {d : Doc}
    (hk : nodes[k]? = some ⟨q, isSet, isNull, .dynamic data⟩)
    (hcap : Captured nodes k ⟨q, isSet, isNull, .dynamic data⟩ json d) (p : ParseNode → Prop) :
    (∃ nodes' n, StackJson.parse json nodes = some nodes' ∧ nodes'[k]? = some n ∧ p n) ↔
      p (capturedNode q d) := by
  obtain ⟨nodes', hp, hn⟩ := hcap.parse hk
  constructor
  · intro hparsed
    obtain ⟨nodes₁, n, hp₁, hn₁, h⟩ := hparsed
    obtain rfl := Option.some.inj (hp.symm.trans hp₁)
    obtain rfl := Option.some.inj (hn.symm.trans hn₁)
    exact h
  · intro h
    exact ⟨nodes', _, hp, hn, h⟩

end captured

section kinds

/-- The type predicates of a dynamic node. -/
def NodeAnswers.reports (a : NodeAnswers) : JsonKind → Bool
  | .null => a.isNull
  | .string => a.isString
  | .array => a.isArray
  | .object => a.isObject
  | .boolean => a.isBoolean
  | .number => a.isNumber

/-- The contents of a string that the other predicates react to. -/
def Misleading (d : Doc) : Prop :=
  d.kind = .string ∧ (d.content.head? = some (ch '[') ∨ d.content.head? = some (ch '{') ∨
    d.content = bytes "true" ∨ d.content = bytes "false")

variable [FloatChars]

/-- The node answers to exactly the predicate of the value's type, and gives a string at the first
extraction. -/
def Classifies (n : ParseNode) (d : Doc) : Prop :=
  (∃ a, n.answers = some a ∧ ∀ kind, a.reports kind = true ↔ kind = d.kind) ∧
    (d.kind = .string → ∀ s, ∃ out, decodeJsonString d.content d.content.length = some out ∧
      n.extractions [.string s] = some [(true, .string out)])

/-- A parse of the text leaves a node that classifies the value. -/
def ParseClassifies (json : Bytes) (nodes : List ParseNode) (k : Nat) (d : Doc) : Prop :=
  ∃ nodes' n, parse json nodes = some nodes' ∧ nodes'[k]? = some n ∧ Classifies n d

omit [FloatChars] in
theorem front_eq_iff (raw : Bytes) (c : UInt8) :
    (decide (raw ≠ [] ∧ front raw = some c) = true) ↔ raw.head? = some c := by
  cases raw <;> simp [front]

omit [FloatChars] in
/-- The first character and the text tell the types of all values but strings apart. -/
theorem content_kind (d : Doc) (hwf : d.WF) (hd : d.kind ≠ .string) :
    (d.content.head? = some (ch '[') ↔ d.kind = .array) ∧
      (d.content.head? = some (ch '{') ↔ d.kind = .object) ∧
      (d.content = bytes "true" ∨ d.content = bytes "false" ↔ d.kind = .boolean) ∧
      d.isString = false := by
  cases d with
  | block curly items gap =>
    have hbool : ¬ (opening curly = ch 't' ∨ opening curly = ch 'f') := by cases curly <;> decide
    have hhead : (Doc.block curly items gap).content.head? = some (opening curly) := by
      rw [Doc.content, Doc.text]
      rfl
    have htext : ¬ ((Doc.block curly items gap).content = bytes "true" ∨
        (Doc.block curly items gap).content = bytes "false") := by
      intro h
      apply hbool
      refine h.imp ?_ ?_ <;>
      · intro h
        rw [h] at hhead
        exact (Option.some.inj hhead).symm
    rw [hhead]
    refine ⟨?_, ?_, iff_of_false htext ?_, rfl⟩ <;> cases curly <;> simp [Doc.kind, opening] <;> decide
  | scalar isString raw =>
    cases isString with
    | true => exact absurd rfl hd
    | false =>
      obtain ⟨c, s, rfl⟩ := List.exists_cons_of_ne_nil hwf.1
      have hc := hwf.2 c (by simp)
      simp only [List.mem_cons, List.not_mem_nil, or_false, not_or] at hc
      have hkind : (Doc.scalar false (c :: s)).kind ≠ .array ∧ (Doc.scalar false (c :: s)).kind ≠ .object := by
        unfold Doc.kind
        dsimp only
        split_ifs <;> simp
      refine ⟨?_, ?_, ?_, rfl⟩
      · exact iff_of_false (fun h => hc.2.2.2.2.2.2.2.2.1 (Option.some.inj h)) hkind.1
      · exact iff_of_false (fun h => hc.2.2.2.2.2.2.2.1 (Option.some.inj h)) hkind.2
      · unfold Doc.kind Doc.content
        dsimp only
        by_cases hnull : c :: s = bytes "null"
        · rw [if_pos hnull, hnull]
          decide
        · rw [if_neg hnull]
          split_ifs with hbool <;> simp [hbool]

/-- What stands in a node as it was captured is delivered once when it does not start like an array. -/
theorem extractions_captured (q : PathBase) (d : Doc) (hhead : d.content.head? ≠ some (ch '['))
    (target : Target) :
    (capturedNode q d).extractions [target] =
      (coerceValue d.content (decide (d.kind = .null)) target).map fun target => [(true, target)] := by
  have harr : ¬ (d.content ≠ [] ∧ front d.content = some (ch '[')) := fun h =>
    hhead ((front_eq_iff d.content (ch '[')).mp (decide_eq_true h))
  show extractions true (decide (d.kind = .null)) [target] ⟨d.content, d.isString, d.content, false⟩ = _
  unfold extractions extract
  simp only [Bool.not_true, Bool.false_eq_true, if_false, if_neg harr, Option.bind_eq_bind]
  cases coerceValue d.content (decide (d.kind = .null)) target <;> rfl

omit [FloatChars] in
theorem capturedNode_answers (q : PathBase) (d : Doc) :
    ∃ a, (capturedNode q d).answers = some a ∧ (a.isNull = true ↔ d.kind = .null) ∧
      a.isString = d.isString ∧ (a.isArray = true ↔ d.content.head? = some (ch '[')) ∧
      (a.isObject = true ↔ d.content.head? = some (ch '{')) ∧
      (a.isBoolean = true ↔ d.content = bytes "true" ∨ d.content = bytes "false") ∧
      a.isNumber = (!a.isNull && !a.isString && !a.isArray && !a.isObject && !a.isBoolean) := by
  refine ⟨_, rfl, decide_eq_true_iff, rfl, front_eq_iff _ _, front_eq_iff _ _, ?_, rfl⟩
  simp [DynamicNodeBase.isBoolean]

omit [FloatChars] in
theorem isString_iff (d : Doc) : d.isString = true ↔ d.kind = .string := by
  cases d with
  | block curly items gap => cases curly <;> simp [Doc.isString, Doc.kind]
  | scalar isString raw =>
    cases isString with
    | true => simp [Doc.isString, Doc.kind]
    | false =>
      unfold Doc.isString Doc.kind
      dsimp only
      split_ifs <;> simp

/-- A captured value is classified exactly when it is not a misleading string. -/
theorem capturedNode_classifies_iff (q : PathBase) (d : Doc) (hwf : d.WF) :
    Classifies (capturedNode q d) d ↔ ¬ Misleading d := by
  obtain ⟨a, ha, hnull, hstr, harr, hobj, hbool, hnum⟩ := capturedNode_answers q d
  by_cases hs : d.kind = .string
  · have hisString : d.isString = true := (isString_iff d).mpr hs
    have hnotNull : a.isNull = false := by
      rw [← Bool.not_eq_true, hnull, hs]
      decide
    constructor
    · rintro ⟨⟨a', ha', hreports⟩, -⟩ ⟨-, hmislead⟩
      obtain rfl := Option.some.inj (ha.symm.trans ha')
      have hother (kind : JsonKind) (hkind : kind ≠ .string) : ¬ a.reports kind = true := by
        rw [hreports kind, hs]
        exact hkind
      rcases hmislead with h | h | h
      · exact hother .array (by decide) (harr.mpr h)
      · exact hother .object (by decide) (hobj.mpr h)
      · exact hother .boolean (by decide) (hbool.mpr h)
    · intro hplain
      have hnone : ¬ (_ ∨ _ ∨ _) := fun h => hplain ⟨hs, h⟩
      rw [not_or, not_or] at hnone
      obtain ⟨hnotArr, hnotObj, hnotBool⟩ := hnone
      rw [← harr, Bool.not_eq_true] at hnotArr
      rw [← hobj, Bool.not_eq_true] at hnotObj
      rw [← hbool, Bool.not_eq_true] at hnotBool
      rw [hisString] at hstr
      refine ⟨⟨a, ha, ?_⟩, ?_⟩
      · intro kind
        rw [hs]
        cases kind <;> simp [NodeAnswers.reports, hnotNull, hstr, hnotArr, hnotObj, hnotBool, hnum]
      · intro _ s
        obtain ⟨out, hout, -⟩ := decodeJsonString_total d.content d.content.length
        refine ⟨out, hout, ?_⟩
        rw [extractions_captured q d (by rw [ne_eq, ← harr, hnotArr]; decide), hs]
        simp [coerceValue, hout]
  · obtain ⟨hArr, hObj, hBool, hisString⟩ := content_kind d hwf hs
    refine iff_of_true ⟨⟨a, ha, ?_⟩, fun h => absurd h hs⟩ fun h => hs h.1
    rw [hArr] at harr
    rw [hObj] at hobj
    rw [hBool] at hbool
    rw [hisString] at hstr
    intro kind
    cases kind with
    | null => exact hnull.trans eq_comm
    | string => simp [NodeAnswers.reports, hstr, Ne.symm hs]
    | array => exact harr.trans eq_comm
    | object => exact hobj.trans eq_comm
    | boolean => exact hbool.trans eq_comm
    | number =>
      show a.isNumber = true ↔ _
      rw [hnum, hstr]
      simp only [Bool.and_eq_true, Bool.not_eq_true', ← Bool.not_eq_true, hnull, harr, hobj, hbool]
      cases hk : d.kind with
      | string => exact absurd hk hs
      | _ => simp

/-- Whatever text a member's value stands in, the dynamic node that captured it has the predicates of its
type and gives its characters, if and only if it is not a misleading string. -/
theorem parse_classifies_iff (j : JsonText) (q : PathBase) (d : Doc) (hm : j.root.HasMember q d)
    (nodes : List ParseNode) (k : Nat) (isSet isNull : Bool) (data : DynamicNodeBase)
    (hk : nodes[k]? = some ⟨q, isSet, isNull, .dynamic data⟩)
    (hcap : Captured nodes k ⟨q, isSet, isNull, .dynamic data⟩ j.text d) :
    ParseClassifies j.text nodes k d ↔ ¬ Misleading d := by
  rw [← capturedNode_classifies_iff q d (Doc.wf_of_member j.root_wf hm)]
  exact hcap.parse_iff hk fun n => Classifies n d

end kinds

theorem parse_classifies_iff_nestedText :
    let c : Doc := .block false [(⟨[], none, [], true⟩, .scalar false (bytes "1")),
      (⟨bytes " ", none, [], false⟩, .block false [(⟨[], none, [], false⟩, .scalar false (bytes "2"))] [])] []
    @ParseClassifies keepFloats nestedText.text [⟨[bytes "c"], false, false, .dynamic .blank⟩] 0 c ↔
      ¬ Misleading c := by
  intro c
  let _ := keepFloats
  have hm : nestedText.root.HasMember [bytes "c"] c :=
    .here (s := ⟨[], some ⟨bytes "c", [], []⟩, [], false⟩) (.tail _ (.head _))
  exact parse_classifies_iff nestedText [bytes "c"] c hm _ 0 false false .blank rfl
    (captured_plain nestedText nestedText_plain _ 0 _ rfl (by decide) c hm rfl)

/-- `{"a":d}` -/
def aMember (d : Doc) (hd : d.WF) : JsonText where
  before := []
  root := .block true [(.compact (bytes "a") false, d)] []
  after := []
  before_gap := .nil
  after_gap := .nil
  root_wf := ⟨⟨Slot.compact_wf _ _ (by decide), hd, fun h => absurd rfl h, trivial⟩, .nil⟩

theorem aMember_captured (d : Doc) (hd : d.WF) (hplain : d.Plain) :
    (aMember d hd).root.HasMember [bytes "a"] d ∧ Captured [listNode] 0 listNode (aMember d hd).text d := by
  have hm : (aMember d hd).root.HasMember [bytes "a"] d :=
    .here (s := .compact (bytes "a") false) (.head _)
  have hroot : (aMember d hd).root.Plain := by
    refine ⟨⟨List.nodup_singleton _, ?_⟩, hplain, trivial⟩
    intro m hmem
    rw [List.mem_singleton.mp hmem]
    exact List.cons_ne_nil _ _
  exact ⟨hm, captured_plain (aMember d hd) hroot [listNode] 0 listNode rfl (by decide) d hm rfl⟩

def bracketString : Doc := .scalar true (bytes "[x")

theorem bracketString_wf : bracketString.WF := by
  show IsStringBody (bytes "[x")
  decide

/-- A string that starts with a bracket is taken for an array as well. -/
theorem parse_bracketString :
    (aMember bracketString bracketString_wf).root.HasMember [bytes "a"] bracketString ∧
      Captured [listNode] 0 listNode (aMember bracketString bracketString_wf).text bracketString ∧
      (@parse keepFloats (aMember bracketString bracketString_wf).text [listNode]).map
          (List.map ParseNode.answers) =
        some [some ⟨true, false, bytes "[x", true, true, false, false, false⟩] ∧
      ¬ @ParseClassifies keepFloats (aMember bracketString bracketString_wf).text [listNode] 0 bracketString := by
  let _ := keepFloats
  have hparse : (parse (aMember bracketString bracketString_wf).text [listNode]).map
      (List.map ParseNode.answers) =
        some [some ⟨true, false, bytes "[x", true, true, false, false, false⟩] := by
    decide
  obtain ⟨hm, hcap⟩ := aMember_captured bracketString bracketString_wf trivial
  refine ⟨hm, hcap, hparse, ?_⟩
  intro h
  obtain ⟨nodes', n, hp, hn, ⟨a, ha, hreports⟩, -⟩ := h
  rw [hp, Option.map_some, Option.some.injEq] at hparse
  have hn' := congrArg (fun l => l[0]?) hparse
  rw [List.getElem?_map, hn, Option.map_some, ha] at hn'
  obtain rfl := Option.some.inj (Option.some.inj hn')
  exact absurd ((hreports .array).mp rfl) (by decide)

end Espbase.StackJson
