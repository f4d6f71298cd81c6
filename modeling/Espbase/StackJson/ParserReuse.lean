import Espbase.StackJson.ArrayTokens
import Espbase.StackJson.Capture

namespace Espbase.StackJson

open Espbase.Lib

section node

/-- A `DynamicNodeBase` before anything was assigned to it. -/
def DynamicNodeBase.blank : DynamicNodeBase := ⟨[], false, [], false⟩

/-- A node as its constructor leaves it. -/
def ParseNode.constructed (n : ParseNode) : ParseNode where
  path := n.path
  isSet := false
  isNull := false
  kind :=
    match n.kind with
    | .bind target => .bind target
    | .dynamic _ => .dynamic .blank
    | .unknown _ _ => .unknown .blank []

namespace DynamicNodeBase
variable (d : DynamicNodeBase)

def raw : Bytes := d.rawVal

def isArray : Bool := d.rawVal ≠ [] ∧ front d.rawVal = some (ch '[')

def isObject : Bool := d.rawVal ≠ [] ∧ front d.rawVal = some (ch '{')

def isBoolean : Bool := d.rawVal == bytes "true" || d.rawVal == bytes "false"

def isNumber (isSet isNull : Bool) : Bool :=
  isSet && !isNull && !d.isString && !d.isArray && !d.isObject && !d.isBoolean

end DynamicNodeBase

/-- What a dynamic node answers to the calls that leave it as it is. -/
structure NodeAnswers where
  isSet : Bool
  isNull : Bool
  raw : Bytes
  isString : Bool
  isArray : Bool
  isObject : Bool
  isBoolean : Bool
  isNumber : Bool
deriving DecidableEq

def ParseNode.answers (n : ParseNode) : Option NodeAnswers :=
  match n.kind with
  | .dynamic d => some ⟨n.isSet, n.isNull, d.raw, d.isString, d.isArray, d.isObject, d.isBoolean,
      d.isNumber n.isSet n.isNull⟩
  | _ => none

end node

section use
variable [FloatChars]

/-- The results of extractions into the targets, one after the other. -/
def extractions (isSet isNull : Bool) : List Target → DynamicNodeBase → Option (List (Bool × Target))
  | [], _ => some []
  | target :: targets, d => do
    let (more, d, target) ← extract isSet isNull d target
    let results ← extractions isSet isNull targets d
    some ((more, target) :: results)

def ParseNode.extractions (n : ParseNode) (targets : List Target) : Option (List (Bool × Target)) :=
  match n.kind with
  | .dynamic d => StackJson.extractions n.isSet n.isNull targets d
  | _ => none

/-- A call on a parser, or on the dynamic node at a position of it. -/
inductive Use where
  | parse (json : Bytes)
  | extract (k : Nat) (target : Target)

def Use.document : Use → Option Bytes
  | .parse json => some json
  | .extract _ _ => none

def Use.run (nodes : List ParseNode) : Use → Option (List ParseNode)
  | .parse json => StackJson.parse json nodes
  | .extract k target =>
    match nodes[k]? with
    | some ⟨path, isSet, isNull, .dynamic d⟩ => do
      let (_, d, _) ← StackJson.extract isSet isNull d target
      some (nodes.set k ⟨path, isSet, isNull, .dynamic d⟩)
    | _ => some nodes

def runUses (nodes : List ParseNode) (uses : List Use) : Option (List ParseNode) :=
  uses.foldlM Use.run nodes

/-- Whether a text has a value that the node `b`, at position `k` of the parser, is assigned. -/
def Assigns (nodes : List ParseNode) (k : Nat) (b : ParseNode) (json : Bytes) : Prop :=
  ∃ e ∈ lookups [] [] json, takes (nodes.take k) b e = true

/-- After the calls and a last parse, the dynamic node at position `k` answers as the one of a new
parser that has parsed the last text only. -/
def ReuseAgrees (nodes : List ParseNode) (uses : List Use) (json : Bytes) (k : Nat) : Prop :=
  ∃ used last fresh n n', runUses (nodes.map ParseNode.constructed) uses = some used ∧
    parse json used = some last ∧ parse json (nodes.map ParseNode.constructed) = some fresh ∧
    last[k]? = some n ∧ fresh[k]? = some n' ∧ n.answers = n'.answers ∧
    ∀ targets, n.extractions targets = n'.extractions targets

end use

section blank

theorem blockOf_ne_nil (n : Int) (c : UInt8) (s : Bytes) : blockOf n false (c :: s) ≠ [] := by
  rw [blockOf]
  split_ifs <;> simp

theorem readToken_solid (trail : List Bytes) (key : Bytes) (c : UInt8) (s : Bytes) :
    ∀ e ∈ (readToken trail key c s).1, e.isString = true ∨ e.raw ≠ [] := by
  intro e he
  unfold readToken at he
  dsimp only at he
  split_ifs at he <;> simp only [List.mem_singleton, List.not_mem_nil] at he <;> subst he <;>
    first
    | exact .inl rfl
    | exact .inr (blockOf_ne_nil 0 c s)
    | exact .inr (List.cons_ne_nil _ _)

/-- A value that is looked up is a string or not empty. -/
theorem lookups_solid (trail : List Bytes) (key text : Bytes) :
    ∀ e ∈ lookups trail key text, e.isString = true ∨ e.raw ≠ [] := by
  fun_induction lookups trail key text with
  | case1 => simp
  | case2 trail key text c s hgap ih =>
    intro e he
    rcases List.mem_append.mp he with he | he
    · exact readToken_solid trail key c s e he
    · exact ih e he

end blank

section run
variable [FloatChars]

theorem parse_shape (json : Bytes) (nodes nodes' : List ParseNode) (h : parse json nodes = some nodes') :
    nodes'.map ParseNode.shape = nodes.map ParseNode.shape := by
  have hall (size : Nat) (es : List Lookup) (nodes : List ParseNode) :
      (deliverAll size nodes es).map ParseNode.shape = nodes.map ParseNode.shape := by
    unfold deliverAll
    induction es.filter (fun e => decide (e.trail.length < size)) generalizing nodes with
    | nil => rfl
    | cons e es ih => rw [List.foldl_cons, ih, deliver_shape]
  rw [parse_eq, Option.some.injEq] at h
  rw [← h, hall, List.map_map]
  rfl

theorem extract_isString (isSet isNull more : Bool) (d d' : DynamicNodeBase) (target target' : Target)
    (h : extract isSet isNull d target = some (more, d', target')) : d'.isString = d.isString := by
  have hstarted (d₁ : DynamicNodeBase) (h : d.started = some d₁) : d₁.isString = d.isString := by
    unfold DynamicNodeBase.started at h
    split_ifs at h
    · rw [Option.bind_eq_bind, Option.bind_eq_some_iff] at h
      obtain ⟨v, -, hd⟩ := h
      rw [← Option.some.inj hd]
    · rw [← Option.some.inj h]
  unfold extract at h
  split_ifs at h
  · rw [Option.some.injEq, Prod.mk.injEq, Prod.mk.injEq] at h
    rw [← h.2.1]
  · simp only [Option.bind_eq_bind, Option.bind_eq_some_iff] at h
    obtain ⟨d₁, hd₁, t, -, h⟩ := h
    have hs := hstarted d₁ hd₁
    split_ifs at h
    · rw [Option.some.injEq, Prod.mk.injEq, Prod.mk.injEq] at h
      rw [← h.2.1, ← hs]
    · obtain ⟨target₁, -, h⟩ := Option.bind_eq_some_iff.mp h
      rw [Option.some.injEq, Prod.mk.injEq, Prod.mk.injEq] at h
      rw [← h.2.1, ← hs]
  · rw [Option.some.injEq, Prod.mk.injEq, Prod.mk.injEq] at h
    rw [← h.2.1]
  · simp only [Option.bind_eq_bind, Option.bind_eq_some_iff] at h
    obtain ⟨target₁, -, h⟩ := h
    rw [Option.some.injEq, Prod.mk.injEq, Prod.mk.injEq] at h
    rw [← h.2.1]

variable {nodes : List ParseNode} {k : Nat} {b : ParseNode}

/-- A dynamic node after assignments has the data of the last one, whatever it had before. -/
theorem foldl_dynamic_last (es : List Lookup) (e : Lookup) (n : ParseNode) (d : DynamicNodeBase)
    (hn : n.kind = .dynamic d) :
    (es ++ [e]).foldl (fun n e => n.assigned e) n =
      ⟨n.path, true, e.isNull, .dynamic ⟨e.raw, e.isString, e.raw, false⟩⟩ := by
  obtain ⟨d', hk, hp⟩ := foldl_dynamic es n d hn
  rw [List.foldl_append, List.foldl_cons, List.foldl_nil, assigned_dynamic e _ d' hk, hp]

/-- The values of a text that the node `b`, at position `k` of the parser, is assigned. -/
def taken (nodes : List ParseNode) (k : Nat) (b : ParseNode) (json : Bytes) : List Lookup :=
  (lookups [] [] json).filter (takes (nodes.take k) b)

omit [FloatChars] in
theorem assigns_iff (json : Bytes) : Assigns nodes k b json ↔ taken nodes k b json ≠ [] := by
  unfold Assigns taken
  rw [ne_eq, List.filter_eq_nil_iff]
  push Not
  rfl

/-- A dynamic node after a parse: the last value that it is assigned, else its old data, unset. -/
def dynamicAfter (path : PathBase) (d : DynamicNodeBase) : Option Lookup → ParseNode
  | some e => ⟨path, true, e.isNull, .dynamic ⟨e.raw, e.isString, e.raw, false⟩⟩
  | none => ⟨path, false, false, .dynamic d⟩

theorem parse_dynamic (json : Bytes) (used : List ParseNode) (isSet isNull : Bool) (d : DynamicNodeBase)
    (hshape : used.map ParseNode.shape = nodes.map ParseNode.shape) (hb : b.isCatchAll = false)
    (hn : used[k]? = some ⟨b.path, isSet, isNull, .dynamic d⟩) :
    ∃ used', parse json used = some used' ∧
      used'[k]? = some (dynamicAfter b.path d (taken nodes k b json).getLast?) := by
  obtain ⟨used', hp, hk⟩ := parse_binding json used k _ hn rfl
  refine ⟨used', hp, ?_⟩
  have hbefore : (used.take k).map ParseNode.shape = (nodes.take k).map ParseNode.shape := by
    rw [List.map_take, hshape, List.map_take]
  have hnode : (ParseNode.reset ⟨b.path, isSet, isNull, .dynamic d⟩).shape = b.shape := by
    rw [ParseNode.shape, ParseNode.shape, hb]
    rfl
  have htaken : (lookups [] [] json).filter (takes (used.take k)
      (ParseNode.reset ⟨b.path, isSet, isNull, .dynamic d⟩)) = taken nodes k b json :=
    List.filter_congr fun e _ => takes_congr _ _ _ _ e hbefore hnode
  rw [hk, outcome, htaken]
  cases hlast : (taken nodes k b json).getLast? with
  | none =>
    rw [List.getLast?_eq_none_iff.mp hlast]
    rfl
  | some e =>
    obtain ⟨init, hinit⟩ := List.getLast?_eq_some_iff.mp hlast
    rw [hinit, foldl_dynamic_last init e _ d rfl]
    rfl

/-- What calls on a parser leave in the dynamic node at position `k`: data that can be seen once some
text has assigned it, and nothing before. -/
structure Residue (nodes : List ParseNode) (k : Nat) (b : ParseNode) (assigned : Prop)
    (used : List ParseNode) (isSet isNull : Bool) (d : DynamicNodeBase) : Prop where
  shape : used.map ParseNode.shape = nodes.map ParseNode.shape
  node : used[k]? = some ⟨b.path, isSet, isNull, .dynamic d⟩
  seen : assigned → d.isString = true ∨ d.rawVal ≠ []
  none : ¬ assigned → isSet = false ∧ isNull = false ∧ d = .blank

variable {assigned : Prop} {used : List ParseNode} {isSet isNull : Bool} {d : DynamicNodeBase}

theorem Residue.parse
    (h : Residue nodes k b assigned used isSet isNull d) (hb : b.isCatchAll = false) (json : Bytes) :
    ∃ used' isSet' isNull' d', StackJson.parse json used = some used' ∧
      Residue nodes k b (assigned ∨ Assigns nodes k b json) used' isSet' isNull' d' := by
  obtain ⟨used', hp, hk⟩ := parse_dynamic json used isSet isNull d h.shape hb h.node
  have hshape := (parse_shape json used used' hp).trans h.shape
  cases hlast : (taken nodes k b json).getLast? with
  | none =>
    have hnone : ¬ Assigns nodes k b json := fun ha =>
      (assigns_iff json).mp ha (List.getLast?_eq_none_iff.mp hlast)
    rw [hlast] at hk
    exact ⟨used', false, false, d, hp, hshape, hk, fun ha => h.seen (ha.resolve_right hnone),
      fun ha => ⟨rfl, rfl, (h.none fun h => ha (.inl h)).2.2⟩⟩
  | some e =>
    have hmem : e ∈ taken nodes k b json := List.mem_of_getLast? hlast
    have hassigns : Assigns nodes k b json := (assigns_iff json).mpr (List.ne_nil_of_mem hmem)
    rw [hlast] at hk
    exact ⟨used', true, e.isNull, ⟨e.raw, e.isString, e.raw, false⟩, hp, hshape, hk,
      fun _ => lookups_solid [] [] json e (List.mem_of_mem_filter hmem),
      fun ha => absurd (.inr hassigns) ha⟩

/-- An extraction from any node of the parser. -/
theorem Residue.extract
    (h : Residue nodes k b assigned used isSet isNull d) (j : Nat) (target : Target) :
    ∃ used' d', Use.run used (.extract j target) = some used' ∧
      Residue nodes k b assigned used' isSet isNull d' := by
  by_cases hj : ∃ path isSet₁ isNull₁ d₁, used[j]? = some ⟨path, isSet₁, isNull₁, .dynamic d₁⟩
  · obtain ⟨path, isSet₁, isNull₁, d₁, hj⟩ := hj
    obtain ⟨more, d₂, target₂, he, hraw, -⟩ := extract_spec isSet₁ isNull₁ d₁ target
    have hstr := extract_isString isSet₁ isNull₁ more d₁ d₂ target target₂ he
    have hrun : Use.run used (.extract j target) =
        some (used.set j ⟨path, isSet₁, isNull₁, .dynamic d₂⟩) := by
      simp only [Use.run, hj, he, Option.bind_eq_bind, Option.bind_some]
    have hshape : (used.set j ⟨path, isSet₁, isNull₁, .dynamic d₂⟩).map ParseNode.shape =
        nodes.map ParseNode.shape := by
      have hget : (used.map ParseNode.shape)[j]? =
          some (ParseNode.shape ⟨path, isSet₁, isNull₁, .dynamic d₂⟩) := by
        rw [List.getElem?_map, hj]
        rfl
      obtain ⟨hlt, hget⟩ := List.getElem?_eq_some_iff.mp hget
      rw [List.map_set, ← hget, List.set_getElem_self, h.shape]
    by_cases hjk : j = k
    · subst hjk
      have hsame := h.node
      rw [hj, Option.some.injEq] at hsame
      cases hsame
      obtain ⟨hlt, -⟩ := List.getElem?_eq_some_iff.mp hj
      refine ⟨_, d₂, hrun, hshape, List.getElem?_set_self hlt, fun ha => ?_, fun ha => ?_⟩
      · rw [hraw, hstr]
        exact h.seen ha
      · obtain ⟨hset, hnull, hblank⟩ := h.none ha
        rw [hset] at he
        have hd : d₂ = d := (congrArg (fun r => r.2.1) (Option.some.inj he)).symm
        exact ⟨hset, hnull, by rw [hd, hblank]⟩
    · refine ⟨_, d, hrun, hshape, ?_, h.seen, h.none⟩
      rw [List.getElem?_set_ne hjk, h.node]
  · refine ⟨used, d, ?_, h⟩
    simp only [Use.run]
    split
    · next path isSet₁ isNull₁ d₁ heq => exact absurd ⟨path, isSet₁, isNull₁, d₁, heq⟩ hj
    · rfl

theorem Residue.runUses
    (h : Residue nodes k b assigned used isSet isNull d) (hb : b.isCatchAll = false) (uses : List Use) :
    ∃ used' isSet' isNull' d', StackJson.runUses used uses = some used' ∧
      Residue nodes k b (assigned ∨ ∃ json ∈ uses.filterMap Use.document, Assigns nodes k b json) used'
        isSet' isNull' d' := by
  induction uses generalizing assigned used isSet isNull d with
  | nil => exact ⟨used, isSet, isNull, d, rfl, by simpa using h⟩
  | cons use uses ih =>
    cases use with
    | parse json =>
      obtain ⟨used₁, isSet₁, isNull₁, d₁, hp, h₁⟩ := h.parse hb json
      obtain ⟨used', isSet', isNull', d', hrun, h'⟩ := ih h₁
      refine ⟨used', isSet', isNull', d', ?_, ?_⟩
      · rw [StackJson.runUses, List.foldlM_cons]
        show (StackJson.parse json used).bind _ = _
        rw [hp]
        exact hrun
      · simpa [Use.document, or_assoc] using h'
    | extract j target =>
      obtain ⟨used₁, d₁, hp, h₁⟩ := h.extract j target
      obtain ⟨used', isSet', isNull', d', hrun, h'⟩ := ih h₁
      refine ⟨used', isSet', isNull', d', ?_, ?_⟩
      · rw [StackJson.runUses, List.foldlM_cons, hp]
        exact hrun
      · simpa [Use.document] using h'

omit [FloatChars] in
theorem residue_constructed (nodes : List ParseNode) (k : Nat) (b : ParseNode) (d : DynamicNodeBase)
    (hk : nodes[k]? = some b) (hb : b.kind = .dynamic d) :
    Residue nodes k b False (nodes.map ParseNode.constructed) false false .blank := by
  refine ⟨?_, ?_, False.elim, fun _ => ⟨rfl, rfl, rfl⟩⟩
  · rw [List.map_map]
    apply List.map_congr_left
    intro n _
    show n.constructed.shape = n.shape
    unfold ParseNode.shape ParseNode.isCatchAll ParseNode.constructed
    cases n.kind <;> rfl
  · rw [List.getElem?_map, hk, Option.map_some, ParseNode.constructed, hb]

omit [FloatChars] in
/-- Old data that can be seen is told from that of a new node as long as nothing is assigned. -/
theorem dynamicAfter_answers (path : PathBase) (d : DynamicNodeBase) (last : Option Lookup)
    (hd : d.isString = true ∨ d.rawVal ≠ [])
    (h : (dynamicAfter path d last).answers = (dynamicAfter path .blank last).answers) :
    last.isSome = true := by
  cases last with
  | some e => rfl
  | none =>
    have hraw : d.rawVal = [] := congrArg NodeAnswers.raw (Option.some.inj h)
    have hstr : d.isString = false := congrArg NodeAnswers.isString (Option.some.inj h)
    rw [hraw, hstr] at hd
    exact (hd.elim Bool.false_ne_true fun h => h rfl).elim

/-- A reused parser answers like a new one exactly when the last text assigns the node, or none of the
texts before did. -/
theorem reuse_agrees_iff (nodes : List ParseNode) (uses : List Use) (json : Bytes) (k : Nat)
    (b : ParseNode) (d : DynamicNodeBase) (hk : nodes[k]? = some b) (hb : b.kind = .dynamic d) :
    ReuseAgrees nodes uses json k ↔
      Assigns nodes k b json ∨ ∀ json' ∈ uses.filterMap Use.document, ¬ Assigns nodes k b json' := by
  have hall : b.isCatchAll = false := by rw [ParseNode.isCatchAll, hb]
  have hnew := residue_constructed nodes k b d hk hb
  obtain ⟨used, isSet, isNull, d₁, hrun, hused⟩ := hnew.runUses hall uses
  obtain ⟨last, hlast, hlastk⟩ := parse_dynamic json used isSet isNull d₁ hused.shape hall hused.node
  obtain ⟨fresh, hfresh, hfreshk⟩ := parse_dynamic json _ false false .blank hnew.shape hall hnew.node
  have hassigns : Assigns nodes k b json ↔ (taken nodes k b json).getLast?.isSome = true := by
    rw [assigns_iff, List.getLast?_isSome]
  rw [hassigns]
  constructor
  · intro hagree
    by_contra hnot
    rw [not_or] at hnot
    obtain ⟨hnone, hearlier⟩ := hnot
    push Not at hearlier
    obtain ⟨used', last', fresh', n, n', hrun', hlast', hfresh', hn, hn', hanswers, -⟩ := hagree
    rw [hrun, Option.some.injEq] at hrun'
    subst hrun'
    rw [hlast, Option.some.injEq] at hlast'
    rw [hfresh, Option.some.injEq] at hfresh'
    rw [← hlast', hlastk, Option.some.injEq] at hn
    rw [← hfresh', hfreshk, Option.some.injEq] at hn'
    rw [← hn, ← hn'] at hanswers
    exact hnone (dynamicAfter_answers b.path d₁ _ (hused.seen (.inr hearlier)) hanswers)
  · intro hcond
    have hsame : dynamicAfter b.path d₁ (taken nodes k b json).getLast? =
        dynamicAfter b.path .blank (taken nodes k b json).getLast? := by
      cases hcond with
      | inl hsome =>
        obtain ⟨e, he⟩ := Option.isSome_iff_exists.mp hsome
        rw [he]
        rfl
      | inr hearlier =>
        have hunassigned : ¬ (False ∨ ∃ json ∈ uses.filterMap Use.document, Assigns nodes k b json) := by
          intro h
          obtain ⟨json', hmem, ha⟩ := h.resolve_left id
          exact hearlier json' hmem ha
        rw [(hused.none hunassigned).2.2]
    rw [hsame] at hlastk
    exact ⟨used, last, fresh, _, _, hrun, hlast, hfresh, hlastk, hfreshk, rfl, fun _ => rfl⟩

end run

/-- A dynamic node at `a`, not parsed yet. -/
def listNode : ParseNode := ⟨[bytes "a"], false, false, .dynamic .blank⟩

/-- A text with an array, of which one element is taken. -/
def leftoverUses : List Use := [.parse (bytes "\x7b\"a\":[1,2]\x7d"), .extract 0 (.bool false)]

theorem reuse_agrees_iff_leftover :
    @ReuseAgrees keepFloats [listNode] leftoverUses (bytes "\x7b\"a\":[3]\x7d") 0 := by
  let _ := keepFloats
  have hassigned : (lookups [] [] (bytes "\x7b\"a\":[3]\x7d")).any (takes [] listNode) = true := by
    decide +kernel
  exact (reuse_agrees_iff [listNode] leftoverUses (bytes "\x7b\"a\":[3]\x7d") 0 listNode .blank rfl
    rfl).mpr (.inl (List.any_eq_true.mp hassigned))

/-- The raw text of the first document stays visible although the key is gone. -/
theorem parse_reused_leftover :
    ((@runUses keepFloats [listNode]
        (leftoverUses ++ [.parse (bytes "\x7b\x7d")])).map (List.map ParseNode.answers) =
      some [some ⟨false, false, bytes "[1,2]", false, true, false, false, false⟩]) ∧
    ((@parse keepFloats (bytes "\x7b\x7d") [listNode]).map
        (List.map ParseNode.answers) =
      some [some ⟨false, false, [], false, false, false, false, false⟩]) := by
  decide

end Espbase.StackJson
