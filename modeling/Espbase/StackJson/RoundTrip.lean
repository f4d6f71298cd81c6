import Espbase.Lib.TreeDoc
import Espbase.StackJson.CompactText
import Espbase.StackJson.DecodeResults
import Espbase.StackJson.ScalarLookup
import Mathlib.Data.List.TakeWhile

namespace Espbase.StackJson

open Espbase.Lib

def Integer.zero (t : IntType) : Integer where
  type := t
  val := 0
  ge := by unfold IntType.min; split_ifs <;> simp
  le := by
    have h (k : Nat) : (1 : Int) ≤ 2 ^ k := by exact_mod_cast Nat.one_le_two_pow
    have h1 := h (t.width.bits - 1)
    have h2 := h t.width.bits
    unfold IntType.max
    split_ifs <;> omega

/-- Null, a boolean, an integer or a string. -/
def Value.IsScalar : Value → Prop
  | .null => True
  | .bool _ => True
  | .int _ => True
  | .str _ => True
  | _ => False

def Value.isNull : Value → Bool
  | .null => true
  | _ => false

/-- The text of a scalar value, without the quotes of a string. -/
def Value.raw : Value → Bytes
  | .null => bytes "null"
  | .bool value => if value then bytes "true" else bytes "false"
  | .int value => signedDecimal value.val
  | .str value => escape value
  | _ => []

def Value.isString : Value → Bool
  | .str _ => true
  | _ => false

def valueDoc (v : Value) : Doc := .scalar v.isString v.raw

/-- A target of the type of a value; any scalar target for null. -/
def Value.Fits : Value → Target → Prop
  | .null, target => target.IsScalar
  | .bool _, .bool _ => True
  | .int n, .int m => m.type = n.type
  | .str _, .string _ => True
  | _, _ => False

/-- The target when the value has arrived; null leaves the default of the target's type. -/
def Value.received : Value → Target → Target
  | .null, .bool _ => .bool false
  | .null, .int m => .int (.zero m.type)
  | .null, .string _ => .string []
  | .bool value, _ => .bool value
  | .int n, _ => .int n
  | .str value, _ => .string value
  | _, target => target

section coerce

theorem Integer.set_eq (m n : Integer) (h : m.type = n.type) : m.set n.val = n := by
  obtain ⟨t, v, hge, hle⟩ := n
  obtain rfl : m.type = t := h
  rw [Integer.set, dif_pos ⟨hge, hle⟩]

theorem takeWhile_decimal (n : Nat) :
    (decimal n).takeWhile (fun c => decide (IsDigit c)) = decimal n :=
  List.takeWhile_eq_self_iff.mpr fun c hc => decide_eq_true (decimal_isDigit n c hc)

theorem decimal_ne_nil (n : Nat) : decimal n ≠ [] := List.ne_nil_of_length_pos (decimal_length_pos n)

theorem decimal_head (n : Nat) : (decimal n).head? ≠ some (ch '-') := by
  intro h
  have := decimal_isDigit n (ch '-') (List.mem_of_head? h)
  exact absurd this (by decide)

/-- Reading the decimal text of an integer gives it back. -/
theorem fromChars_signedDecimal (m n : Integer) (h : m.type = n.type) :
    fromChars (signedDecimal n.val) m = n := by
  have hset := Integer.set_eq m n h
  unfold fromChars signedDecimal
  by_cases hneg : n.val < 0
  · have hsigned : m.type.signed = true := by
      have hge := n.ge
      rw [← h, IntType.min] at hge
      cases hs : m.type.signed with
      | true => rfl
      | false =>
        rw [hs] at hge
        simp only [Bool.false_eq_true, if_false] at hge
        omega
    simp only [if_pos hneg, hsigned, List.head?_cons, Bool.true_and, beq_self_eq_true, if_true,
      List.tail_cons, takeWhile_decimal, if_neg (decimal_ne_nil _), ofDecimal_decimal]
    rw [show -(n.val.natAbs : Int) = n.val by omega, hset]
  · have hhead : ((decimal n.val.natAbs).head? == some (ch '-')) = false :=
      beq_eq_false_iff_ne.mpr (decimal_head _)
    simp only [if_neg hneg, hhead, Bool.and_false, Bool.false_eq_true, if_false, takeWhile_decimal,
      if_neg (decimal_ne_nil _), ofDecimal_decimal]
    rw [show (n.val.natAbs : Int) = n.val by omega, hset]

theorem signedDecimal_primitive (z : Int) : IsPrimitive (signedDecimal z) := by
  have hmark (c : UInt8) (hc : IsDigit c ∨ c = ch '-') : c ∉ [ch ' ', 0x0a, 0x0d, 0x09, ch ',', ch '}',
      ch ']', ch '{', ch '[', ch '"', ch ':', ch '/'] := by
    revert c
    decide +kernel
  unfold signedDecimal
  split_ifs
  · refine ⟨List.cons_ne_nil _ _, fun c hc => hmark c ?_⟩
    exact (List.mem_cons.mp hc).symm.imp (decimal_isDigit _ c) id
  · exact ⟨decimal_ne_nil _, fun c hc => hmark c (.inl (decimal_isDigit _ c hc))⟩

theorem signedDecimal_ne_null (z : Int) : (signedDecimal z == bytes "null") = false := by
  rw [beq_eq_false_iff_ne]
  intro h
  have hd (c : UInt8) (hc : c ∈ decimal z.natAbs) : c ≠ ch 'n' := by
    have := decimal_isDigit _ c hc
    rintro rfl
    exact absurd this (by decide)
  have hhead : (signedDecimal z).head? = some (ch 'n') := by rw [h]; rfl
  unfold signedDecimal at hhead
  split_ifs at hhead
  · exact absurd (Option.some.inj hhead) (by decide)
  · exact hd _ (List.mem_of_head? hhead) rfl

variable [FloatChars]

/-- Coercing the text of a value to a target of its type gives the value. -/
theorem coerceValue_raw (v : Value) (target : Target) (hv : v.IsScalar) (hf : v.Fits target) :
    (!v.isString && v.raw == bytes "null") = v.isNull ∧ target.IsScalar ∧
      coerceValue v.raw v.isNull target = some (v.received target) := by
  cases v with
  | null =>
    refine ⟨by decide, hf, ?_⟩
    cases target with
    | bool value => rfl
    | int value =>
      show some (Target.int (value.set (Integer.zero value.type).val)) = _
      rw [Integer.set_eq value (.zero value.type) rfl]
      rfl
    | string value => rfl
    | _ => exact hf.elim
  | bool value =>
    cases target with
    | bool old => cases value <;> exact ⟨by decide, trivial, rfl⟩
    | _ => exact hf.elim
  | int n =>
    cases target with
    | int m =>
      refine ⟨by simp [Value.raw, Value.isString, Value.isNull, signedDecimal_ne_null], trivial, ?_⟩
      show some (Target.int (fromChars (signedDecimal n.val) m)) = _
      rw [fromChars_signedDecimal m n hf]
      rfl
    | _ => exact hf.elim
  | str value =>
    cases target with
    | string old =>
      refine ⟨rfl, trivial, ?_⟩
      simp [coerceValue, Value.raw, Value.isNull, Value.received, decodeJsonString_escape value _ (escape_length_ge value)]
    | _ => exact hf.elim
  | _ => exact hv.elim

end coerce

section text

theorem valueDoc_text (v : Value) (hv : v.IsScalar) : (valueDoc v).text = v.text := by
  cases v with
  | null => rfl
  | bool value => rfl
  | int n => rfl
  | str value => rfl
  | _ => exact hv.elim

theorem valueDoc_wf (v : Value) (hv : v.IsScalar) : (valueDoc v).WF := by
  rw [valueDoc, Doc.WF]
  cases v with
  | null => simp [Value.raw, Value.isString, IsPrimitive, bytes, ch]
  | bool value => cases value <;> simp [Value.raw, Value.isString, IsPrimitive, bytes, ch]
  | int n => exact signedDecimal_primitive n.val
  | str value => exact escape_body value
  | _ => exact hv.elim

/-- Flat lists of scalar nodes whose paths can be told apart. -/
structure ScalarNodes (nodes : List (NodeInfo × Value)) : Prop where
  ids : (nodes.map fun p => p.1.id).Nodup
  paths : ∀ p ∈ nodes, p.1.path ≠ []
  keys : ∀ p ∈ nodes, ∀ k ∈ p.1.path, PlainKey k
  prefixFree : nodes.Pairwise fun p q => p.1.omitted = false → q.1.omitted = false →
    ¬ p.1.path <+: q.1.path ∧ ¬ q.1.path <+: p.1.path
  scalars : ∀ p ∈ nodes, p.2.IsScalar

variable {nodes : List (NodeInfo × Value)}

theorem ScalarNodes.valid (h : ScalarNodes nodes) : (Value.doc nodes).Valid := by
  have hinner : innerIds nodes = [] := by
    have hs := h.scalars
    clear h
    induction nodes with
    | nil => rfl
    | cons p nodes ih =>
      obtain ⟨n, v⟩ := p
      rw [innerIds, ih fun p hp => hs p (by simp [hp])]
      have hv := hs (n, v) (by simp)
      cases v <;> first | rfl | exact hv.elim
  have hvalid : ValidNodes nodes := by
    have hs := h.scalars
    clear h hinner
    induction nodes with
    | nil => trivial
    | cons p nodes ih =>
      obtain ⟨n, v⟩ := p
      refine ⟨?_, ih fun p hp => hs p (by simp [hp])⟩
      have hv := hs (n, v) (by simp)
      cases v <;> trivial
  refine ⟨⟨?_, by simp [hinner], ?_, ?_⟩, hvalid⟩
  · rw [List.map_map]
    exact h.ids
  · intro n hn
    obtain ⟨p, hp, rfl⟩ := List.mem_map.mp hn
    exact h.paths p hp
  · exact order_of_prefixFree _ (List.pairwise_map.mpr h.prefixFree)

theorem mem_shown {α β : Type} (f : α → β) (nodes : List (NodeInfo × α)) (e : List Bytes × β) :
    e ∈ shown f nodes ↔ ∃ p ∈ nodes, p.1.omitted = false ∧ (p.1.path, f p.2) = e := by
  simp [shown, List.mem_map, List.mem_filter, and_assoc]

/-- The tree of the documents of the values. -/
def docTree (nodes : List (NodeInfo × Value)) : List (Bytes × KeyTree Bytes Doc) :=
  KeyTree.build (shown valueDoc nodes)

theorem ScalarNodes.shown_prefixFree {β : Type} (h : ScalarNodes nodes) (f : Value → β) :
    (shown f nodes).Pairwise fun e e' => ¬ e.1 <+: e'.1 ∧ ¬ e'.1 <+: e.1 := by
  unfold shown
  rw [List.pairwise_map, List.pairwise_filter]
  refine h.prefixFree.imp fun {p q} hpq hp hq => ?_
  exact hpq (by simpa using hp) (by simpa using hq)

theorem ScalarNodes.docTree_proper (h : ScalarNodes nodes) :
    KeyTree.ProperOf PlainKey (docTree nodes) ∧
      ∀ p d, KeyTree.At (docTree nodes) p d ↔ (p, d) ∈ shown valueDoc nodes := by
  apply KeyTree.build_proper PlainKey (shown valueDoc nodes) ?_ ?_ (h.shown_prefixFree valueDoc)
  · intro e he
    obtain ⟨p, hp, -, rfl⟩ := (mem_shown _ _ _).mp he
    exact h.paths p hp
  · intro e he
    obtain ⟨p, hp, -, rfl⟩ := (mem_shown _ _ _).mp he
    exact h.keys p hp

theorem ScalarNodes.leaves (h : ScalarNodes nodes) :
    ScalarLeaves (KeyTree.leavesOf (docTree nodes)) := by
  intro d hd
  have hne : ∀ e ∈ shown valueDoc nodes, e.1 ≠ [] := by
    intro e he
    obtain ⟨p, hp, -, rfl⟩ := (mem_shown _ _ _).mp he
    exact h.paths p hp
  rw [docTree, (KeyTree.leavesOf_build _ hne).mem_iff, List.mem_map] at hd
  obtain ⟨e, he, rfl⟩ := hd
  obtain ⟨p, hp, -, rfl⟩ := (mem_shown _ _ _).mp he
  exact ⟨valueDoc_wf p.2 (h.scalars p hp), _, _, rfl⟩

/-- The JSON text that is emitted for the nodes. -/
def ScalarNodes.json (h : ScalarNodes nodes) : JsonText where
  before := []
  root := .block true (treeMembers (docTree nodes)) []
  after := []
  before_gap := .nil
  after_gap := .nil
  root_wf := by
    rw [Doc.WF]
    exact ⟨treeMembers_wf _ h.docTree_proper.1 h.leaves, nofun⟩

theorem ScalarNodes.json_text (h : ScalarNodes nodes) : h.json.text = documentText nodes := by
  have hshown : (shown valueDoc nodes).map (fun e => (e.1, e.2.text)) = shown Value.text nodes := by
    unfold shown
    rw [List.map_map]
    apply List.map_congr_left
    intro p hp
    exact congrArg (Prod.mk p.1.path) (valueDoc_text p.2 (h.scalars p (List.mem_of_mem_filter hp)))
  have htree : KeyTree.mapOf Doc.text (docTree nodes) = KeyTree.mapOf Value.text (documentTree nodes) := by
    rw [docTree, ← KeyTree.build_map, hshown, documentTree, ← KeyTree.build_map]
    simp [shown, Function.comp_def]
  rw [documentText_eq, ← htree]
  show [] ++ ((Doc.block true (treeMembers (docTree nodes)) []).text ++ []) = _
  rw [List.nil_append, List.append_nil, Doc.text, treeMembers_text _ h.docTree_proper.1, objectText,
    treeText]
  rfl

theorem ScalarNodes.hasMember (h : ScalarNodes nodes) (path : PathBase) (v : Value)
    (hv : (path, v) ∈ shown id nodes) : h.json.root.HasMember path (valueDoc v) := by
  obtain ⟨p, hp, ho, heq⟩ := (mem_shown _ _ _).mp hv
  rw [id, Prod.mk.injEq] at heq
  apply memberAt_treeMembers
  rw [h.docTree_proper.2, ← heq.1, ← heq.2]
  exact (mem_shown _ _ _).mpr ⟨p, hp, ho, rfl⟩

theorem ScalarNodes.json_plain (h : ScalarNodes nodes) : h.json.root.Plain := by
  obtain ⟨hproper, -⟩ := h.docTree_proper
  exact ⟨treeMembers_here _ hproper, treeMembers_plain _ hproper h.leaves⟩

end text

section roundTrip
variable [FloatChars]

/-- One binding per shown node, in any order, each with a target of its node's type. -/
structure Bindings (nodes : List (NodeInfo × Value)) (bs : List ParseNode) : Prop where
  paths : (bs.map ParseNode.path).Perm ((shown id nodes).map Prod.fst)
  targets : ∀ b ∈ bs, ∀ v, (b.path, v) ∈ shown id nodes → ∃ target, b.kind = .bind target ∧ v.Fits target

/-- A text from which the bindings of the nodes get every value. -/
def Recovers (nodes : List (NodeInfo × Value)) (text : Bytes) : Prop :=
  ∀ bs, Bindings nodes bs → ∃ bs', parse text bs = some bs' ∧
    ∀ (k : Nat) (b : ParseNode), bs[k]? = some b →
      ∃ v target, (b.path, v) ∈ shown id nodes ∧ b.kind = .bind target ∧
        bs'[k]? = some ⟨b.path, true, v.isNull, .bind (v.received target)⟩

/-- Any plain text with the values as members will do, whatever its layout. -/
theorem ScalarNodes.recovers_of_members {nodes : List (NodeInfo × Value)} (h : ScalarNodes nodes) (j : JsonText)
    (hplain : j.root.Plain)
    (hmember : ∀ path v, (path, v) ∈ shown id nodes → j.root.HasMember path (valueDoc v)) :
    Recovers nodes j.text := by
  intro bs hbs
  have hfree : bs.Pairwise fun m n => ¬ m.path <+: n.path ∧ ¬ n.path <+: m.path := by
    have hshown : ((shown id nodes).map Prod.fst).Pairwise fun p q => ¬ p <+: q ∧ ¬ q <+: p :=
      List.pairwise_map.mpr (h.shown_prefixFree id)
    exact List.pairwise_map.mp ((hbs.paths.pairwise_iff And.symm).mpr hshown)
  obtain ⟨bs', hparse⟩ : ∃ bs', parse j.text bs = some bs' := ⟨_, parse_eq _ bs⟩
  refine ⟨bs', hparse, ?_⟩
  intro k b hk
  have hmem : b ∈ bs := List.mem_of_getElem? hk
  obtain ⟨⟨path, v⟩, hv, hpath⟩ :=
    List.mem_map.mp (hbs.paths.subset (List.mem_map_of_mem (f := ParseNode.path) hmem))
  have hv : (b.path, v) ∈ shown id nodes := by rwa [← hpath]
  obtain ⟨target, hb, hfit⟩ := hbs.targets b hmem v hv
  obtain ⟨p, hp, -, heq⟩ := (mem_shown _ _ _).mp hv
  rw [id, Prod.mk.injEq] at heq
  have hkeys : [] ∉ b.path := fun hm => (h.keys p hp [] (heq.1 ▸ hm)).1 rfl
  obtain ⟨hnull, hscalar, hcoerce⟩ := coerceValue_raw v target (heq.2 ▸ h.scalars p hp) hfit
  obtain ⟨target', hc, hres⟩ := outcome_scalar_member j hplain bs hfree k b hk hkeys target hb hscalar
    v.isString v.raw (hmember b.path v hv)
  have hall : b.isCatchAll = false := by rw [ParseNode.isCatchAll, hb]
  obtain ⟨nodes', hp, hn⟩ := parse_jsonText j bs k b hk hall
  rw [hnull, hcoerce] at hc
  rw [Option.some.inj (hparse.symm.trans hp), hn, hres, hnull, ← Option.some.inj hc]
  exact ⟨v, target, hv, hb, rfl⟩

theorem ScalarNodes.recovers {nodes : List (NodeInfo × Value)} (h : ScalarNodes nodes) :
    Recovers nodes (documentText nodes) := by
  rw [← h.json_text]
  exact h.recovers_of_members h.json h.json_plain h.hasMember

/-- Parsing the text that was emitted for scalar nodes brings every value to its binding. -/
theorem emit_parse_roundTrip (nodes : List (NodeInfo × Value)) (h : ScalarNodes nodes)
    (bs : List ParseNode) (hbs : Bindings nodes bs) (maxSize : Nat) (emitted : Nat → Bool)
    (hroom : (documentText nodes).length ≤ maxSize) :
    ∃ st' n bs', emitDocument nodes ⟨StackBuffer.empty maxSize, emitted⟩ = some (st', n) ∧
      parse st'.buf.view bs = some bs' ∧
      ∀ (k : Nat) (b : ParseNode), bs[k]? = some b →
        ∃ v target, (b.path, v) ∈ shown id nodes ∧ b.kind = .bind target ∧
          bs'[k]? = some ⟨b.path, true, v.isNull, .bind (v.received target)⟩ := by
  obtain ⟨st', n, he, hview⟩ := emitDocument_whole nodes h.valid emitted hroom
  obtain ⟨bs', hp, hb⟩ := h.recovers bs hbs
  exact ⟨st', n, bs', he, by rw [hview, hp], hb⟩

end roundTrip

/-- An `int` below zero. -/
def minusThree : Integer := ⟨⟨.w32, true⟩, -3, by decide, by decide⟩

/-- An integer and a string with an escape in it, and a null between them. -/
def retrySettings : List (NodeInfo × Value) :=
  [(⟨0, false, [bytes "config", bytes "retries"]⟩, .int minusThree),
   (⟨1, false, [bytes "mode"]⟩, .null),
   (⟨2, false, [bytes "config", bytes "name"]⟩, .str (bytes "a\nb"))]

theorem retrySettings_scalar : ScalarNodes retrySettings where
  ids := by decide
  paths := by decide
  keys := by simp [retrySettings, PlainKey, Special, bytes, ch]
  prefixFree := by decide
  scalars := by simp [retrySettings, Value.IsScalar]

/-- Bindings for the three, in another order. -/
def retryBindings : List ParseNode :=
  [⟨[bytes "mode"], false, false, .bind (.bool true)⟩,
   ⟨[bytes "config", bytes "name"], false, false, .bind (.string [])⟩,
   intNode [bytes "config", bytes "retries"]]

theorem retryBindings_fit : Bindings retrySettings retryBindings where
  paths := by decide
  targets := by
    intro b hb v hv
    simp only [retrySettings, shown, List.filter, List.map, id, Bool.not_false, List.mem_cons,
      List.not_mem_nil, or_false, Prod.mk.injEq] at hv
    simp only [retryBindings, List.mem_cons, List.not_mem_nil, or_false] at hb
    rcases hb with rfl | rfl | rfl <;> rcases hv with ⟨hp, rfl⟩ | ⟨hp, rfl⟩ | ⟨hp, rfl⟩ <;>
      first
      | exact absurd hp (by decide)
      | exact ⟨_, rfl, trivial⟩
      | exact ⟨_, rfl, rfl⟩

theorem emit_parse_roundTrip_retrySettings :
    ∃ st' n bs', emitDocument retrySettings ⟨StackBuffer.empty 60, fun _ => true⟩ = some (st', n) ∧
      @parse keepFloats st'.buf.view retryBindings = some bs' ∧
      ∃ v target, (([bytes "mode"] : PathBase), v) ∈ shown id retrySettings ∧
        NodeKind.bind (.bool true) = .bind target ∧
        bs'[0]? = some ⟨[bytes "mode"], true, v.isNull, .bind (v.received target)⟩ := by
  let _ := keepFloats
  obtain ⟨st', n, bs', he, hp, hb⟩ := emit_parse_roundTrip retrySettings retrySettings_scalar
    retryBindings retryBindings_fit 60 (fun _ => true) (by decide)
  exact ⟨st', n, bs', he, hp, hb 0 _ rfl⟩

end Espbase.StackJson
