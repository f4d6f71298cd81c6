import Espbase.StackJson.RoundTrip

namespace Espbase.StackJson

open Espbase.Lib

/-- A document with one node, at the path of one key. -/
def keyDocument (id : Nat) (key : Bytes) (v : Value) : List (NodeInfo × Value) :=
  [(⟨id, false, [key]⟩, v)]

/-- A C string as the value that it stands for: null, or the bytes it points to. -/
def Value.pointee : Value → Value
  | .cstr none => .null
  | .cstr (some value) => .str (cString value)
  | v => v

section escape

theorem escapeByte_ne (c : UInt8) (h : Special c) : escapeByte c ≠ [c] := by
  revert c
  decide +kernel

/-- Exactly the texts without special bytes are their own escapes. -/
theorem escape_eq_iff (s : Bytes) : escape s = s ↔ ∀ c ∈ s, ¬ Special c := by
  constructor
  · intro h
    induction s with
    | nil => simp
    | cons c s ih =>
      have hb := escapeByte_length c
      have hs := escape_length_ge s
      have hlen := congrArg List.length h
      rw [escape_cons, List.length_append, List.length_cons] at hlen
      have hone : escapeByte c = [c] := escapeByte_of_extra c (by omega)
      rw [escape_cons, hone, List.singleton_append, List.cons.injEq] at h
      intro d hd
      rcases List.mem_cons.mp hd with heq | hd
      · intro hspecial
        exact escapeByte_ne d hspecial (heq ▸ hone)
      · exact ih h.2 d hd
  · exact escape_plain s

theorem escape_ne_nil (s : Bytes) (h : s ≠ []) : escape s ≠ [] := by
  intro he
  have hge := escape_length_ge s
  rw [he, List.length_nil] at hge
  exact h (List.eq_nil_of_length_eq_zero (Nat.le_zero.mp hge))

end escape

section text
variable (id : Nat) (key : Bytes) (v : Value)

theorem Value.pointee_text : v.pointee.text = v.text := by
  cases v with
  | cstr value => cases value <;> simp [pointee, text]
  | _ => rfl

theorem keyDocument_valid (hv : v.pointee.IsScalar) : (Value.doc (keyDocument id key v)).Valid := by
  have hinner : innerIds (keyDocument id key v) = [] := by
    cases v <;> first | rfl | exact hv.elim
  have hvalid : ValidNodes (keyDocument id key v) := by
    refine ⟨?_, trivial⟩
    cases v <;> trivial
  refine ⟨⟨?_, ?_, ?_, ?_⟩, hvalid⟩
  · exact List.nodup_singleton _
  · simp [hinner]
  · simp [keyDocument]
  · simp [keyDocument]

/-- The text of the document: the key stands in it as its escape. -/
def keyJson (hv : v.pointee.IsScalar) : JsonText where
  before := []
  root := .block true [(Slot.compact (escape key) false, valueDoc v.pointee)] []
  after := []
  before_gap := .nil
  after_gap := .nil
  root_wf := by
    rw [Doc.WF, Doc.ItemsWF]
    refine ⟨⟨Slot.compact_wf _ _ (escape_body key), valueDoc_wf _ hv, ?_, trivial⟩, .nil⟩
    exact fun h => absurd rfl h

theorem keyJson_text (hv : v.pointee.IsScalar) :
    (keyJson key v hv).text = documentText (keyDocument id key v) := by
  have htree : KeyTree.mapOf Value.text (documentTree (keyDocument id key v)) = [(key, .leaf v.text)] :=
    rfl
  rw [documentText_eq, htree, objectText, treeText, memberTexts, memberTexts]
  simp [keyJson, JsonText.text, Doc.text, Doc.itemsText, valueDoc_text _ hv, Value.pointee_text,
    Slot.lead, Slot.trail, Slot.compact, Label.text, treeText, commaSep, stringLiteral, opening, closing]

/-- The lookup of the value. -/
def keyLookup : Lookup := ⟨[], escape key, false, v.pointee.raw, v.pointee.isString⟩

theorem lookups_keyDocument (hv : v.pointee.IsScalar) :
    ∃ raw, lookups [] [] (documentText (keyDocument id key v)) =
      [⟨[], [], true, raw, false⟩, keyLookup key v] := by
  rw [← keyJson_text id key v hv, lookups_jsonText]
  exact ⟨_, rfl⟩

end text

section parse
variable [FloatChars] (id : Nat) (key : Bytes) (v : Value)

/-- A binding at one key takes the value exactly when its key is the escape of the written one. -/
theorem parse_keyDocument (hv : v.pointee.IsScalar) (nodes : List ParseNode) (k : Nat) (b : ParseNode)
    (hk : nodes[k]? = some b) (hb : b.isCatchAll = false) (key' : Bytes) (hpath : b.path = [key'])
    (hne : key' ≠ []) :
    ∃ nodes', parse (documentText (keyDocument id key v)) nodes = some nodes' ∧
      (escape key ≠ key' → nodes'[k]? = some b.reset) ∧
      (escape key = key' → (nodes.take k).any (bound [key']) = false →
        nodes'[k]? = some (b.reset.assigned (keyLookup key v))) := by
  obtain ⟨nodes', hp, hn⟩ := parse_binding (documentText (keyDocument id key v)) nodes k b hk hb
  obtain ⟨raw, hl⟩ := lookups_keyDocument id key v hv
  have hroot : takes (nodes.take k) b.reset ⟨[], [], true, raw, false⟩ = false := by
    rw [takes, Bool.and_eq_false_iff]
    refine .inl (Bool.eq_false_iff.mpr ?_)
    intro h
    have hpre := (bound_iff _ b.reset hb).mp h
    rw [ParseNode.reset_path, hpath, Lookup.path, List.nil_append, List.cons_prefix_cons] at hpre
    exact hne hpre.1.symm
  have hvalue : bound (keyLookup key v).path b.reset = true ↔ escape key = key' := by
    rw [bound_iff _ b.reset hb, ParseNode.reset_path, hpath, Lookup.path, keyLookup, List.nil_append,
      List.cons_prefix_cons]
    simp
  refine ⟨nodes', hp, ?_, ?_⟩
  · intro h
    have htakes : takes (nodes.take k) b.reset (keyLookup key v) = false := by
      rw [takes, Bool.eq_false_iff.mpr (mt hvalue.mp h), Bool.false_and]
    rw [hn, outcome, hl, List.filter_cons_of_neg (by simp [hroot]),
      List.filter_cons_of_neg (by simp [htakes])]
    rfl
  · intro h hbefore
    have hpath' : (keyLookup key v).path = [key'] := by simp [Lookup.path, keyLookup, h]
    have htakes : takes (nodes.take k) b.reset (keyLookup key v) = true := by
      rw [takes, hvalue.mpr h, hpath', hbefore]
      simp
    rw [hn, outcome, hl, List.filter_cons_of_neg (by simp [hroot]), List.filter_cons_of_pos htakes]
    rfl

/-- Every scalar that is emitted under the key and parsed again reaches the first binding at the key. -/
def KeyArrives (key : Bytes) : Prop :=
  ∀ (id : Nat) (v : Value) (target : Target) (wasSet wasNull : Bool) (maxSize : Nat)
    (emitted : Nat → Bool) (nodes : List ParseNode) (k : Nat),
    v.pointee.IsScalar → v.pointee.Fits target →
    (documentText (keyDocument id key v)).length ≤ maxSize →
    nodes[k]? = some ⟨[key], wasSet, wasNull, .bind target⟩ → (nodes.take k).any (bound [key]) = false →
    ∃ st' n nodes',
      emitDocument (keyDocument id key v) ⟨StackBuffer.empty maxSize, emitted⟩ = some (st', n) ∧
      parse st'.buf.view nodes = some nodes' ∧
      nodes'[k]? = some ⟨[key], true, v.pointee.isNull, .bind (v.pointee.received target)⟩

/-- No binding at another key takes anything of a scalar that is emitted under the key. -/
def KeyApart (key : Bytes) : Prop :=
  ∀ (id : Nat) (v : Value) (maxSize : Nat) (emitted : Nat → Bool) (nodes : List ParseNode) (k : Nat)
    (b : ParseNode) (key' : Bytes), v.pointee.IsScalar →
    (documentText (keyDocument id key v)).length ≤ maxSize →
    nodes[k]? = some b → b.isCatchAll = false → b.path = [key'] → key' ≠ [] → key' ≠ key →
    ∃ st' n nodes',
      emitDocument (keyDocument id key v) ⟨StackBuffer.empty maxSize, emitted⟩ = some (st', n) ∧
      parse st'.buf.view nodes = some nodes' ∧ nodes'[k]? = some b.reset

omit [FloatChars] in
theorem emit_keyDocument (hv : v.pointee.IsScalar) (maxSize : Nat) (emitted : Nat → Bool)
    (hroom : (documentText (keyDocument id key v)).length ≤ maxSize) :
    ∃ st' n, emitDocument (keyDocument id key v) ⟨StackBuffer.empty maxSize, emitted⟩ = some (st', n) ∧
      st'.buf.view = documentText (keyDocument id key v) :=
  emitDocument_whole (keyDocument id key v) (keyDocument_valid id key v hv) emitted hroom

/-- What a document of null with room for it leaves in a single binding. -/
theorem parse_emitted_null
    (st : Emission (StackBuffer (documentText (keyDocument 0 key .null)).length)) (n : Nat)
    (nodes' : List ParseNode) (key' : Bytes) (hne : key' ≠ [])
    (he : emitDocument (keyDocument 0 key .null) ⟨StackBuffer.empty _, fun _ => true⟩ = some (st, n))
    (hp : parse st.buf.view [⟨[key'], false, false, .bind (.bool true)⟩] = some nodes') (b : ParseNode)
    (hn : nodes'[0]? = some b) : b.isSet = true ↔ escape key = key' := by
  have hnull : Value.null.pointee.IsScalar := trivial
  obtain ⟨st', n', he', hview⟩ := emit_keyDocument 0 key .null hnull _ (fun _ => true) (Nat.le_refl _)
  obtain ⟨nodes'', hp', hapart, harrive⟩ := parse_keyDocument 0 key .null hnull
    [⟨[key'], false, false, .bind (.bool true)⟩] 0 _ rfl rfl key' rfl hne
  rw [he', Option.some.injEq, Prod.mk.injEq] at he
  rw [← he.1, hview, hp', Option.some.injEq] at hp
  rw [← hp] at hn
  by_cases h : escape key = key'
  · rw [harrive h rfl, Option.some.injEq,
      assigned_bind (keyLookup key .null) _ (.bool true) (.bool false) rfl rfl] at hn
    simp [← hn, h]
  · rw [hapart h, Option.some.injEq] at hn
    simp [← hn, h, ParseNode.reset]

theorem escape_eq_of_keyArrives (hne : key ≠ []) (h : KeyArrives key) : escape key = key := by
  obtain ⟨st, n, nodes', he, hp, hn⟩ := h 0 .null (.bool true) false false
    (documentText (keyDocument 0 key .null)).length (fun _ => true)
    [⟨[key], false, false, .bind (.bool true)⟩] 0 trivial trivial (Nat.le_refl _) rfl rfl
  exact (parse_emitted_null key st n nodes' key hne he hp _ hn).mp rfl

theorem keyArrives_of_plain (hne : key ≠ []) (hplain : ∀ c ∈ key, ¬ Special c) : KeyArrives key := by
  intro id v target wasSet wasNull maxSize emitted nodes k hv hfit hroom hk hfirst
  obtain ⟨st, n, he, hview⟩ := emit_keyDocument id key v hv maxSize emitted hroom
  obtain ⟨nodes', hp, -, harrive⟩ := parse_keyDocument id key v hv nodes k _ hk rfl key rfl hne
  refine ⟨st, n, nodes', he, by rw [hview, hp], ?_⟩
  obtain ⟨hnull, -, hcoerce⟩ := coerceValue_raw v.pointee target hv hfit
  have hlookup : (keyLookup key v).isNull = v.pointee.isNull := hnull
  rw [harrive (escape_plain key hplain) hfirst, assigned_bind (keyLookup key v) _ target
    (v.pointee.received target) rfl (by rw [hlookup]; exact hcoerce), hlookup]
  rfl

/-- A binding at the escaped key takes the value, so the escaped key is the key. -/
theorem escape_eq_of_keyApart (hne : key ≠ []) (h : KeyApart key) : escape key = key := by
  by_contra hother
  have hescaped := escape_ne_nil key hne
  obtain ⟨st, n, nodes', he, hp, hn⟩ := h 0 .null (documentText (keyDocument 0 key .null)).length
    (fun _ => true) [⟨[escape key], false, false, .bind (.bool true)⟩] 0 _ (escape key) trivial
    (Nat.le_refl _) rfl rfl rfl hescaped hother
  have hset := (parse_emitted_null key st n nodes' (escape key) hescaped he hp _ hn).mpr rfl
  exact Bool.false_ne_true hset

theorem keyApart_of_plain (hplain : ∀ c ∈ key, ¬ Special c) : KeyApart key := by
  intro id v maxSize emitted nodes k b key' hv hroom hk hb hpath hne' hother
  obtain ⟨st, n, he, hview⟩ := emit_keyDocument id key v hv maxSize emitted hroom
  obtain ⟨nodes', hp, hapart, -⟩ := parse_keyDocument id key v hv nodes k b hk hb key' hpath hne'
  refine ⟨st, n, nodes', he, by rw [hview, hp], hapart ?_⟩
  rw [escape_plain key hplain]
  exact hother.symm

/-- A key survives, and stays apart from all others, exactly when no byte of it is escaped: the parser
compares the path with the key as it is written. -/
theorem key_roundTrip_iff (key : Bytes) (hne : key ≠ []) :
    (KeyArrives key ↔ ∀ c ∈ key, ¬ Special c) ∧ (KeyApart key ↔ ∀ c ∈ key, ¬ Special c) := by
  constructor
  · constructor
    · intro h
      exact (escape_eq_iff key).mp (escape_eq_of_keyArrives key hne h)
    · exact keyArrives_of_plain key hne
  · constructor
    · intro h
      exact (escape_eq_iff key).mp (escape_eq_of_keyApart key hne h)
    · exact keyApart_of_plain key

end parse

/-- A space, a slash and a byte above 127 are written as they are. -/
theorem key_roundTrip_iff_plain :
    @KeyArrives keepFloats (bytes "a b/" ++ [0xff]) ∧ @KeyApart keepFloats (bytes "a b/" ++ [0xff]) := by
  let _ := keepFloats
  have hplain : ∀ c ∈ bytes "a b/" ++ [0xff], ¬ Special c := by decide +kernel
  obtain ⟨harrive, hapart⟩ := key_roundTrip_iff (bytes "a b/" ++ [0xff]) (by decide)
  exact ⟨harrive.mpr hplain, hapart.mpr hplain⟩

/-- A quote in a key: the binding at the key stays unset, and the binding at the escaped key is set. -/
theorem emit_parse_quotedKey :
    ((emitDocument (keyDocument 0 (bytes "a\"b") (.bool true))
        ⟨StackBuffer.empty 32, fun _ => false⟩).bind fun r =>
      (@parse keepFloats r.1.buf.view
        [⟨[bytes "a\"b"], false, false, .bind (.bool false)⟩,
          ⟨[bytes "a\\\"b"], false, false, .bind (.bool false)⟩]).map (List.map ParseNode.isSet)) =
      some [false, true] := by
  decide +kernel

end Espbase.StackJson
