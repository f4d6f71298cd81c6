import Espbase.StackJson.ArrayStream
import Espbase.StackJson.DynamicValues

namespace Espbase.StackJson

open Espbase.Lib

section token

theorem isStringBody_cons {c : UInt8} {s : Bytes} (hc : c ≠ ch '\\') (h : IsStringBody (c :: s)) :
    c ≠ ch '"' ∧ IsStringBody s := by
  cases s with
  | nil => exact ⟨h.1, trivial⟩
  | cons d s =>
    rw [IsStringBody, if_neg hc] at h
    exact h

/-- The loop over a string ends behind its closing quote. -/
theorem quoted_body (iterState : Bytes) (i : Nat) (raw s : Bytes) (hraw : IsStringBody raw)
    (hd : iterState.drop i = raw ++ ch '"' :: s) :
    iterate (quotedTurn iterState) (scanFuel iterState) i = some (i + raw.length + 1) := by
  obtain ⟨r, hr, hpost⟩ := index_loop iterState (quotedTurn iterState) (fun i r => ∀ raw s,
      IsStringBody raw → iterState.drop i = raw ++ ch '"' :: s → r = i + raw.length + 1) (fun i => by
    unfold quotedTurn
    by_cases hi : i < iterState.length
    · obtain ⟨c, hc, hd⟩ := read_lt iterState i hi
      rw [if_pos hi, hc]
      by_cases hslash : c = ch '\\'
      · subst hslash
        refine .inr ⟨if i + 1 < iterState.length then i + 2 else i + 1, by simp, hi, ?_, ?_⟩
        · split_ifs <;> omega
        intro r hr raw s hraw heq
        rw [hd] at heq
        match raw with
        | [] => exact absurd (List.cons.inj heq).1 (by decide)
        | [c] => exact absurd (List.cons.inj heq).1.symm hraw.2
        | c :: d :: raw =>
          obtain ⟨rfl, htail⟩ := List.cons.inj heq
          rw [IsStringBody, if_pos rfl] at hraw
          have hlt : i + 1 < iterState.length := by
            by_contra hge
            rw [drop_ge iterState (i + 1) hge] at htail
            cases htail
          rw [if_pos hlt] at hr
          have hrest := hr raw s hraw (by
            rw [show i + 2 = i + 1 + 1 from rfl, ← List.drop_drop, htail]
            rfl)
          rw [hrest, List.length_cons, List.length_cons]
          omega
      by_cases hquote : c = ch '"'
      · subst hquote
        refine .inl ⟨i + 1, by simp [hslash], ?_⟩
        intro raw s hraw heq
        rw [hd] at heq
        match raw with
        | [] => rfl
        | c :: raw =>
          obtain ⟨rfl, -⟩ := List.cons.inj heq
          exact absurd rfl (isStringBody_cons (by decide) hraw).1
      · refine .inr ⟨i + 1, by simp [hslash, hquote], hi, by omega, ?_⟩
        intro r hr raw s hraw heq
        rw [hd] at heq
        match raw with
        | [] => exact absurd (List.cons.inj heq).1 hquote
        | c :: raw =>
          obtain ⟨rfl, htail⟩ := List.cons.inj heq
          rw [hr raw s (isStringBody_cons hslash hraw).2 htail, List.length_cons]
          omega
    · rw [if_neg hi]
      refine .inl ⟨i, rfl, ?_⟩
      intro raw s _ heq
      rw [drop_ge iterState i hi] at heq
      cases raw <;> cases heq) i
  rw [hr, hpost raw s hraw hd]

/-- Behind separators the next token is the value that stands there. -/
theorem nextArrayToken_value (sep : Bytes) (hsep : ∀ c ∈ sep, isSeparator c = true) (d : Doc) (hd : d.WF)
    (rest : Bytes) (hrest : d.isPrimitive = true → ∀ c ∈ rest.head?, isPrimitiveDelim c = true)
    (isStr : Bool) :
    nextArrayToken (sep ++ (d.text ++ rest)) isStr = some ⟨d.content, d.isString, rest⟩ := by
  match d with
  | .block curly items gap => exact nextArrayToken_block sep hsep curly items gap hd rest isStr
  | .scalar true raw =>
    have hquoted := quoted_body (ch '"' :: (raw ++ [ch '"'] ++ rest)) 1 raw rest hd (by simp)
    have hend : tokenEnd (ch '"' :: (raw ++ [ch '"'] ++ rest)) (ch '"') =
        some ((raw ++ [ch '"']).length + 1, true) := by
      have hlen : (raw ++ [ch '"']).length + 1 = 1 + raw.length + 1 := by
        rw [List.length_append, List.length_singleton]
        omega
      rw [tokenEnd, if_pos rfl, hquoted, hlen]
      rfl
    have htake : (raw ++ [ch '"']).take ((raw ++ [ch '"']).length - 1) = raw := by
      rw [List.length_append, List.length_singleton, Nat.add_sub_cancel, List.take_left]
    have htoken := nextArrayToken_token sep hsep (ch '"') (raw ++ [ch '"']) rest (by decide) (by decide)
      isStr true hend
    rw [if_pos ⟨rfl, by simp⟩, htake] at htoken
    exact htoken
  | .scalar false raw =>
    obtain ⟨c, t, rfl⟩ := List.exists_cons_of_ne_nil hd.1
    obtain ⟨htake, -⟩ := primitive_ends (c :: t) rest hd (hrest rfl)
    obtain ⟨i, hi, -, hle, hrun, -⟩ := primitive_spec (c :: (t ++ rest)) 0
    rw [List.drop_zero, Nat.sub_zero, ← List.cons_append, htake] at hrun
    have hlen := congrArg List.length hrun
    rw [List.cons_append, List.length_take_of_le (hle (Nat.zero_le _)), List.length_cons] at hlen
    have hc := hd.2 c (by simp)
    simp only [List.mem_cons, List.not_mem_nil, or_false, not_or] at hc
    have hend : tokenEnd (c :: (t ++ rest)) c = some (t.length + 1, false) := by
      rw [tokenEnd, if_neg (by simp [hc]), if_neg (by simp [hc]), hi, hlen]
      rfl
    have htoken := nextArrayToken_token sep hsep c t rest (by simp [isSeparator, isJsonWhitespace, hc])
      (by simp [hc]) isStr false hend
    rw [if_neg (by simp)] at htoken
    exact htoken

end token

section elements

/-- What an extraction of a view should deliver for an element: the characters of a string, nothing for
`null` and the text of any other value. -/
def elementView (d : Doc) : Bytes := if d.kind = .null then [] else d.content

/-- The results of extractions of views, one for each of the targets: the elements, then failures. -/
def yields : List Bytes → List Bytes → List (Bool × Target)
  | _, [] => []
  | [], v :: views => (false, .view v) :: yields [] views
  | e :: elements, _ :: views => (true, .view e) :: yields elements views

/-- An element that cannot be told from the end of the array, or from `null`. -/
def Confused (d : Doc) : Prop := d.kind = .string ∧ (d.content = [] ∨ d.content = bytes "null")

theorem content_of_not_confused (d : Doc) (hwf : d.WF) (h : ¬ Confused d) :
    d.content ≠ [] ∧ (d.content == bytes "null") = decide (d.kind = .null) := by
  cases d with
  | scalar isStr raw =>
    cases isStr with
    | true =>
      have hraw : ¬ (raw = [] ∨ raw = bytes "null") := fun hraw => h ⟨rfl, hraw⟩
      rw [not_or] at hraw
      exact ⟨hraw.1, beq_eq_false_iff_ne.mpr hraw.2⟩
    | false => exact ⟨hwf.1, valueLookup_isNull [] [] (.scalar false raw)⟩
  | block curly items gap =>
    rw [Doc.content, Doc.text]
    refine ⟨List.cons_ne_nil _ _, ?_⟩
    have hkind : (Doc.block curly items gap).kind ≠ .null := by cases curly <;> (intro hk; cases hk)
    rw [decide_eq_false hkind, beq_eq_false_iff_ne]
    intro h
    have hhead := (List.cons.inj h).1
    cases curly <;> exact absurd hhead (by decide)

variable [FloatChars] (isNull : Bool)

/-- An extraction of a view in front of an element. -/
theorem extract_element (n : DynamicNodeBase) (hn : n.rawVal.head? = some (ch '[')) (sep : Bytes)
    (hsep : ∀ c ∈ sep, isSeparator c = true) (d : Doc) (hd : d.WF) (rest : Bytes)
    (hrest : d.isPrimitive = true → ∀ c ∈ rest.head?, isPrimitiveDelim c = true)
    (hahead : n.ahead = sep ++ (d.text ++ rest)) (v : Bytes) :
    extract true isNull n (.view v) =
      some (if d.content = [] then (false, { n with iterState := rest, iterStarted := true }, .view v)
        else (true, { n with iterState := rest, iterStarted := true },
          .view (if d.content = bytes "null" then [] else d.content))) := by
  have htoken : nextArrayToken n.ahead false = some ⟨d.content, d.isString, rest⟩ := by
    rw [hahead, nextArrayToken_value sep hsep d hd rest hrest]
  rw [extract_array isNull n hn _ htoken]
  dsimp only
  by_cases hnil : d.content = []
  · rw [if_pos hnil, if_pos hnil]
  · rw [if_neg hnil, if_neg hnil]
    simp [coerceValue]

/-- At the end of an array all extractions fail. -/
theorem extractions_end (gap : Bytes) (hgap : IsGap gap) (n : DynamicNodeBase)
    (hn : n.rawVal.head? = some (ch '[')) (sep : Bytes) (hsep : ∀ c ∈ sep, isSeparator c = true)
    (hahead : n.ahead = sep ++ (gap ++ [ch ']'])) (views : List Bytes) :
    extractions true isNull (views.map .view) n = some (yields [] views) := by
  induction views generalizing n sep gap with
  | nil => rfl
  | cons v views ih =>
    have hend := nextArrayToken_end (sep ++ gap)
      (fun c hc => (List.mem_append.mp hc).elim (hsep c) (gap_separators gap hgap c)) false
    rw [← List.append_assoc] at hahead
    have hrest := ih [] .nil { n with iterState := [ch ']'], iterStarted := true } hn [] (by simp) rfl
    rw [List.map_cons, extractions, extract_array isNull n hn _ (by rw [hahead, hend])]
    simp only [if_pos, Option.bind_eq_bind, Option.bind_some, hrest]
    rfl

section element
variable (n n' : DynamicNodeBase) (d : Doc)

/-- A confused element is not delivered. -/
theorem extractions_confused (hc : Confused d) (elements : List Bytes)
    (hextract : ∀ v, extract true isNull n (.view v) =
      some (if d.content = [] then (false, n', .view v)
        else (true, n', .view (if d.content = bytes "null" then [] else d.content)))) :
    extractions true isNull ([[]].map .view) n ≠ some (yields (elementView d :: elements) [[]]) := by
  have helement : elementView d = d.content := by
    rw [elementView, hc.1, if_neg (by decide)]
  rw [List.map_cons, List.map_nil, extractions, hextract, helement]
  rcases hc.2 with hnil | hnull
  · rw [if_pos hnil]
    simp [extractions, yields]
  · rw [hnull, if_neg (by decide), if_pos rfl]
    simp [extractions, yields, bytes]

/-- Any other element is delivered, and the extractions go on behind it. -/
theorem extractions_element (hd : d.WF) (hc : ¬ Confused d)
    (hextract : ∀ v, extract true isNull n (.view v) =
      some (if d.content = [] then (false, n', .view v)
        else (true, n', .view (if d.content = bytes "null" then [] else d.content))))
    (v : Bytes) (views : List Bytes) :
    extractions true isNull ((v :: views).map .view) n =
      (extractions true isNull (views.map .view) n').map
        fun results => (true, .view (elementView d)) :: results := by
  obtain ⟨hne, hnull⟩ := content_of_not_confused d hd hc
  have helement : (if d.content = bytes "null" then [] else d.content) = elementView d := by
    rw [elementView]
    refine if_congr ?_ rfl rfl
    rw [← beq_iff_eq, hnull, decide_eq_true_iff]
  rw [List.map_cons, extractions, hextract v, if_neg hne, helement, Option.map_eq_bind]
  rfl

end element

/-- From an array the extractions of views yield the elements if and only if none is confused with the
end of the array or with `null`. -/
theorem extractions_yield_iff (items : List (Slot × Doc)) (hwf : Doc.ItemsWF false items) (gap : Bytes)
    (hgap : IsGap gap) (n : DynamicNodeBase) (hn : n.rawVal.head? = some (ch '[')) (sep : Bytes)
    (hsep : ∀ c ∈ sep, isSeparator c = true)
    (hahead : n.ahead = sep ++ (Doc.itemsText items ++ (gap ++ [ch ']']))) :
    (∀ views, extractions true isNull (views.map .view) n =
      some (yields (items.map fun m => elementView m.2) views)) ↔ ∀ m ∈ items, ¬ Confused m.2 := by
  induction items generalizing n sep with
  | nil => exact iff_of_true (extractions_end isNull gap hgap n hn sep hsep hahead) nofun
  | cons m items ih =>
    obtain ⟨s, d⟩ := m
    have hspaced := itemsSpaced_of_wf _ false gap hwf hgap
    have hcomments := Doc.ItemsWFWith.mono (fun _ => IsGap.commentGap) false _ (Doc.ItemsWF.with false _ hwf)
    obtain ⟨hslot, hd, hcomma, hrest⟩ := hwf
    obtain ⟨hlead, htrail⟩ := slot_separators hslot
    -- what follows the element ends it
    have hends := endsValue_trail false s d items gap [] hcomments.1 hgap.commentGap hcomma hspaced.1
    have hassoc : n.ahead = sep ++ s.lead ++ (d.text ++
        (s.trail ++ (Doc.itemsText items ++ (gap ++ [ch ']'])))) := by
      rw [hahead, Doc.itemsText]
      simp only [List.append_assoc]
    have hextract := extract_element isNull n hn (sep ++ s.lead)
      (fun c hc => (List.mem_append.mp hc).elim (hsep c) (hlead c)) d hd _ hends.2 hassoc
    have hnext := ih hrest { n with
      iterState := s.trail ++ (Doc.itemsText items ++ (gap ++ [ch ']'])), iterStarted := true } hn s.trail
      htrail rfl
    rw [List.forall_mem_cons]
    by_cases hc : Confused d
    · exact iff_of_false (fun h => extractions_confused isNull n _ d hc _ hextract (h [[]])) fun h => h.1 hc
    · have hfirst := extractions_element isNull n { n with
        iterState := s.trail ++ (Doc.itemsText items ++ (gap ++ [ch ']'])), iterStarted := true } d hd hc hextract
      rw [and_iff_right hc, ← hnext]
      constructor
      · intro h views
        have htail := h ([] :: views)
        rw [hfirst, List.map_cons, yields, Option.map_eq_some_iff] at htail
        obtain ⟨results, hresults, heq⟩ := htail
        rw [hresults, (List.cons.inj heq).2]
      · intro h views
        cases views with
        | nil => rfl
        | cons v views =>
          rw [hfirst, h views]
          rfl

end elements

section parsed
variable [FloatChars]

/-- Views extracted from the node get the elements of the array, one after the other, and then nothing
more. -/
def YieldsElements (n : ParseNode) (items : List (Slot × Doc)) : Prop :=
  ∀ views, n.extractions (views.map .view) = some (yields (items.map fun m => elementView m.2) views)

/-- The same of the node at position `k` of a parser after a parse. -/
def ParseYields (json : Bytes) (nodes : List ParseNode) (k : Nat) (items : List (Slot × Doc)) : Prop :=
  ∃ nodes' n, parse json nodes = some nodes' ∧ nodes'[k]? = some n ∧ YieldsElements n items

/-- A captured array yields all its elements if and only if none is the empty string or the string
`null`. -/
theorem parse_yields_iff (items : List (Slot × Doc)) (gap : Bytes) (hwf : (Doc.block false items gap).WF)
    (json : Bytes) (nodes : List ParseNode) (k : Nat) (q : PathBase) (isSet isNull : Bool)
    (data : DynamicNodeBase) (hk : nodes[k]? = some ⟨q, isSet, isNull, .dynamic data⟩)
    (hcap : Captured nodes k ⟨q, isSet, isNull, .dynamic data⟩ json (.block false items gap)) :
    ParseYields json nodes k items ↔
      ∀ m ∈ items, ∀ raw, m.2 = .scalar true raw → raw ≠ [] ∧ raw ≠ bytes "null" := by
  have hyields : YieldsElements (capturedNode q (.block false items gap)) items ↔
      ∀ m ∈ items, ¬ Confused m.2 := by
    apply extractions_yield_iff false items hwf.1 gap hwf.2 _ ?_ [] (by simp)
    · rfl
    · rw [Doc.content, Doc.text]
      rfl
  have hconfused (d : Doc) : ¬ Confused d ↔
      ∀ raw, d = .scalar true raw → raw ≠ [] ∧ raw ≠ bytes "null" := by
    unfold Confused
    cases d with
    | scalar isStr raw =>
      cases isStr with
      | true => simp [Doc.kind, Doc.content]
      | false =>
        have hkind := (isString_iff (.scalar false raw)).not.mp Bool.false_ne_true
        simp [hkind]
    | block curly ms g =>
      have hkind := (isString_iff (.block curly ms g)).not.mp Bool.false_ne_true
      simp [hkind]
  simp only [← hconfused]
  rw [← hyields]
  exact hcap.parse_iff hk fun n => YieldsElements n items

end parsed

deriving instance DecidableEq for Integer

deriving instance DecidableEq for Target

/-- The elements `"wifi"`, `7` and `null` with spaces around them. -/
def mixedItems : List (Slot × Doc) :=
  [(⟨bytes " ", none, [], true⟩, .scalar true (bytes "wifi")),
    (⟨[], none, bytes " ", true⟩, .scalar false (bytes "7")), (⟨[], none, [], false⟩, .scalar false (bytes "null"))]

theorem mixedItems_wf : (Doc.block false mixedItems []).WF := by
  have hspace : IsGap (bytes " ") := by simp [IsGap, bytes]
  have hstring : IsStringBody (bytes "wifi") := by decide
  have hseven : IsPrimitive (bytes "7") := by simp [IsPrimitive, bytes, ch]
  have hnull : IsPrimitive (bytes "null") := by simp [IsPrimitive, bytes, ch]
  exact ⟨⟨⟨hspace, .nil, rfl, by simp⟩, hstring, fun _ => rfl, ⟨.nil, hspace, rfl, by simp⟩, hseven,
    fun _ => rfl, ⟨.nil, .nil, rfl, by simp⟩, hnull, fun h => absurd rfl h, trivial⟩, .nil⟩

theorem parse_yields_iff_mixed :
    @ParseYields keepFloats (aMember (.block false mixedItems []) mixedItems_wf).text [listNode] 0
        mixedItems ↔
      ∀ m ∈ mixedItems, ∀ raw, m.2 = .scalar true raw → raw ≠ [] ∧ raw ≠ bytes "null" := by
  let _ := keepFloats
  have hplain : (Doc.block false mixedItems []).Plain :=
    ⟨⟨rfl, rfl, rfl, trivial⟩, trivial, trivial, trivial, trivial⟩
  exact parse_yields_iff mixedItems [] mixedItems_wf _ [listNode] 0 _ false false .blank rfl
    (aMember_captured _ mixedItems_wf hplain).2

/-- The empty string and the string `x`. -/
def blankItems : List (Slot × Doc) :=
  [(⟨[], none, [], true⟩, .scalar true []), (⟨[], none, [], false⟩, .scalar true (bytes "x"))]

theorem blankItems_wf : (Doc.block false blankItems []).WF := by
  have hstring : IsStringBody (bytes "x") := by decide
  exact ⟨⟨⟨.nil, .nil, rfl, by simp⟩, trivial, fun _ => rfl, ⟨.nil, .nil, rfl, by simp⟩, hstring,
    fun h => absurd rfl h, trivial⟩, .nil⟩

/-- The first extraction from `["","x"]` fails. -/
theorem parse_yields_blank :
    Captured [listNode] 0 listNode (aMember (.block false blankItems []) blankItems_wf).text
        (.block false blankItems []) ∧
      ((@parse keepFloats (aMember (.block false blankItems []) blankItems_wf).text [listNode]).bind
        fun nodes => nodes[0]?.bind fun n => @ParseNode.extractions keepFloats n [.view (bytes "v")]) =
          some [(false, .view (bytes "v"))] ∧
      ¬ @ParseYields keepFloats (aMember (.block false blankItems []) blankItems_wf).text [listNode] 0
        blankItems := by
  let _ := keepFloats
  have hrun : ((parse (aMember (.block false blankItems []) blankItems_wf).text [listNode]).bind
      fun nodes => nodes[0]?.bind fun n => n.extractions [.view (bytes "v")]) =
        some [(false, .view (bytes "v"))] := by
    decide
  have hplain : (Doc.block false blankItems []).Plain := ⟨⟨rfl, rfl, trivial⟩, trivial, trivial, trivial⟩
  refine ⟨(aMember_captured _ blankItems_wf hplain).2, hrun, ?_⟩
  intro hyields
  obtain ⟨nodes', n, hp, hn, h⟩ := hyields
  rw [hp, Option.bind_some, hn, Option.bind_some] at hrun
  have hyields := (h [bytes "v"]).symm.trans hrun
  exact absurd hyields (by decide)

end Espbase.StackJson
