import Espbase.StackJson.ArrayTokens
import Espbase.StackJson.RoundTrip

namespace Espbase.StackJson

open Espbase.Lib

section token

theorem gap_separators (g : Bytes) (h : IsGap g) : ∀ c ∈ g, isSeparator c = true := fun c hc => by
  rw [isSeparator, (isJsonWhitespace_iff c).mpr (h c hc), Bool.true_or]

theorem dropWhile_separators (sep : Bytes) (hsep : ∀ c ∈ sep, isSeparator c = true) (c : UInt8)
    (s : Bytes) (hc : isSeparator c = false) :
    (sep ++ c :: s).dropWhile isSeparator = c :: s := by
  rw [List.dropWhile_append_of_pos hsep, List.dropWhile_cons_of_neg (by simp [hc])]

/-- A token that ends where it should is taken off the view, a string without its quotes. -/
theorem nextArrayToken_token (sep : Bytes) (hsep : ∀ c ∈ sep, isSeparator c = true) (c : UInt8)
    (t rest : Bytes) (hc : isSeparator c = false) (hclose : c ≠ ch ']') (isStr isStr' : Bool)
    (hend : tokenEnd (c :: (t ++ rest)) c = some (t.length + 1, isStr')) :
    nextArrayToken (sep ++ (c :: (t ++ rest))) isStr =
      some ⟨if isStr' = true ∧ 1 ≤ t.length then t.take (t.length - 1) else c :: t, isStr', rest⟩ := by
  have htake : (c :: (t ++ rest)).take (t.length + 1) = c :: t := by
    rw [List.take_succ_cons, List.take_left]
  have hdrop : (c :: (t ++ rest)).drop (t.length + 1) = rest := by
    rw [List.drop_succ_cons, List.drop_left]
  have hle : t.length + 1 ≤ (c :: (t ++ rest)).length := by
    rw [List.length_cons, List.length_append]
    omega
  have hfront : front (c :: (t ++ rest)) = some c := rfl
  unfold nextArrayToken
  simp only [separators_eq, dropWhile_separators sep hsep c (t ++ rest) hc, Option.bind_eq_bind,
    Option.bind_some, if_neg (List.cons_ne_nil c _), hfront, if_neg hclose, hend, substr,
    if_pos (Nat.zero_le _), List.drop_zero, htake, hdrop, removePrefix, if_pos hle]
  cases isStr' with
  | false => simp
  | true =>
    by_cases hlen : 1 ≤ t.length
    · have htwo : (true && decide (2 ≤ (c :: t).length)) = true := by
        simpa using hlen
      have hone : 1 ≤ (c :: t).length := by simp
      rw [if_pos htwo, if_pos hone, if_pos ⟨rfl, hlen⟩]
      rfl
    · have htwo : ¬ (true && decide (2 ≤ (c :: t).length)) = true := by
        simpa using hlen
      rw [if_neg htwo, if_neg fun h => hlen h.2]

/-- Behind separators the next token is the block that stands there. -/
theorem nextArrayToken_block (sep : Bytes) (hsep : ∀ c ∈ sep, isSeparator c = true) (curly : Bool)
    (items : List (Slot × Doc)) (gap : Bytes) (hd : (Doc.block curly items gap).WF) (rest : Bytes)
    (isStr : Bool) :
    nextArrayToken (sep ++ ((Doc.block curly items gap).text ++ rest)) isStr =
      some ⟨(Doc.block curly items gap).text, false, rest⟩ := by
  have hblock := blockOf_block curly items gap rest hd
  obtain ⟨body, hbody⟩ : ∃ body, (Doc.block curly items gap).text = opening curly :: body := ⟨_, by rw [Doc.text]⟩
  obtain ⟨i, hi, hpost⟩ := nested_block ((Doc.block curly items gap).text ++ rest) (0, 0)
  obtain ⟨-, hle, htake⟩ := hpost (Nat.zero_le _)
  simp only [List.drop_zero, Nat.sub_zero, hblock] at htake
  have hlen : i = (Doc.block curly items gap).text.length := by
    have := congrArg List.length htake
    rwa [List.length_take_of_le hle] at this
  rw [hbody] at hi hlen ⊢
  have hend : tokenEnd (opening curly :: (body ++ rest)) (opening curly) = some (body.length + 1, false) := by
    rw [List.cons_append, hlen] at hi
    rw [tokenEnd, if_neg (by cases curly <;> decide), if_pos (by cases curly <;> decide), hi]
    rfl
  rw [List.cons_append, nextArrayToken_token sep hsep (opening curly) body rest (by cases curly <;> rfl)
    (by cases curly <;> decide) isStr false hend, if_neg (by simp)]

/-- At the end of the array there is no token. -/
theorem nextArrayToken_end (sep : Bytes) (hsep : ∀ c ∈ sep, isSeparator c = true) (isStr : Bool) :
    nextArrayToken (sep ++ [ch ']']) isStr = some ⟨[], isStr, [ch ']']⟩ := by
  unfold nextArrayToken
  rw [separators_eq, dropWhile_separators sep hsep (ch ']') [] rfl]
  rfl

/-- What stands around the values of an array are separators. -/
theorem slot_separators {s : Slot} (h : s.WF false) :
    (∀ c ∈ s.lead, isSeparator c = true) ∧ ∀ c ∈ s.trail, isSeparator c = true := by
  obtain ⟨hbefore, hafter, hlabel, -⟩ := h
  simp only [Option.isSome_eq_false_iff, Option.isNone_iff_eq_none] at hlabel
  refine ⟨?_, ?_⟩
  · intro c hc
    rw [Slot.lead, hlabel, Option.map_none, Option.getD_none, List.append_nil] at hc
    exact gap_separators _ hbefore c hc
  · intro c hc
    rw [Slot.trail, List.mem_append] at hc
    apply hc.elim (gap_separators _ hafter c)
    intro hc
    split_ifs at hc
    · rw [List.mem_singleton.mp hc]
      rfl
    · cases hc

end token

section extract

/-- What the target holds after each of the extractions of `while (node >> v)`. -/
def extracted [FloatChars] (isSet isNull : Bool) : Nat → DynamicNodeBase → Target → Option (List Target)
  | 0, _, _ => none
  | fuel + 1, d, target => do
    let (more, d, target) ← extract isSet isNull d target
    if more then do
      let targets ← extracted isSet isNull fuel d target
      some (target :: targets)
    else some []

/-- The text that the next extraction from an array looks at. -/
def DynamicNodeBase.ahead (d : DynamicNodeBase) : Bytes :=
  if d.iterStarted then d.iterState else d.rawVal.drop 1

theorem DynamicNodeBase.started_eq (d : DynamicNodeBase) (h : d.rawVal.head? = some (ch '[')) :
    d.started = some { d with iterState := d.ahead, iterStarted := true } := by
  obtain ⟨c, s, hraw⟩ := List.exists_cons_of_ne_nil (show d.rawVal ≠ [] by rintro hn; simp [hn] at h)
  unfold DynamicNodeBase.started DynamicNodeBase.ahead
  cases hit : d.iterStarted with
  | true => simp [← hit]
  | false => simp [substr, hraw, List.take_of_length_le]

variable [FloatChars] (isNull : Bool)

/-- An extraction from a node that holds an array takes the next token. -/
theorem extract_array (d : DynamicNodeBase) (h : d.rawVal.head? = some (ch '[')) (t : ArrayToken)
    (ht : nextArrayToken d.ahead false = some t) (target : Target) :
    extract true isNull d target =
      if t.token = [] then
        some (false, { d with iterState := t.iterState, iterStarted := true }, target)
      else (coerceValue t.token (t.token == bytes "null") target).map fun target =>
        (true, { d with iterState := t.iterState, iterStarted := true }, target) := by
  have harr : d.rawVal ≠ [] ∧ front d.rawVal = some (ch '[') :=
    ⟨by rintro hn; simp [hn] at h, by rw [front, ← List.head?_eq_getElem?, h]⟩
  unfold extract
  simp only [Bool.not_true, Bool.false_eq_true, if_false, if_pos harr, d.started_eq h,
    Option.bind_eq_bind, Option.bind_some, ht]
  split_ifs
  · rfl
  · cases coerceValue t.token (t.token == bytes "null") target <;> rfl

/-- From an array of objects and arrays, the extractions of a view deliver their texts in order and
then stop. -/
theorem extracted_blocks (items : List (Slot × Doc)) (hwf : Doc.ItemsWF false items)
    (hblock : ∀ m ∈ items, ∃ curly ms gap, m.2 = .block curly ms gap) (gap : Bytes) (hgap : IsGap gap)
    (sep : Bytes) (hsep : ∀ c ∈ sep, isSeparator c = true) (d : DynamicNodeBase)
    (hd : d.rawVal.head? = some (ch '['))
    (hahead : d.ahead = sep ++ (Doc.itemsText items ++ (gap ++ [ch ']']))) (v : Bytes) (fuel : Nat)
    (hfuel : items.length < fuel) :
    extracted true isNull fuel d (.view v) = some (items.map fun m => .view m.2.text) := by
  induction items generalizing sep d v fuel with
  | nil =>
    obtain ⟨fuel, rfl⟩ : ∃ n, fuel = n + 1 := Nat.exists_eq_succ_of_ne_zero (Nat.ne_of_gt hfuel)
    have hend := nextArrayToken_end (sep ++ gap)
      (fun c hc => (List.mem_append.mp hc).elim (hsep c) (gap_separators gap hgap c)) false
    rw [Doc.itemsText, List.nil_append, ← List.append_assoc] at hahead
    rw [extracted, extract_array isNull d hd _ (by rw [hahead, hend])]
    rfl
  | cons m items ih =>
    obtain ⟨s, b⟩ := m
    obtain ⟨fuel, rfl⟩ : ∃ n, fuel = n + 1 :=
      Nat.exists_eq_succ_of_ne_zero (Nat.ne_of_gt (Nat.lt_of_le_of_lt (Nat.zero_le _) hfuel))
    obtain ⟨curly, ms, bgap, rfl⟩ := hblock (s, b) (by simp)
    rw [Doc.ItemsWF] at hwf
    obtain ⟨hslot, hb, -, hrest⟩ := hwf
    obtain ⟨hlead, htrail⟩ := slot_separators hslot
    have htoken := nextArrayToken_block (sep ++ s.lead)
      (fun c hc => (List.mem_append.mp hc).elim (hsep c) (hlead c)) curly ms bgap hb
      (s.trail ++ (Doc.itemsText items ++ (gap ++ [ch ']']))) false
    have hnext := ih hrest (fun m hm => hblock m (by simp [hm])) s.trail htrail
      { d with iterState := s.trail ++ (Doc.itemsText items ++ (gap ++ [ch ']'])), iterStarted := true }
      hd rfl (Doc.block curly ms bgap).text fuel (Nat.lt_of_succ_lt_succ hfuel)
    have htext : (Doc.block curly ms bgap).text ≠ [] := by simp [Doc.text]
    have hnull : ((Doc.block curly ms bgap).text == bytes "null") = false := by
      rw [Doc.text, beq_eq_false_iff_ne]
      refine fun h => absurd (List.cons.inj h).1 ?_
      cases curly <;> decide
    have hassoc : d.ahead = sep ++ s.lead ++ ((Doc.block curly ms bgap).text ++
        (s.trail ++ (Doc.itemsText items ++ (gap ++ [ch ']'])))) := by
      rw [hahead, Doc.itemsText]
      simp only [List.append_assoc]
    rw [extracted, extract_array isNull d hd _ (by rw [hassoc, htoken]), if_neg htext, hnull]
    simp only [coerceValue, Bool.false_eq_true, if_false, Option.map_some, Option.bind_eq_bind,
      Option.bind_some, if_true, hnext, List.map_cons]

end extract

section document
variable (k : Bytes) (objects : List (List (NodeInfo × Value)))

/-- The document with the streamed array of the objects under a key. -/
def streamDocument (id : Nat) (breaks : Bool) : List (NodeInfo × Value) :=
  [(⟨id, false, [k]⟩, .streamArray breaks (objects.map .doc))]

/-- The elements of an array without gaps. -/
def arrayItems : List Doc → List (Slot × Doc)
  | [] => []
  | d :: ds => (⟨[], none, [], !ds.isEmpty⟩, d) :: arrayItems ds

theorem arrayItems_text (ds : List Doc) : Doc.itemsText (arrayItems ds) = commaSep (ds.map Doc.text) := by
  induction ds with
  | nil => rfl
  | cons d ds ih =>
    rw [arrayItems, Doc.itemsText, ih, List.map_cons, commaSep_cons]
    cases ds with
    | nil => simp [Slot.lead, Slot.trail]
    | cons d' ds => simp [Slot.lead, Slot.trail, commaSep_cons]

theorem arrayItems_wf (ds : List Doc) (h : ∀ d ∈ ds, d.WF) : Doc.ItemsWF false (arrayItems ds) := by
  induction ds with
  | nil => trivial
  | cons d ds ih =>
    refine ⟨⟨nofun, nofun, rfl, nofun⟩, h d (by simp), ?_, ih fun d hd => h d (by simp [hd])⟩
    intro hne
    cases ds with
    | nil => exact absurd rfl hne
    | cons d' ds => rfl

theorem arrayItems_map {α : Type} (f : Doc → α) (ds : List Doc) :
    (arrayItems ds).map (fun m => f m.2) = ds.map f := by
  induction ds with
  | nil => rfl
  | cons d ds ih => rw [arrayItems, List.map_cons, List.map_cons, ih]

theorem mem_arrayItems (ds : List Doc) (m : Slot × Doc) (hm : m ∈ arrayItems ds) :
    m.2 ∈ ds ∧ m.1.key = [] := by
  induction ds with
  | nil => cases hm
  | cons d ds ih =>
    rcases List.mem_cons.mp hm with rfl | hm
    · exact ⟨by simp, rfl⟩
    · exact ⟨List.mem_cons_of_mem _ (ih hm).1, (ih hm).2⟩

/-- The root of the JSON text of an object. -/
def objectDoc (nodes : List (NodeInfo × Value)) : Doc := .block true (treeMembers (docTree nodes)) []

def streamDoc : Doc := .block false (arrayItems (objects.map objectDoc)) []

/-- Nothing in an object is looked up at a key that none of its paths starts with. -/
theorem ScalarNodes.lookups_other {nodes : List (NodeInfo × Value)} (h : ScalarNodes nodes)
    (hk : PlainKey k) (hkeys : ∀ p ∈ nodes, k ∉ p.1.path) :
    ∀ e ∈ docLookups [] [] (objectDoc nodes), ¬ e.path <+: [k] := by
  obtain ⟨hproper, hat⟩ := h.docTree_proper
  intro e he hpre
  have hother (key : Bytes) (p : List Bytes) (hp : e.path = key :: p) : key = k := by
    rw [hp] at hpre
    exact (List.cons_prefix_cons.mp hpre).1
  rw [objectDoc, docLookups, enterTrail, if_neg (by simp), itemLookups_root, List.mem_cons,
    List.mem_flatMap] at he
  rcases he with rfl | ⟨m, hm, he⟩
  · exact hk.1 (hother [] [] rfl).symm
  have hwf := treeMembers_wf _ hproper h.leaves
  have hplain := treeMembers_plain _ hproper h.leaves
  obtain ⟨s, d⟩ := m
  have hne : s.key ≠ [] := (treeMembers_here _ hproper).2 _ hm
  obtain ⟨key, p, hp, hkey⟩ := path_plain d (Doc.WF.with d (Doc.wf_of_mem hwf hm).2) (Doc.all_of_mem hplain hm) []
    s.key hne e he
  obtain rfl := hother key p hp
  rcases hkey with hkey | hkey
  · obtain ⟨⟨key', t⟩, ht, hs⟩ : ∃ m ∈ docTree nodes, m.1 = s.key := by
      rw [← List.mem_map, ← treeMembers_keys]
      exact List.mem_map_of_mem (f := fun m => m.1.key) hm
    obtain ⟨-, hproper'⟩ := hproper.of_mem PlainKey _ key' t ht
    obtain ⟨q, a, hq⟩ := KeyTree.exists_at PlainKey t hproper' _ key' ht
    obtain ⟨n, hn, -, heq⟩ := (mem_shown _ _ _).mp ((hat _ _).mp hq)
    rw [Prod.mk.injEq] at heq
    exact hkeys n hn (by rw [heq.1, hkey, ← hs]; simp)
  · exact hk.1 hkey

variable {k objects}

theorem streamDoc_wf (hobjects : ∀ o ∈ objects, ScalarNodes o) : (streamDoc objects).WF := by
  rw [streamDoc, Doc.WF]
  refine ⟨arrayItems_wf _ ?_, .nil⟩
  intro d hd
  obtain ⟨o, ho, rfl⟩ := List.mem_map.mp hd
  exact (hobjects o ho).json.root_wf

/-- The JSON text of the document. -/
def streamJson (hk : PlainKey k) (hobjects : ∀ o ∈ objects, ScalarNodes o) : JsonText where
  before := []
  root := .block true [(.compact k false, streamDoc objects)] []
  after := []
  before_gap := .nil
  after_gap := .nil
  root_wf := ⟨⟨Slot.compact_wf k false hk.body, streamDoc_wf hobjects, fun h => absurd rfl h, trivial⟩,
    .nil⟩

theorem objectDoc_text {nodes : List (NodeInfo × Value)} (h : ScalarNodes nodes) :
    (objectDoc nodes).text = documentText nodes := by
  rw [← h.json_text]
  simp [JsonText.text, ScalarNodes.json, objectDoc]

theorem streamDoc_text (hobjects : ∀ o ∈ objects, ScalarNodes o) (breaks : Bool) :
    (streamDoc objects).text = (Value.streamArray breaks (objects.map .doc)).text := by
  have hmap : (objects.map objectDoc).map Doc.text = elementTexts (objects.map .doc) := by
    induction objects with
    | nil => rfl
    | cons o objects ih =>
      rw [List.map_cons, List.map_cons, List.map_cons, elementTexts, objectDoc_text (hobjects o (by simp)),
        ih fun o ho => hobjects o (by simp [ho])]
      rfl
  rw [streamDoc, Doc.text, arrayItems_text, hmap]
  rfl

theorem streamJson_text (hk : PlainKey k) (hobjects : ∀ o ∈ objects, ScalarNodes o) (id : Nat)
    (breaks : Bool) :
    (streamJson hk hobjects).text = documentText (streamDocument k objects id breaks) := by
  have htree : documentTree (streamDocument k objects id breaks) =
      [(k, .leaf (.streamArray breaks (objects.map .doc)))] := rfl
  have hkey : stringLiteral k = ch '"' :: (k ++ [ch '"']) := by
    rw [stringLiteral, escape_plain k hk.2]
    rfl
  rw [documentText_eq, htree]
  simp [streamJson, JsonText.text, Doc.text, Doc.itemsText, Slot.compact, Slot.lead, Slot.trail, Label.text,
    objectText, treeText, KeyTree.mapOf, KeyTree.map, memberTexts, commaSep_cons, hkey, opening, closing,
    streamDoc_text hobjects breaks]

theorem ScalarNodes.ids_eq {nodes : List (NodeInfo × Value)} (h : ScalarNodes nodes) :
    nodeIds nodes = nodes.map fun p => p.1.id := by
  have hs := h.scalars
  clear h
  induction nodes with
  | nil => rfl
  | cons p nodes ih =>
    obtain ⟨n, v⟩ := p
    have hv : v.ids = [] := by
      have hv := hs (n, v) (by simp)
      cases v <;> first | rfl | exact hv.elim
    rw [nodeIds, hv, ih fun p hp => hs p (by simp [hp])]
    rfl

theorem streamDocument_valid (k : Bytes) (hobjects : ∀ o ∈ objects, ScalarNodes o) (id : Nat)
    (hid : ∀ o ∈ objects, ∀ p ∈ o, p.1.id ≠ id) (breaks : Bool) :
    (Value.doc (streamDocument k objects id breaks)).Valid := by
  have hids : id ∉ elementIds (objects.map .doc) := by
    induction objects with
    | nil => simp [elementIds]
    | cons o objects ih =>
      rw [List.map_cons, elementIds, Value.ids, (hobjects o (by simp)).ids_eq, List.mem_append, not_or]
      refine ⟨?_, ih (fun o ho => hobjects o (by simp [ho])) fun o ho => hid o (by simp [ho])⟩
      intro hm
      obtain ⟨p, hp, heq⟩ := List.mem_map.mp hm
      exact hid o (by simp) p hp heq
  have helements : ValidElements (objects.map .doc) := by
    clear hid hids
    induction objects with
    | nil => trivial
    | cons o objects ih =>
      exact ⟨(hobjects o (by simp)).valid, ih fun o ho => hobjects o (by simp [ho])⟩
  refine ⟨⟨List.nodup_singleton _, ?_, ?_, List.pairwise_singleton _ _⟩, helements, trivial⟩
  · intro n hn
    rw [List.mem_singleton.mp hn]
    simpa [streamDocument, innerIds, Value.ids] using hids
  · intro n hn
    rw [List.mem_singleton.mp hn]
    simp

variable [FloatChars]

/-- A dynamic node at the key gets the array and nothing else. -/
theorem parse_streamJson (hk : PlainKey k) (hobjects : ∀ o ∈ objects, ScalarNodes o)
    (hkeys : ∀ o ∈ objects, ∀ p ∈ o, k ∉ p.1.path) (isSet isNull : Bool) (data : DynamicNodeBase) :
    ∃ nodes', parse (streamJson hk hobjects).text [⟨[k], isSet, isNull, .dynamic data⟩] = some nodes' ∧
      nodes'[0]? = some ⟨[k], true, false,
        .dynamic ⟨(streamDoc objects).text, false, (streamDoc objects).text, false⟩⟩ := by
  obtain ⟨nodes', hp, hn⟩ := parse_jsonText (streamJson hk hobjects)
    [⟨[k], isSet, isNull, .dynamic data⟩] 0 ⟨[k], isSet, isNull, .dynamic data⟩ rfl rfl
  refine ⟨nodes', hp, ?_⟩
  rw [hn, outcome, List.take_zero]
  generalize hb : ParseNode.reset ⟨[k], isSet, isNull, .dynamic data⟩ = b
  have hpath : b.path = [k] := by rw [← hb]; rfl
  have hall : b.isCatchAll = false := by rw [← hb]; rfl
  have htakes (e : Lookup) : takes [] b e = true ↔ e.path <+: [k] := by
    rw [takes, List.any_nil, Bool.not_false, Bool.or_true, Bool.and_true, bound_iff _ _ hall, hpath]
  have hinner : (itemLookups [] (arrayItems (objects.map objectDoc))).filter (takes [] b) = [] := by
    rw [List.filter_eq_nil_iff]
    intro e he
    rw [htakes]
    rw [itemLookups_root, List.mem_flatMap] at he
    obtain ⟨m, hm, he⟩ := he
    obtain ⟨hdoc, hkey⟩ := mem_arrayItems _ _ hm
    obtain ⟨o, ho, heq⟩ := List.mem_map.mp hdoc
    rw [hkey, ← heq] at he
    exact (hobjects o ho).lookups_other k hk (hkeys o ho) e he
  have hroot : ¬ takes [] b ⟨[], [], true, (streamJson hk hobjects).root.text, false⟩ = true := by
    rw [htakes]
    exact fun hpre => hk.1 (List.cons_prefix_cons.mp hpre).1.symm
  have harray : takes [] b ⟨[], k, true, (streamDoc objects).text, false⟩ = true :=
    (htakes _).mpr (List.prefix_refl [k])
  have hlookups : (docLookups [] [] (streamJson hk hobjects).root).filter (takes [] b) =
      [⟨[], k, true, (streamDoc objects).text, false⟩] := by
    show List.filter (takes [] b) (⟨[], [], true, (streamJson hk hobjects).root.text, false⟩ ::
      (⟨[], k, true, (streamDoc objects).text, false⟩ ::
        itemLookups [] (arrayItems (objects.map objectDoc)) ++ [])) = _
    rw [List.filter_cons_of_neg hroot, List.append_nil, List.filter_cons_of_pos harray, hinner]
  rw [hlookups, ← hb]
  rfl

/-- A streamed array of objects comes back one object at a time: from the node that is bound to its key,
the extractions of a view deliver one text for each object, from which a parser gets all its values. -/
theorem streamArray_roundTrip (k : Bytes) (hk : PlainKey k) (objects : List (List (NodeInfo × Value)))
    (hobjects : ∀ o ∈ objects, ScalarNodes o) (hkeys : ∀ o ∈ objects, ∀ p ∈ o, k ∉ p.1.path) (id : Nat)
    (hid : ∀ o ∈ objects, ∀ p ∈ o, p.1.id ≠ id) (breaks : Bool) (maxSize : Nat) (emitted : Nat → Bool)
    (hroom : (documentText (streamDocument k objects id breaks)).length ≤ maxSize)
    (isSet isNull : Bool) (data : DynamicNodeBase) (v : Bytes) :
    ∃ st' n nodes' data' views,
      emitDocument (streamDocument k objects id breaks) ⟨StackBuffer.empty maxSize, emitted⟩ =
        some (st', n) ∧
      parse st'.buf.view [⟨[k], isSet, isNull, .dynamic data⟩] = some nodes' ∧
      nodes'[0]? = some ⟨[k], true, false, .dynamic data'⟩ ∧
      extracted true false (objects.length + 1) data' (.view v) = some (views.map .view) ∧
      List.Forall₂ Recovers objects views := by
  obtain ⟨st', n, he, hview⟩ := emitDocument_whole (streamDocument k objects id breaks)
    (streamDocument_valid k hobjects id hid breaks) emitted hroom
  obtain ⟨nodes', hp, hn⟩ := parse_streamJson hk hobjects hkeys isSet isNull data
  have hdata : (⟨(streamDoc objects).text, false, (streamDoc objects).text, false⟩ :
      DynamicNodeBase).ahead = [] ++ (Doc.itemsText (arrayItems (objects.map objectDoc)) ++ ([] ++ [ch ']'])) := by
    rfl
  have hwf : Doc.ItemsWF false (arrayItems (objects.map objectDoc)) := by
    have := streamDoc_wf hobjects
    rw [streamDoc, Doc.WF] at this
    exact this.1
  have hlen : (arrayItems (objects.map objectDoc)).length = objects.length := by
    simpa using congrArg List.length (arrayItems_map (fun _ => ()) (objects.map objectDoc))
  have hextracted := extracted_blocks false (arrayItems (objects.map objectDoc)) hwf (fun m hm => by
    obtain ⟨o, -, ho⟩ := List.mem_map.mp (mem_arrayItems _ m hm).1
    exact ⟨_, _, _, ho.symm⟩) [] .nil [] (by simp) _ rfl hdata v (objects.length + 1) (by omega)
  refine ⟨st', n, nodes', _, objects.map documentText, he, ?_, hn, ?_, ?_⟩
  · rw [hview, ← streamJson_text hk hobjects, hp]
  · rw [hextracted, arrayItems_map (fun d => Target.view d.text), List.map_map, List.map_map]
    refine congrArg some (List.map_congr_left ?_)
    intro o ho
    exact congrArg Target.view (objectDoc_text (hobjects o ho))
  · rw [List.forall₂_map_right_iff, List.forall₂_same]
    exact fun o ho => (hobjects o ho).recovers

end document

/-- Two objects, of which one has a string with brackets, commas, quotes and backslashes in it. -/
def logEntries : List (List (NodeInfo × Value)) :=
  [[(⟨1, false, [bytes "level"]⟩, .int minusThree)],
   [(⟨2, false, [bytes "at", bytes "text"]⟩, .str (bytes "]\x7d\",[\\")), (⟨3, false, [bytes "ok"]⟩, .null)]]

theorem logEntries_scalar : ∀ o ∈ logEntries, ScalarNodes o := by
  intro o ho
  simp only [logEntries, List.mem_cons, List.not_mem_nil, or_false] at ho
  rcases ho with rfl | rfl <;> exact
    { ids := by decide
      paths := by decide
      keys := by simp [PlainKey, Special, bytes, ch]
      prefixFree := by decide
      scalars := by simp [Value.IsScalar] }

theorem streamArray_roundTrip_logEntries :
    ∃ st' n nodes' data' views,
      emitDocument (streamDocument (bytes "log") logEntries 0 false)
        ⟨StackBuffer.empty 80, fun _ => false⟩ = some (st', n) ∧
      @parse keepFloats st'.buf.view [⟨[bytes "log"], false, false, .dynamic ⟨[], false, [], false⟩⟩] =
        some nodes' ∧
      nodes'[0]? = some ⟨[bytes "log"], true, false, .dynamic data'⟩ ∧
      @extracted keepFloats true false 3 data' (.view []) = some (views.map .view) ∧
      List.Forall₂ (@Recovers keepFloats) logEntries views := by
  let _ := keepFloats
  exact streamArray_roundTrip (bytes "log") ⟨by decide, by decide +kernel⟩ logEntries logEntries_scalar
    (by decide) 0 (by decide) false 80 (fun _ => false) (by decide) false false _ []

end Espbase.StackJson
