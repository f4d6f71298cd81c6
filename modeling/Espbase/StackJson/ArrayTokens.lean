import Espbase.StackJson.ParseRun

namespace Espbase.StackJson

open Espbase.Lib

section token
variable (iterState : Bytes)

/-- `front()`, which must not be called on an empty view. -/
def front : Option UInt8 := iterState[0]?

/-- `remove_prefix(n)`, which must not remove more than there is. -/
def removePrefix (n : Nat) : Option Bytes :=
  if n ≤ iterState.length then some (iterState.drop n) else none

/-- `while (!iter_state_.empty() && (is_json_whitespace(front()) || front() == ',')) remove_prefix(1)` -/
def separatorTurn (iterState : Bytes) : Option (Turn Bytes Bytes) :=
  if iterState ≠ [] then do
    let c ← front iterState
    if isJsonWhitespace c || c == ch ',' then do
      let iterState ← removePrefix iterState 1
      some (.next iterState)
    else some (.done iterState)
  else some (.done iterState)

/-- The loops after an opening quote, up to and with the closing one. -/
def quotedTurn (i : Nat) : Option (Turn Nat Nat) :=
  if i < iterState.length then do
    let sc ← iterState[i]?
    some <|
      if sc = ch '\\' then .next (if i + 1 < iterState.length then i + 2 else i + 1)
      else if sc = ch '"' then .done (i + 1)
      else .next (i + 1)
  else some (.done i)

/-- The loop over a nested object or array: the position and the bracket depth. -/
def nestedTurn (s : Nat × Int) : Option (Turn (Nat × Int) Nat) :=
  let (i, depth) := s
  if i < iterState.length then do
    let c ← iterState[i]?
    if c = ch '"' then do
      let i ← iterate (quotedTurn iterState) (scanFuel iterState) (i + 1)
      some (.next (i, depth))
    else
      some <|
        if c = ch '{' ∨ c = ch '[' then .next (i + 1, depth + 1)
        else if c = ch '}' ∨ c = ch ']' then
          if depth - 1 = 0 then .done (i + 1) else .next (i + 1, depth - 1)
        else .next (i + 1, depth)
  else some (.done i)

/-- What `next_array_token` returns: the token, its `is_str` and the view it leaves. -/
structure ArrayToken where
  token : Bytes
  isStr : Bool
  iterState : Bytes

/-- Where the token that starts with `c` ends, and whether it is a string. -/
def tokenEnd (c : UInt8) : Option (Nat × Bool) :=
  if c = ch '"' then do
    let i ← iterate (quotedTurn iterState) (scanFuel iterState) 1
    some (i, true)
  else if c = ch '{' ∨ c = ch '[' then do
    let i ← iterate (nestedTurn iterState) (scanFuel iterState) (0, 0)
    some (i, false)
  else do
    let i ← iterate (primitiveTurn iterState) (scanFuel iterState) 0
    some (i, false)

def nextArrayToken (isStr : Bool) : Option ArrayToken := do
  let iterState ← iterate separatorTurn (scanFuel iterState) iterState
  if iterState = [] then some ⟨[], isStr, iterState⟩
  else do
    let c ← front iterState
    if c = ch ']' then some ⟨[], isStr, iterState⟩
    else do
      let (i, isStr) ← tokenEnd iterState c
      let token ← substr iterState 0 i
      let iterState ← removePrefix iterState i
      let token ← if isStr && 2 ≤ token.length then substr token 1 (token.length - 2) else some token
      some ⟨token, isStr, iterState⟩

/-- What is passed over before a token. -/
def isSeparator (c : UInt8) : Bool := isJsonWhitespace c || c == ch ','

theorem separators_eq :
    iterate separatorTurn (scanFuel iterState) iterState = some (iterState.dropWhile isSeparator) := by
  have hturn (v : Bytes) (_ : True) : Advances separatorTurn List.length (fun _ => True)
      (fun v r => r = v.dropWhile isSeparator) v := by
    unfold Advances separatorTurn
    cases v with
    | nil => exact .inl ⟨[], rfl, rfl⟩
    | cons c v =>
      rw [if_pos (List.cons_ne_nil c v)]
      show _ ∨ _
      simp only [front, removePrefix, List.getElem?_cons_zero, Option.bind_eq_bind, Option.bind_some]
      by_cases hsep : isSeparator c = true
      · refine .inr ⟨v, ?_, Nat.lt_succ_self _, trivial, ?_⟩
        · exact (if_pos hsep).trans (by simp)
        · intro r hr
          rw [hr, List.dropWhile_cons_of_pos hsep]
      · exact .inl ⟨c :: v, if_neg hsep, (List.dropWhile_cons_of_neg hsep).symm⟩
  obtain ⟨r, hr, rfl⟩ := iterate_spec _ _ _ _ hturn (scanFuel iterState) iterState trivial
    (Nat.lt_succ_self _)
  exact hr

theorem separator_spec :
    ∃ r, iterate separatorTurn (scanFuel iterState) iterState = some r ∧ r <:+ iterState :=
  ⟨_, separators_eq iterState, List.dropWhile_suffix _⟩

/-- The loop over a string passes the bytes that the search for the end of a block passes. -/
theorem quoted_block (i : Nat) :
    ∃ r, iterate (quotedTurn iterState) (scanFuel iterState) i = some r ∧
      (i ≤ iterState.length → i ≤ r ∧ r ≤ iterState.length ∧ ∀ n,
        blockOf n true (iterState.drop i) =
          (iterState.drop i).take (r - i) ++ blockOf n false (iterState.drop r)) := by
  apply index_loop iterState (quotedTurn iterState) (fun i r => i ≤ iterState.length →
    i ≤ r ∧ r ≤ iterState.length ∧ ∀ n, blockOf n true (iterState.drop i) =
      (iterState.drop i).take (r - i) ++ blockOf n false (iterState.drop r))
  intro i
  unfold quotedTurn
  by_cases hi : i < iterState.length
  · obtain ⟨c, hc, hd⟩ := read_lt iterState i hi
    rw [if_pos hi, hc]
    by_cases hslash : c = ch '\\'
    · subst hslash
      refine .inr ⟨if i + 1 < iterState.length then i + 2 else i + 1, by simp, hi, ?_, ?_⟩
      · split_ifs <;> omega
      intro r hr _
      by_cases hlast : i + 1 < iterState.length
      · rw [if_pos hlast] at hr
        obtain ⟨hle, hlen, hblock⟩ := hr (by omega)
        have hsub : r - i = 1 + (r - (i + 2)) + 1 := by omega
        refine ⟨by omega, hlen, ?_⟩
        intro n
        rw [hd, blockOf_escape, List.drop_drop, hblock, hsub, List.take_succ_cons, List.take_add,
          List.drop_drop, List.cons_append, List.append_assoc]
      · rw [if_neg hlast] at hr
        obtain ⟨hle, hlen, -⟩ := hr (by omega)
        have hsub : r - i = 1 := by omega
        refine ⟨by omega, hlen, ?_⟩
        intro n
        rw [hd, drop_ge iterState (i + 1) hlast, drop_ge iterState r (by omega), hsub]
        simp [blockOf]
    by_cases hquote : c = ch '"'
    · subst hquote
      refine .inl ⟨i + 1, by simp [hslash], fun _ => ⟨by omega, hi, ?_⟩⟩
      intro n
      rw [hd, blockOf_inStr n _ _ hslash, Nat.add_sub_cancel_left]
      rfl
    · refine .inr ⟨i + 1, by simp [hslash, hquote], hi, by omega, ?_⟩
      intro r hr _
      obtain ⟨hle, hlen, hblock⟩ := hr hi
      have hsub : r - i = r - (i + 1) + 1 := by omega
      refine ⟨by omega, hlen, ?_⟩
      intro n
      rw [hd, blockOf_inStr n c _ hslash, bne_iff_ne.mpr hquote, hblock, hsub, List.take_succ_cons]
      rfl
  · rw [if_neg hi]
    refine .inl ⟨i, rfl, fun h => ⟨Nat.le_refl i, h, ?_⟩⟩
    intro n
    simp only [drop_ge iterState i hi, List.take_nil, List.nil_append, blockOf]

theorem quoted_spec (i : Nat) :
    ∃ r, iterate (quotedTurn iterState) (scanFuel iterState) i = some r ∧
      (i ≤ iterState.length → i ≤ r ∧ r ≤ iterState.length) := by
  obtain ⟨r, hr, h⟩ := quoted_block iterState i
  exact ⟨r, hr, fun hi => ⟨(h hi).1, (h hi).2.1⟩⟩

/-- The array tokenizer and the search for the end of a block agree on where a block ends. -/
theorem nested_block (s : Nat × Int) :
    ∃ r, iterate (nestedTurn iterState) (scanFuel iterState) s = some r ∧
      (s.1 ≤ iterState.length → s.1 ≤ r ∧ r ≤ iterState.length ∧
        (iterState.drop s.1).take (r - s.1) = blockOf s.2 false (iterState.drop s.1)) := by
  apply iterate_spec (nestedTurn iterState) (fun s => iterState.length - s.1) (fun _ => True)
    (fun s r => s.1 ≤ iterState.length → s.1 ≤ r ∧ r ≤ iterState.length ∧
      (iterState.drop s.1).take (r - s.1) = blockOf s.2 false (iterState.drop s.1))
  · rintro ⟨i, depth⟩ _
    unfold Advances nestedTurn
    by_cases hi : i < iterState.length
    · obtain ⟨c, hc, hd⟩ := read_lt iterState i hi
      -- one more byte of the block, then the rest of it from `j` on
      have hnext (j : Nat) (d : Int) (hj : i < j) (hle : j ≤ iterState.length)
          (hblock : blockOf depth false (c :: iterState.drop (i + 1)) =
            (iterState.drop i).take (j - i) ++ blockOf d false (iterState.drop j)) :
          iterState.length - j < iterState.length - i ∧ True ∧ ∀ r,
            (j ≤ iterState.length → j ≤ r ∧ r ≤ iterState.length ∧
              (iterState.drop j).take (r - j) = blockOf d false (iterState.drop j)) →
            i ≤ iterState.length → i ≤ r ∧ r ≤ iterState.length ∧
              (iterState.drop i).take (r - i) = blockOf depth false (iterState.drop i) := by
        refine ⟨by omega, trivial, ?_⟩
        intro r hr _
        obtain ⟨hjr, hlen, heq⟩ := hr hle
        have hsub : r - i = j - i + (r - j) := by omega
        have hdrop : (iterState.drop i).drop (j - i) = iterState.drop j := by
          rw [List.drop_drop, Nat.add_sub_cancel' (Nat.le_of_lt hj)]
        refine ⟨by omega, hlen, ?_⟩
        rw [hsub, List.take_add, hdrop, heq, ← hblock, hd]
      have hone (d : Int) (h : blockOf depth false (c :: iterState.drop (i + 1)) =
          c :: blockOf d false (iterState.drop (i + 1))) :
          blockOf depth false (c :: iterState.drop (i + 1)) =
            (iterState.drop i).take (i + 1 - i) ++ blockOf d false (iterState.drop (i + 1)) := by
        rw [h, hd, Nat.add_sub_cancel_left]
        rfl
      simp only [if_pos hi, hc, Option.bind_eq_bind, Option.bind_some]
      by_cases hquote : c = ch '"'
      · obtain ⟨j, hj, hpost⟩ := quoted_block iterState (i + 1)
        obtain ⟨hle, hlen, hblock⟩ := hpost hi
        refine .inr ⟨(j, depth), ?_, hnext j depth (by omega) hlen ?_⟩
        · simp only [if_pos hquote, hj, Option.bind_some]
        · have hsub : j - i = j - (i + 1) + 1 := by omega
          rw [blockOf, if_pos hquote, hblock, hd, hsub, List.take_succ_cons]
          rfl
      rw [if_neg hquote]
      by_cases hopen : c = ch '{' ∨ c = ch '['
      · refine .inr ⟨(i + 1, depth + 1), by rw [if_pos hopen], hnext _ _ (by omega) hi (hone _ ?_)⟩
        rw [blockOf, if_neg hquote, if_pos hopen]
      by_cases hclose : c = ch '}' ∨ c = ch ']'
      · rw [if_neg hopen, if_pos hclose]
        by_cases hz : depth - 1 = 0
        · refine .inl ⟨i + 1, by rw [if_pos hz], fun _ => ⟨by omega, hi, ?_⟩⟩
          simp only [Nat.add_sub_cancel_left]
          rw [hd, blockOf, if_neg hquote, if_neg hopen, if_pos hclose, if_pos hz]
          rfl
        · refine .inr ⟨(i + 1, depth - 1), by rw [if_neg hz], hnext _ _ (by omega) hi (hone _ ?_)⟩
          rw [blockOf, if_neg hquote, if_neg hopen, if_pos hclose, if_neg hz]
      · refine .inr ⟨(i + 1, depth), ?_, hnext _ _ (by omega) hi (hone _ ?_)⟩
        · rw [if_neg hopen, if_neg hclose]
        · rw [blockOf, if_neg hquote, if_neg hopen, if_neg hclose]
    · refine .inl ⟨i, by simp only [if_neg hi], fun h => ⟨Nat.le_refl i, h, ?_⟩⟩
      simp only [drop_ge iterState i hi, List.take_nil, blockOf]
  · trivial
  · unfold scanFuel
    omega

theorem nested_spec (s : Nat × Int) :
    ∃ r, iterate (nestedTurn iterState) (scanFuel iterState) s = some r ∧
      (s.1 ≤ iterState.length → s.1 ≤ r ∧ r ≤ iterState.length) := by
  obtain ⟨r, hr, h⟩ := nested_block iterState s
  exact ⟨r, hr, fun hi => ⟨(h hi).1, (h hi).2.1⟩⟩

theorem tokenEnd_spec (c : UInt8) (h : iterState ≠ []) :
    ∃ i isStr, tokenEnd iterState c = some (i, isStr) ∧ i ≤ iterState.length := by
  have hpos : 1 ≤ iterState.length := List.length_pos_iff.mpr h
  unfold tokenEnd
  split_ifs
  · obtain ⟨i, hi, hle⟩ := quoted_spec iterState 1
    exact ⟨i, true, by rw [hi]; rfl, (hle hpos).2⟩
  · obtain ⟨i, hi, hle⟩ := nested_spec iterState (0, 0)
    exact ⟨i, false, by rw [hi]; rfl, (hle (Nat.zero_le _)).2⟩
  · obtain ⟨i, hi, -, hle, -⟩ := primitive_spec iterState 0
    exact ⟨i, false, by rw [hi]; rfl, hle (Nat.zero_le _)⟩

/-- The next token never reads outside the view, leaves a part of it and, when it is not empty, a
shorter one. -/
theorem nextArrayToken_spec (isStr : Bool) :
    ∃ t, nextArrayToken iterState isStr = some t ∧ t.iterState <:+ iterState ∧
      (t.token ≠ [] → t.iterState.length < iterState.length) := by
  obtain ⟨v, hv, hsuffix⟩ := separator_spec iterState
  unfold nextArrayToken
  simp only [hv, Option.bind_eq_bind, Option.bind_some]
  by_cases hnil : v = []
  · exact ⟨⟨[], isStr, v⟩, by rw [if_pos hnil], hsuffix, fun h => absurd rfl h⟩
  obtain ⟨c, w, rfl⟩ := List.exists_cons_of_ne_nil hnil
  rw [if_neg hnil]
  simp only [front, List.getElem?_cons_zero, Option.bind_some]
  by_cases hend : c = ch ']'
  · exact ⟨⟨[], isStr, c :: w⟩, by rw [if_pos hend], hsuffix, fun h => absurd rfl h⟩
  obtain ⟨i, isStr', hi, hle⟩ := tokenEnd_spec (c :: w) c hnil
  have hrest : (c :: w).drop i <:+ iterState := (List.drop_suffix i _).trans hsuffix
  have hshort (h : (c :: w).take i ≠ []) : ((c :: w).drop i).length < iterState.length := by
    have hpos : 0 < i := Nat.pos_of_ne_zero fun h0 => h (by rw [h0, List.take_zero])
    have hlen := hsuffix.length_le
    simp only [List.length_cons, List.length_drop] at hlen ⊢
    omega
  rw [if_neg hend]
  simp only [hi, Option.bind_some, substr, if_pos (Nat.zero_le _), List.drop_zero, removePrefix,
    if_pos hle]
  by_cases hstr : (isStr' && decide (2 ≤ ((c :: w).take i).length)) = true
  · have hone : 1 ≤ ((c :: w).take i).length := by
      rw [Bool.and_eq_true, decide_eq_true_iff] at hstr
      omega
    rw [if_pos hstr, if_pos hone]
    exact ⟨_, rfl, hrest, fun _ => hshort (List.ne_nil_of_length_pos hone)⟩
  · rw [if_neg hstr]
    exact ⟨_, rfl, hrest, hshort⟩

end token

section extract
variable [FloatChars] (isSet isNull : Bool)

/-- The first extraction from an array starts its iteration behind the bracket. -/
def DynamicNodeBase.started (d : DynamicNodeBase) : Option DynamicNodeBase :=
  if !d.iterStarted then do
    let iterState ← substr d.rawVal 1 d.rawVal.length
    some { d with iterState := iterState, iterStarted := true }
  else some d

/-- `operator>>`: whether there was a value, the node after it and the target. -/
def extract (d : DynamicNodeBase) (target : Target) : Option (Bool × DynamicNodeBase × Target) :=
  if !isSet then some (false, d, target)
  else if d.rawVal ≠ [] ∧ front d.rawVal = some (ch '[') then do
    let d ← d.started
    let t ← nextArrayToken d.iterState false
    let d := { d with iterState := t.iterState }
    if t.token = [] then some (false, d, target)
    else do
      let target ← coerceValue t.token (t.token == bytes "null") target
      some (true, d, target)
  else if d.iterStarted then some (false, d, target)
  else do
    let target ← coerceValue d.rawVal isNull target
    some (true, { d with iterStarted := true }, target)

/-- `while (node >> v) { … }`, where the body may change `v`. -/
def extractTurn (body : Target → Target) (s : DynamicNodeBase × Target) :
    Option (Turn (DynamicNodeBase × Target) (DynamicNodeBase × Target)) := do
  let (more, d, target) ← extract isSet isNull s.1 s.2
  some (if more then .next (d, body target) else .done (d, target))

/-- What is left for the extractions from a node: the rest of an array, else at most one value. -/
def remaining (d : DynamicNodeBase) : Nat :=
  if d.rawVal ≠ [] ∧ front d.rawVal = some (ch '[') then
    if d.iterStarted then d.iterState.length else d.rawVal.length
  else if d.iterStarted then 0 else 1

/-- An extraction ends without a fault; one that succeeds leaves less. -/
theorem extract_spec (d : DynamicNodeBase) (target : Target) :
    ∃ more d' target', extract isSet isNull d target = some (more, d', target') ∧
      d'.rawVal = d.rawVal ∧ (more = true → remaining d' < remaining d) := by
  unfold extract
  cases isSet with
  | false => exact ⟨false, d, target, rfl, rfl, nofun⟩
  | true =>
    simp only [Bool.not_true, Bool.false_eq_true, if_false]
    by_cases harr : d.rawVal ≠ [] ∧ front d.rawVal = some (ch '[')
    · have hpos : 1 ≤ d.rawVal.length := List.length_pos_iff.mpr harr.1
      have hstart : ∃ d', d.started = some d' ∧ d'.rawVal = d.rawVal ∧ d'.iterStarted = true ∧
          d'.iterState.length ≤ remaining d := by
        cases hit : d.iterStarted with
        | true => exact ⟨d, by simp [DynamicNodeBase.started, hit], rfl, hit, by simp [remaining, harr, hit]⟩
        | false =>
          refine ⟨{ d with iterState := d.rawVal.drop 1, iterStarted := true }, ?_, rfl, rfl, ?_⟩
          · simp [DynamicNodeBase.started, hit, substr, hpos, List.take_of_length_le]
          · simp [remaining, harr, hit]
      obtain ⟨d', hd', hraw, hit, hle⟩ := hstart
      obtain ⟨t, ht, -, hshort⟩ := nextArrayToken_spec d'.iterState false
      rw [if_pos harr, hd']
      simp only [Option.bind_eq_bind, Option.bind_some, ht]
      by_cases hnil : t.token = []
      · exact ⟨false, { d' with iterState := t.iterState }, target, by rw [if_pos hnil], hraw, nofun⟩
      · obtain ⟨target', hc⟩ := coerceValue_total t.token (t.token == bytes "null") target
        refine ⟨true, { d' with iterState := t.iterState }, target', by rw [if_neg hnil, hc]; rfl, hraw,
          ?_⟩
        intro _
        have hafter : remaining { d' with iterState := t.iterState } = t.iterState.length := by
          rw [remaining, if_pos (by simpa [hraw] using harr), if_pos hit]
        rw [hafter]
        exact Nat.lt_of_lt_of_le (hshort hnil) hle
    · rw [if_neg harr]
      cases hit : d.iterStarted with
      | true => exact ⟨false, d, target, rfl, rfl, nofun⟩
      | false =>
        obtain ⟨target', hc⟩ := coerceValue_total d.rawVal isNull target
        refine ⟨true, { d with iterStarted := true }, target', ?_, rfl, ?_⟩
        · rw [hc]
          rfl
        · intro _
          rw [remaining, remaining, if_neg harr, if_neg harr, hit]
          exact Nat.zero_lt_one

/-- A loop that extracts while it can ends. -/
theorem extract_loop (body : Target → Target) (d : DynamicNodeBase) (target : Target) :
    ∃ r, iterate (extractTurn isSet isNull body) (remaining d + 1) (d, target) = some r := by
  have hturn (s : DynamicNodeBase × Target) (_ : True) : Advances (extractTurn isSet isNull body)
      (fun s => remaining s.1) (fun _ => True) (fun _ _ => True) s := by
    obtain ⟨more, d', target', he, -, hless⟩ := extract_spec isSet isNull s.1 s.2
    unfold Advances extractTurn
    simp only [he, Option.bind_eq_bind, Option.bind_some]
    cases more with
    | false => exact .inl ⟨_, rfl, trivial⟩
    | true => exact .inr ⟨_, rfl, hless rfl, trivial, fun _ _ => trivial⟩
  obtain ⟨r, hr, -⟩ := iterate_spec _ _ _ _ hturn (remaining d + 1) (d, target) trivial
    (Nat.lt_succ_self _)
  exact ⟨r, hr⟩

end extract

/-- No text, raw value or output span makes the parser fault or run on. -/
theorem parser_safe [FloatChars] :
    (∀ (json : Bytes) (nodes : List ParseNode) (pathStack : List Bytes),
      ∃ st, parseJsonNodes json nodes pathStack = some st ∧
        st.pathStack.length = pathStack.length) ∧
    (∀ (iterState : Bytes) (isStr : Bool), ∃ t, nextArrayToken iterState isStr = some t ∧
      t.iterState <:+ iterState ∧ (t.token ≠ [] → t.iterState.length < iterState.length)) ∧
    (∀ (isSet isNull : Bool) (d : DynamicNodeBase) (target : Target),
      ∃ more d' target', extract isSet isNull d target = some (more, d', target') ∧
        d'.rawVal = d.rawVal ∧ (more = true → remaining d' < remaining d)) ∧
    (∀ (isSet isNull : Bool) (body : Target → Target) (d : DynamicNodeBase) (target : Target),
      ∃ r, iterate (extractTurn isSet isNull body) (remaining d + 1) (d, target) = some r) ∧
    ∀ (input : Bytes) (outSize : Nat),
      ∃ out, decodeJsonString input outSize = some out ∧ out.length ≤ outSize := by
  refine ⟨?_, nextArrayToken_spec, extract_spec, extract_loop, decodeJsonString_total⟩
  intro json nodes pathStack
  obtain ⟨st, hst, hlen, -⟩ := parseJsonNodes_eq json nodes pathStack
  exact ⟨st, hst, hlen⟩

end Espbase.StackJson
