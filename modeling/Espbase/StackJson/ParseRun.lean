import Espbase.StackJson.Lookups

namespace Espbase.StackJson

open Espbase.Lib

section refinement

theorem colonAt_eq (json : Bytes) (i : Nat) : colonAt json i = some ((json.drop i).head? == some (ch ':')) := by
  unfold colonAt
  by_cases hi : i < json.length
  · obtain ⟨c, hc, hd⟩ := read_lt json i hi
    rw [if_pos hi, hc, hd]
    simp
  · simp [hi, drop_ge json i hi]

/-- The depth and the path stack of the parser agree with a trail: the stack holds its first keys. -/
structure Tracks (size : Nat) (st : ParseState) (trail : List Bytes) : Prop where
  depth_eq : st.depth = trail.length
  size_eq : st.pathStack.length = size
  take_eq : st.pathStack.take trail.length = trail.take size

variable {size : Nat} {st : ParseState} {trail : List Bytes}

/-- Storing the key completes the path of the value that comes next. -/
theorem Tracks.storeKey (h : Tracks size st trail) (hroom : trail.length < size) :
    ∃ stack, st.storeKey = some { st with pathStack := stack } ∧
      Tracks size { st with pathStack := stack } trail ∧
      stack.take (trail.length + 1) = trail ++ [st.currentKey] := by
  have hlen := h.size_eq
  have hset : (st.pathStack.set trail.length st.currentKey).take trail.length = trail := by
    rw [List.take_set_of_le (Nat.le_refl _), h.take_eq, List.take_of_length_le (Nat.le_of_lt hroom)]
  refine ⟨st.pathStack.set st.depth st.currentKey, ?_, ⟨h.depth_eq, ?_, ?_⟩, ?_⟩
  · rw [ParseState.storeKey, if_pos (by rw [h.depth_eq]; omega)]
  · simpa using h.size_eq
  · rw [h.depth_eq, hset, List.take_of_length_le (Nat.le_of_lt hroom)]
  · rw [h.depth_eq, List.take_succ_eq_append_getElem (by simp; omega), hset]
    simp

/-- Entering a keyed object. -/
theorem Tracks.push (h : Tracks size st trail) :
    ∃ st', (if st.depth < st.pathStack.length then st.storeKey else some st) = some st' ∧
      st' = { st with pathStack := st'.pathStack } ∧
      ∀ i key, Tracks size { st' with depth := st.depth + 1, currentKey := key, i := i }
        (trail ++ [st.currentKey]) := by
  have hlen := h.size_eq
  have hdepth := h.depth_eq
  by_cases hroom : trail.length < size
  · obtain ⟨stack, hs, ht, htake⟩ := h.storeKey hroom
    refine ⟨_, by rw [if_pos (by omega), hs], rfl, fun i key => ⟨by simp [hdepth], ht.size_eq, ?_⟩⟩
    rw [List.length_append, List.length_singleton, htake, List.take_of_length_le (by simp; omega)]
  · refine ⟨st, by rw [if_neg (by omega)], rfl, fun i key => ⟨by simp [hdepth], hlen, ?_⟩⟩
    rw [List.take_append_of_le_length (by omega), ← h.take_eq]
    simp only [List.take_of_length_le (show st.pathStack.length ≤ trail.length by omega)]
    rw [List.take_of_length_le (by simp; omega)]

/-- Leaving an object; the depth stays at zero in the outermost one. -/
theorem Tracks.pop (h : Tracks size st trail) :
    ∃ depth, closeObject st = some { st with depth := depth, i := st.i + 1 } ∧
      Tracks size { st with depth := depth } trail.dropLast := by
  have hdepth := h.depth_eq
  refine ⟨st.depth - 1, ?_, ?_, h.size_eq, ?_⟩
  · unfold closeObject
    cases hd : st.depth <;> rfl
  · rw [List.length_dropLast, ← hdepth]
  · rw [List.length_dropLast, List.dropLast_eq_take, List.take_take, Nat.min_comm, ← List.take_take,
      ← h.take_eq, List.take_take, Nat.min_eq_left (Nat.sub_le _ _)]

variable [FloatChars] (json : Bytes)

/-- The nodes after those of the lookups that the path stack has room for. -/
def deliverAll (size : Nat) (nodes : List ParseNode) (es : List Lookup) : List ParseNode :=
  (es.filter fun e => e.trail.length < size).foldl deliver nodes

theorem deliverAll_append (nodes : List ParseNode) (es es' : List Lookup) :
    deliverAll size nodes (es ++ es') = deliverAll size (deliverAll size nodes es) es' := by
  rw [deliverAll, List.filter_append, List.foldl_append]
  rfl

theorem deliverAll_singleton (nodes : List ParseNode) (e : Lookup) :
    deliverAll size nodes [e] = if e.trail.length < size then deliver nodes e else nodes := by
  unfold deliverAll
  split_ifs with h <;> simp [h]

theorem captureStructuralValue_spec (h : Tracks size st trail) (hi : st.i ≤ json.length) :
    ∃ stack, captureStructuralValue json st = some { st with
        pathStack := stack
        nodes := deliverAll size st.nodes
          [⟨trail, st.currentKey, true, blockOf 0 false (json.drop st.i), false⟩] } ∧
      Tracks size { st with pathStack := stack } trail := by
  have hlen := h.size_eq
  have hdepth := h.depth_eq
  rw [deliverAll_singleton]
  unfold captureStructuralValue
  by_cases hroom : trail.length < size
  · obtain ⟨stack, hs, ht, htake⟩ := h.storeKey hroom
    refine ⟨stack, ?_, ht⟩
    rw [if_neg (by omega), if_pos hroom, hs]
    simp only [ParseState.currentPath, hdepth, htake, Option.bind_eq_bind, Option.bind_some,
      scanBlock_eq json st.i hi]
    generalize he : Lookup.mk trail st.currentKey true (blockOf 0 false (json.drop st.i)) false = e
    have hp : trail ++ [st.currentKey] = e.path := by rw [← he]; rfl
    have hr : blockOf 0 false (json.drop st.i) = e.raw := by rw [← he]
    have hk : st.currentKey = e.key := by rw [← he]
    have hstr : e.isString = false := by rw [← he]
    have hstruct : e.structural = true := by rw [← he]
    have hnull : e.isNull = false := by rw [← he]; rfl
    rw [hp, hr, hk]
    simp only [deliver, hstruct, Bool.true_and, if_true]
    cases hany : st.nodes.any (bound e.path) with
    | true => simp [assignBound_eq e st.nodes hstr hnull]
    | false =>
      cases hc : lastCatchAll e.key st.nodes 0 none with
      | none => simp
      | some k =>
        have hlt : k < st.nodes.length := by
          rcases lastCatchAll_range _ _ _ _ _ hc with hlt | hno
          · omega
          · cases hno
        have hat := assignAt_eq e st.nodes k hlt
        rw [hstr, hnull] at hat
        simp [hat]
  · refine ⟨st.pathStack, ?_, h⟩
    rw [if_pos (by omega), if_neg hroom]

theorem evaluateScalar_spec (h : Tracks size st trail) (val : Bytes) (isString : Bool) :
    ∃ stack, evaluateScalar val isString st = some { st with
        currentKey := []
        pathStack := stack
        nodes := deliverAll size st.nodes [⟨trail, st.currentKey, false, val, isString⟩] } ∧
      Tracks size { st with pathStack := stack } trail := by
  have hlen := h.size_eq
  have hdepth := h.depth_eq
  rw [deliverAll_singleton]
  unfold evaluateScalar
  by_cases hroom : trail.length < size
  · obtain ⟨stack, hs, ht, htake⟩ := h.storeKey hroom
    refine ⟨stack, ?_, ht⟩
    rw [if_pos (by omega), if_pos hroom, hs]
    simp only [ParseState.currentPath, hdepth, htake, Option.bind_eq_bind, Option.bind_some]
    generalize he : Lookup.mk trail st.currentKey false val isString = e
    have hp : trail ++ [st.currentKey] = e.path := by rw [← he]; rfl
    have hr : val = e.raw := by rw [← he]
    have hk : st.currentKey = e.key := by rw [← he]
    have hstr : isString = e.isString := by rw [← he]
    have hstruct : e.structural = false := by rw [← he]
    have hnull : (!e.isString && e.raw == bytes "null") = e.isNull := by
      rw [Lookup.isNull, hstruct]
      simp
    rw [hp, hr, hk, hstr, hnull]
    simp only [deliver, hstruct, Bool.false_and, Bool.false_eq_true, if_false]
    cases hc : findNode e.key e.path st.nodes 0 none with
    | none => simp
    | some k =>
      have hlt : k < st.nodes.length := by
        rcases findNode_range _ _ _ _ _ _ hc with hlt | hno
        · omega
        · cases hno
      simp [assignAt_eq e st.nodes k hlt]
  · refine ⟨st.pathStack, ?_, h⟩
    rw [if_neg (by omega), if_neg hroom]

/-- A token that starts with `c`, as the parser reads it and as `readToken` does. -/
def TokenRead (size : Nat) (st : ParseState) (r : List Lookup × Reading)
    (result : Option ParseState) : Prop :=
  ∃ st', result = some st' ∧ st.i < st'.i ∧ Tracks size st' r.2.trail ∧ st'.currentKey = r.2.key ∧
    json.drop st'.i = r.2.text ∧ st'.nodes = deliverAll size st.nodes r.1

theorem openObject_spec (h : Tracks size st trail) (s : Bytes) (hd : json.drop st.i = ch '{' :: s)
    (hi : st.i < json.length) :
    TokenRead json size st (readToken trail st.currentKey (ch '{') s) (openObject json st) := by
  have hs : json.drop (st.i + 1) = s := by rw [← List.drop_drop, hd]; rfl
  obtain ⟨stack, hc, ht⟩ := captureStructuralValue_spec json h (Nat.le_of_lt hi)
  rw [readToken, if_pos rfl]
  unfold openObject
  rw [hc, hd]
  simp only [Option.bind_eq_bind, Option.bind_some]
  by_cases hk : st.currentKey = []
  · rw [if_neg (not_not.mpr hk)]
    refine ⟨_, rfl, Nat.lt_succ_self _, ?_, hk, hs, rfl⟩
    simp only [hk, if_true]
    exact ⟨ht.depth_eq, ht.size_eq, ht.take_eq⟩
  · rw [if_pos hk]
    obtain ⟨st', hpush, heq, htrack⟩ := Tracks.push (show Tracks size { st with
      pathStack := stack
      nodes := deliverAll size st.nodes
        [⟨trail, st.currentKey, true, blockOf 0 false (ch '{' :: s), false⟩] } trail
      from ⟨ht.depth_eq, ht.size_eq, ht.take_eq⟩)
    have hopen : TokenRead json size st (([⟨trail, st.currentKey, true, blockOf 0 false (ch '{' :: s),
        false⟩], ⟨if st.currentKey = [] then trail else trail ++ [st.currentKey], [], s⟩))
        (some { st' with depth := st.depth + 1, currentKey := [], i := st.i + 1 }) := by
      refine ⟨_, rfl, Nat.lt_succ_self _, ?_, rfl, hs, ?_⟩
      · simp only [if_neg hk]
        exact htrack _ _
      · simp only
        rw [heq]
    by_cases hroom : st.depth < stack.length
    · simp only [if_pos hroom] at hpush ⊢
      rw [hpush]
      exact hopen
    · simp only [if_neg hroom] at hpush ⊢
      rw [Option.some.injEq] at hpush
      rw [← hpush] at hopen
      exact hopen

theorem openArray_spec (h : Tracks size st trail) (s : Bytes) (hd : json.drop st.i = ch '[' :: s)
    (hi : st.i < json.length) :
    TokenRead json size st (readToken trail st.currentKey (ch '[') s) (openArray json st) := by
  obtain ⟨stack, hc, ht⟩ := captureStructuralValue_spec json h (Nat.le_of_lt hi)
  rw [readToken, if_neg (by decide), if_pos rfl]
  unfold openArray
  rw [hc, hd]
  refine ⟨_, rfl, Nat.lt_succ_self _, ⟨ht.depth_eq, ht.size_eq, ht.take_eq⟩, rfl, ?_, rfl⟩
  simp only
  rw [← List.drop_drop, hd]
  rfl

theorem parseString_spec (h : Tracks size st trail) (s : Bytes) (hd : json.drop st.i = ch '"' :: s)
    (hi : st.i < json.length) :
    TokenRead json size st (readToken trail st.currentKey (ch '"') s) (parseString json st) := by
  have hs : json.drop (st.i + 1) = s := by rw [← List.drop_drop, hd]; rfl
  obtain ⟨r, hr, hle, hscan⟩ := string_spec json (st.i + 1)
  rw [hs] at hscan
  have hquote : json.drop (if r < json.length then r + 1 else r) = (json.drop r).drop 1 := by
    rw [List.drop_drop]
    split_ifs with hlt
    · rfl
    · rw [drop_ge json r hlt, drop_ge json (r + 1) (by omega)]
  have hge : r ≤ if r < json.length then r + 1 else r := by split_ifs <;> omega
  generalize hq : (if r < json.length then r + 1 else r) = q at hquote hge
  obtain ⟨i', hskip, hle', hgap⟩ := skip_spec json q
  rw [readToken, if_neg (by decide), if_neg (by decide), if_neg (by decide), if_neg (by decide),
    if_pos rfl, hscan]
  dsimp only
  rw [← hquote, hgap]
  unfold parseString
  simp only [hr, Option.bind_eq_bind, Option.bind_some, substr, if_pos (show st.i + 1 ≤ json.length from hi),
    hs, colonAt_eq, hq, hskip]
  by_cases hcolon : (json.drop q).head? = some (ch ':')
  · -- the colon follows at once, and the gap is empty
    have hsame : json.drop i' = json.drop q := by
      rw [← hgap]
      cases hdq : json.drop q with
      | nil => rw [skipGap_nil]
      | cons c t =>
        rw [hdq, List.head?_cons, Option.some.injEq] at hcolon
        rw [hcolon]
        cases t <;> rfl
    rw [hsame, if_pos hcolon]
    simp only [hcolon, beq_self_eq_true, if_true]
    refine ⟨_, rfl, ?_, ⟨h.depth_eq, h.size_eq, h.take_eq⟩, rfl, ?_, rfl⟩
    · simp only
      omega
    · simp only
      rw [← List.drop_one, List.drop_drop]
  · have hno : ¬ ((json.drop q).head? == some (ch ':')) = true := fun h => hcolon (beq_iff_eq.mp h)
    rw [if_neg hno]
    by_cases hcolon' : (json.drop i').head? = some (ch ':')
    · rw [if_pos hcolon', if_pos (beq_iff_eq.mpr hcolon')]
      refine ⟨_, rfl, ?_, ⟨h.depth_eq, h.size_eq, h.take_eq⟩, rfl, ?_, rfl⟩
      · simp only
        omega
      · simp only
        rw [← List.drop_one, List.drop_drop]
    · rw [if_neg hcolon', if_neg fun h => hcolon' (beq_iff_eq.mp h)]
      obtain ⟨stack, hev, ht⟩ := evaluateScalar_spec
        (show Tracks size { st with i := i' } trail from ⟨h.depth_eq, h.size_eq, h.take_eq⟩) (s.take (r - (st.i + 1))) true
      refine ⟨_, hev, ?_, ⟨ht.depth_eq, ht.size_eq, ht.take_eq⟩, rfl, rfl, rfl⟩
      simp only
      omega

theorem parsePrimitive_spec (h : Tracks size st trail) (c : UInt8) (s : Bytes)
    (hd : json.drop st.i = c :: s) (hi : st.i < json.length) (hc : isPrimitiveDelim c = false) :
    ∃ st', parsePrimitive json st = some st' ∧ st.i < st'.i ∧ Tracks size st' trail ∧
      st'.currentKey = [] ∧ json.drop st'.i = s.dropWhile (fun c => !isPrimitiveDelim c) ∧
      st'.nodes = deliverAll size st.nodes
        [⟨trail, st.currentKey, false, c :: s.takeWhile (fun c => !isPrimitiveDelim c), false⟩] := by
  obtain ⟨r, hr, hle, -, htake, hdrop⟩ := primitive_spec json st.i
  rw [hd] at htake hdrop
  simp only [List.takeWhile_cons, List.dropWhile_cons, hc, Bool.not_false, if_true] at htake hdrop
  have hlt : st.i < r := by
    by_contra hge
    rw [show r - st.i = 0 by omega, List.take_zero] at htake
    cases htake
  obtain ⟨stack, hev, ht⟩ := evaluateScalar_spec
    (show Tracks size { st with i := r } trail from ⟨h.depth_eq, h.size_eq, h.take_eq⟩) (c :: s.takeWhile fun c => !isPrimitiveDelim c) false
  unfold parsePrimitive
  simp only [hr, Option.bind_eq_bind, Option.bind_some, substr, if_pos (Nat.le_of_lt hi), hd, htake]
  exact ⟨_, hev, hlt, ⟨ht.depth_eq, ht.size_eq, ht.take_eq⟩, rfl, hdrop, rfl⟩

theorem parseToken_spec (h : Tracks size st trail) (c : UInt8) (s : Bytes)
    (hd : json.drop st.i = c :: s) (hi : st.i < json.length) (hws : isJsonWhitespace c = false) :
    TokenRead json size st (readToken trail st.currentKey c s) (parseToken json c st) := by
  have hs : json.drop (st.i + 1) = s := by rw [← List.drop_drop, hd]; rfl
  unfold parseToken
  by_cases hopen : c = ch '{'
  · rw [if_pos hopen, hopen]
    exact openObject_spec json h s (hopen ▸ hd) hi
  by_cases hopen' : c = ch '['
  · rw [if_neg hopen, if_pos hopen', hopen']
    exact openArray_spec json h s (hopen' ▸ hd) hi
  by_cases hclose : c = ch '}'
  · rw [if_neg hopen, if_neg hopen', if_pos hclose, readToken, if_neg hopen, if_neg hopen', if_pos hclose]
    obtain ⟨depth, hpop, ht⟩ := h.pop
    exact ⟨_, hpop, Nat.lt_succ_self _, ⟨ht.depth_eq, ht.size_eq, ht.take_eq⟩, rfl, hs, rfl⟩
  by_cases hskip : c = ch ',' ∨ c = ch ':' ∨ c = ch ']'
  · rw [if_neg hopen, if_neg hopen', if_neg hclose, if_pos hskip, readToken, if_neg hopen,
      if_neg hopen', if_neg hclose, if_pos hskip]
    exact ⟨_, rfl, Nat.lt_succ_self _, ⟨h.depth_eq, h.size_eq, h.take_eq⟩, rfl, hs, rfl⟩
  by_cases hquote : c = ch '"'
  · rw [if_neg hopen, if_neg hopen', if_neg hclose, if_neg hskip, if_pos hquote, hquote]
    exact parseString_spec json h s (hquote ▸ hd) hi
  · have hprim : isPrimitiveDelim c = false := by
      simp only [not_or] at hskip
      simp [isPrimitiveDelim, hws, hopen, hopen', hclose, hskip]
    rw [if_neg hopen, if_neg hopen', if_neg hclose, if_neg hskip, if_neg hquote, readToken,
      if_neg hopen, if_neg hopen', if_neg hclose, if_neg hskip, if_neg hquote]
    exact parsePrimitive_spec json h c s hd hi hprim

/-- What is left to be done when the parser is at `st`. -/
def ParsePost (size : Nat) (st r : ParseState) : Prop :=
  r.pathStack.length = size ∧ ∀ trail, Tracks size st trail →
    r.nodes = deliverAll size st.nodes (lookups trail st.currentKey (json.drop st.i))

theorem parseTurn_spec (st : ParseState) (hst : ∃ trail, Tracks size st trail) :
    Advances (parseTurn json) (fun st => json.length - st.i) (fun st => ∃ trail, Tracks size st trail)
      (ParsePost json size) st := by
  obtain ⟨trail, h⟩ := hst
  unfold Advances parseTurn
  have hend (hgap : skipGap .normal (json.drop st.i) = []) (i : Nat) :
      ParsePost json size st { st with i := i } :=
    ⟨h.size_eq, fun trail _ => by rw [lookups_nil _ _ _ hgap]; rfl⟩
  by_cases hi : st.i < json.length
  · obtain ⟨i, hskip, hle, hgap⟩ := skip_spec json st.i
    simp only [if_pos hi, hskip, Option.bind_eq_bind, Option.bind_some]
    by_cases hlast : i ≥ json.length
    · rw [if_pos hlast]
      exact .inl ⟨_, rfl, hend (by rw [hgap, drop_ge json i (by omega)]) i⟩
    · obtain ⟨c, hc, hd⟩ := read_lt json i (by omega)
      have hws : isJsonWhitespace c = false := skipGap_head .normal _ c _ (hgap.trans hd)
      have hread (trail : List Bytes) (h : Tracks size st trail) :=
        parseToken_spec json
          (show Tracks size { st with i := i } trail from ⟨h.depth_eq, h.size_eq, h.take_eq⟩) c _ hd
          (by simp only; omega) hws
      obtain ⟨st', hst', hlt, ht, -⟩ := hread trail h
      simp only at hlt
      rw [if_neg hlast, hc]
      simp only [Option.bind_some, hst']
      refine .inr ⟨st', rfl, by omega, ⟨_, ht⟩, ?_⟩
      rintro r ⟨hr, hnodes⟩
      refine ⟨hr, ?_⟩
      intro trail' h'
      obtain ⟨st'', hst'', -, ht', hkey, htext, hn⟩ := hread trail' h'
      obtain rfl : st' = st'' := Option.some.inj (hst'.symm.trans hst'')
      rw [hnodes _ ht', hn, hkey, htext, lookups_cons _ _ _ c _ (hgap.trans hd), deliverAll_append]
  · rw [if_neg hi]
    exact .inl ⟨st, rfl, hend (by rw [drop_ge json st.i hi, skipGap_nil]) st.i⟩

/-- The parser ends on every text, and leaves the nodes that the lookups of the text leave. -/
theorem parseJsonNodes_eq (nodes : List ParseNode) (pathStack : List Bytes) :
    ∃ st, parseJsonNodes json nodes pathStack = some st ∧ st.pathStack.length = pathStack.length ∧
      st.nodes = deliverAll pathStack.length (nodes.map ParseNode.reset) (lookups [] [] json) := by
  have hstart : Tracks pathStack.length ⟨0, 0, [], pathStack, nodes.map ParseNode.reset⟩ [] :=
    ⟨rfl, rfl, by simp⟩
  obtain ⟨st, hst, hlen, hnodes⟩ := iterate_spec (parseTurn json) (fun st => json.length - st.i)
    (fun st => ∃ trail, Tracks pathStack.length st trail) (ParsePost json pathStack.length)
    (parseTurn_spec json) (scanFuel json) _ ⟨[], hstart⟩ (by simp only [scanFuel]; omega)
  exact ⟨st, hst, hlen, hnodes [] hstart⟩

theorem parse_eq (nodes : List ParseNode) :
    parse json nodes = some (deliverAll (maxStaticDepth nodes) (nodes.map ParseNode.reset)
      (lookups [] [] json)) := by
  obtain ⟨st, hst, -, hnodes⟩ :=
    parseJsonNodes_eq json nodes (List.replicate (maxStaticDepth nodes) [])
  rw [List.length_replicate] at hnodes
  rw [parse, hst]
  exact congrArg some hnodes

end refinement

end Espbase.StackJson
