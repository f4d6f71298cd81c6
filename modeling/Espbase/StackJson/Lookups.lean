import Espbase.StackJson.Scan
import Espbase.StackJson.Decode

namespace Espbase.StackJson

open Espbase.Lib

/-- A value that the parser looks up in the bindings: the keys of the objects it thinks it is in, the
key in the innermost one, and the text. -/
structure Lookup where
  trail : List Bytes
  key : Bytes
  structural : Bool
  raw : Bytes
  isString : Bool

namespace Lookup

def path (e : Lookup) : PathBase := e.trail ++ [e.key]

def isNull (e : Lookup) : Bool := !e.structural && !e.isString && e.raw == bytes "null"

@[simp] theorem path_length (e : Lookup) : e.path.length = e.trail.length + 1 := by simp [path]

end Lookup

/-- The text that is still to be read, and where in the document it starts. -/
structure Reading where
  trail : List Bytes
  key : Bytes
  text : Bytes

/-- Reads the token that starts with `c` and goes on in `s`. -/
def readToken (trail : List Bytes) (key : Bytes) (c : UInt8) (s : Bytes) : List Lookup × Reading :=
  if c = ch '{' then
    ([⟨trail, key, true, blockOf 0 false (c :: s), false⟩],
      ⟨if key = [] then trail else trail ++ [key], [], s⟩)
  else if c = ch '[' then
    ([⟨trail, key, true, blockOf 0 false (c :: s), false⟩], ⟨trail, [], s⟩)
  else if c = ch '}' then ([], ⟨trail.dropLast, key, s⟩)
  else if c = ch ',' ∨ c = ch ':' ∨ c = ch ']' then ([], ⟨trail, key, s⟩)
  else if c = ch '"' then
    let rest := skipGap .normal ((scanString s).2.drop 1)
    if rest.head? = some (ch ':') then ([], ⟨trail, (scanString s).1, rest.tail⟩)
    else ([⟨trail, key, false, (scanString s).1, true⟩], ⟨trail, [], rest⟩)
  else
    ([⟨trail, key, false, c :: s.takeWhile (fun c => !isPrimitiveDelim c), false⟩],
      ⟨trail, [], s.dropWhile fun c => !isPrimitiveDelim c⟩)

theorem skipGap_length_le (g : Gap) (s : Bytes) : (skipGap g s).length ≤ s.length := by
  fun_induction skipGap g s <;> simp_all <;> omega

theorem scanString_length_le (s : Bytes) : (scanString s).2.length ≤ s.length := by
  fun_induction scanString s <;> simp_all <;> omega

theorem readToken_text_le (trail : List Bytes) (key : Bytes) (c : UInt8) (s : Bytes) :
    (readToken trail key c s).2.text.length ≤ s.length := by
  have hgap := skipGap_length_le .normal ((scanString s).2.drop 1)
  have hstr := scanString_length_le s
  rw [List.length_drop] at hgap
  unfold readToken
  dsimp only
  split_ifs <;> simp only [List.length_tail, le_refl] <;> try omega
  exact (List.dropWhile_suffix _).length_le

/-- The lookups of a text, in order. -/
def lookups (trail : List Bytes) (key text : Bytes) : List Lookup :=
  match _hgap : skipGap .normal text with
  | [] => []
  | c :: s =>
    (readToken trail key c s).1 ++
      lookups (readToken trail key c s).2.trail (readToken trail key c s).2.key
        (readToken trail key c s).2.text
termination_by text.length
decreasing_by
  have h1 := readToken_text_le trail key c s
  have h2 := skipGap_length_le .normal text
  rw [_hgap, List.length_cons] at h2
  omega

theorem lookups_nil (trail : List Bytes) (key text : Bytes) (h : skipGap .normal text = []) :
    lookups trail key text = [] := by
  rw [lookups]
  split
  · rfl
  · simp_all

theorem lookups_cons (trail : List Bytes) (key text : Bytes) (c : UInt8) (s : Bytes)
    (h : skipGap .normal text = c :: s) :
    lookups trail key text = (readToken trail key c s).1 ++
      lookups (readToken trail key c s).2.trail (readToken trail key c s).2.key
        (readToken trail key c s).2.text := by
  rw [lookups]
  split
  · simp_all
  · simp_all

/-- What is left after a gap does not start with whitespace. -/
theorem skipGap_head (g : Gap) (text : Bytes) (c : UInt8) (s : Bytes)
    (h : skipGap g text = c :: s) : isJsonWhitespace c = false := by
  fun_induction skipGap g text <;> simp_all

theorem lastCatchAll_range (key : Bytes) (nodes : List ParseNode) (k : Nat) (catchAll : Option Nat)
    (j : Nat) (h : lastCatchAll key nodes k catchAll = some j) :
    (k ≤ j ∧ j < k + nodes.length) ∨ catchAll = some j := by
  induction nodes generalizing k catchAll with
  | nil => exact .inr h
  | cons n nodes ih =>
    rw [List.length_cons]
    rcases ih (k + 1) _ h with hj | hj
    · exact .inl (by omega)
    · split_ifs at hj
      · rw [Option.some.injEq] at hj
        exact .inl (by omega)
      · exact .inr hj

theorem findNode_range (key : Bytes) (currentPath : PathBase) (nodes : List ParseNode) (k : Nat)
    (catchAll : Option Nat) (j : Nat) (h : findNode key currentPath nodes k catchAll = some j) :
    (k ≤ j ∧ j < k + nodes.length) ∨ catchAll = some j := by
  induction nodes generalizing k catchAll with
  | nil => exact .inr h
  | cons n nodes ih =>
    rw [List.length_cons]
    rw [findNode] at h
    by_cases hall : n.isCatchAll = true
    · rw [if_pos hall] at h
      rcases ih (k + 1) _ h with hj | hj
      · exact .inl (by omega)
      · split_ifs at hj
        · rw [Option.some.injEq] at hj
          exact .inl (by omega)
        · exact .inr hj
    by_cases hmatch : n.path.matchesParent currentPath = true
    · rw [if_neg hall, if_pos hmatch, Option.some.injEq] at h
      exact .inl (by omega)
    · rw [if_neg hall, if_neg hmatch] at h
      rcases ih (k + 1) _ h with hj | hj
      · exact .inl (by omega)
      · exact .inr hj

section deliver
variable [FloatChars]

theorem coerceValue_total (raw : Bytes) (isNull : Bool) (target : Target) :
    ∃ target', coerceValue raw isNull target = some target' := by
  cases target with
  | span value =>
    obtain ⟨out, h, -⟩ := decodeJsonString_total raw value.length
    cases isNull <;> simp [coerceValue, h]
  | string value =>
    obtain ⟨out, h, -⟩ := decodeJsonString_total raw raw.length
    cases isNull <;> simp [coerceValue, h]
  | _ => exact ⟨_, rfl⟩

/-- A node after a lookup that it takes. -/
def ParseNode.assigned (e : Lookup) (n : ParseNode) : ParseNode :=
  (n.assign e.path e.raw e.isString e.isNull).getD n

theorem ParseNode.assign_eq (e : Lookup) (n : ParseNode) :
    n.assign e.path e.raw e.isString e.isNull = some (n.assigned e) := by
  have h : ∃ n', n.assign e.path e.raw e.isString e.isNull = some n' := by
    unfold ParseNode.assign
    dsimp only
    split
    · next target _ =>
      obtain ⟨t, ht⟩ := coerceValue_total e.raw e.isNull target
      exact ⟨_, by rw [ht]; rfl⟩
    · exact ⟨_, rfl⟩
    · exact ⟨_, rfl⟩
  obtain ⟨n', h⟩ := h
  rw [assigned, h, Option.getD_some]

/-- The nodes after a lookup: a block goes to all bindings of its path, a scalar to the first one;
what no binding takes goes to the last catch-all. -/
def deliver (nodes : List ParseNode) (e : Lookup) : List ParseNode :=
  if e.structural && nodes.any (bound e.path) then
    nodes.map fun n => if bound e.path n then n.assigned e else n
  else
    match if e.structural then lastCatchAll e.key nodes 0 none
      else findNode e.key e.path nodes 0 none with
    | none => nodes
    | some k => nodes.modify k (ParseNode.assigned e)

/-- What stands at an index after a delivery to the node that was found. -/
theorem modify_found (nodes : List ParseNode) (e : Lookup) (found : Option Nat) (k : Nat) :
    (match found with
      | none => nodes
      | some j => nodes.modify j (ParseNode.assigned e))[k]? =
        if found = some k then nodes[k]?.map (ParseNode.assigned e) else nodes[k]? := by
  cases found with
  | none => rw [if_neg (by simp)]
  | some j =>
    simp only [List.getElem?_modify, Option.some.injEq]
    split_ifs <;> simp

theorem assignAt_eq (e : Lookup) (nodes : List ParseNode) (k : Nat) (hk : k < nodes.length) :
    assignAt nodes k e.path e.raw e.isString e.isNull =
      some (nodes.modify k (ParseNode.assigned e)) := by
  simp [assignAt, List.getElem?_eq_getElem hk, ParseNode.assign_eq, List.modify_eq_set_get _ hk]

theorem assignBound_eq (e : Lookup) (nodes : List ParseNode) (hs : e.isString = false)
    (hn : e.isNull = false) :
    assignBound e.path e.raw nodes =
      some (nodes.map fun n => if bound e.path n then n.assigned e else n) := by
  have h (n : ParseNode) : n.assign e.path e.raw false false = some (n.assigned e) := by
    rw [← ParseNode.assign_eq, hs, hn]
  induction nodes with
  | nil => rfl
  | cons n nodes ih =>
    rw [assignBound, ih, h]
    cases hb : bound e.path n <;> simp [hb]

end deliver

end Espbase.StackJson
