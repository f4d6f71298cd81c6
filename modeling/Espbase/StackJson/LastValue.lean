import Espbase.StackJson.DecodeResults
import Espbase.StackJson.ParserReuse
import Espbase.StackJson.ScalarLookup
import Mathlib.Data.List.TakeWhile

namespace Espbase.StackJson

open Espbase.Lib

section integer

/-- A decimal number in the range of the type, with a minus sign for signed types only. -/
def IsInteger (t : IntType) (raw : Bytes) : Prop :=
  ∃ (neg : Bool) (digits : Bytes), (neg = true → t.signed = true) ∧ digits ≠ [] ∧
    (∀ c ∈ digits, IsDigit c) ∧ raw = (if neg then ch '-' :: digits else digits) ∧
    t.min ≤ (if neg then -(ofDecimal 0 digits : Int) else ofDecimal 0 digits) ∧
    (if neg then -(ofDecimal 0 digits : Int) else ofDecimal 0 digits) ≤ t.max

/-- A value of the range replaces whatever was there. -/
theorem Integer.set_congr (m n : Integer) (htype : m.type = n.type) (v : Int)
    (hv : n.type.min ≤ v ∧ v ≤ n.type.max) : m.set v = n.set v := by
  obtain ⟨t, x, hge, hle⟩ := m
  obtain ⟨t', x', hge', hle'⟩ := n
  subst htype
  simp only [Integer.set, dif_pos hv]

theorem zero_in_range (t : IntType) : t.min ≤ 0 ∧ 0 ≤ t.max := by
  obtain ⟨width, signed⟩ := t
  cases width <;> cases signed <;> decide

/-- The whole of such a text is read. -/
theorem fromChars_integer (m n : Integer) (htype : m.type = n.type) (raw : Bytes) (h : IsInteger n.type raw) :
    fromChars raw m = fromChars raw n := by
  obtain ⟨neg, digits, hsigned, hne, hdigits, rfl, hrange⟩ := h
  have hall : ∀ c ∈ digits, decide (IsDigit c) = true := fun c hc => decide_eq_true (hdigits c hc)
  have hrun : digits.takeWhile (fun c => decide (IsDigit c)) = digits := List.takeWhile_eq_self_iff.mpr hall
  unfold fromChars
  rw [htype]
  cases neg with
  | true =>
    rw [hsigned rfl]
    simp only [if_true, List.head?_cons, Bool.true_and, beq_self_eq_true, List.tail_cons, hrun, if_neg hne]
    exact Integer.set_congr m n htype _ hrange
  | false =>
    have hhead : (digits.head? == some (ch '-')) = false := by
      rw [beq_eq_false_iff_ne]
      intro hminus
      have hdigit := hdigits _ (List.mem_of_mem_head? (Option.mem_def.mpr hminus))
      exact absurd hdigit (by decide)
    simp only [Bool.false_eq_true, if_false, hhead, Bool.and_false, hrun, if_neg hne]
    exact Integer.set_congr m n htype _ hrange

end integer

section target
variable [FloatChars]

/-- A target after a value was assigned. -/
def Target.assigned (t : Target) (e : Lookup) : Target := (coerceValue e.raw e.isNull t).getD t

theorem Target.coerce_eq (t : Target) (e : Lookup) : coerceValue e.raw e.isNull t = some (t.assigned e) := by
  obtain ⟨t', h⟩ := coerceValue_total e.raw e.isNull t
  rw [Target.assigned, h, Option.getD_some]

theorem Target.assigned_span (cells : Bytes) (e : Lookup) :
    (Target.span cells).assigned e =
      .span (if e.isNull then [] else packed cells.length (decodeResults e.raw)) := by
  rw [Target.assigned, coerceValue, decodeJsonString_eq]
  cases e.isNull <;> rfl

theorem Target.assigned_string (value : Bytes) (e : Lookup) :
    (Target.string value).assigned e =
      .string (if e.isNull then [] else packed e.raw.length (decodeResults e.raw)) := by
  rw [Target.assigned, coerceValue, decodeJsonString_eq]
  cases e.isNull <;> rfl

/-- The value is one for the target: `null`, or of the target's type. -/
def WellTyped (t : Target) (e : Lookup) : Prop :=
  match t with
  | .bool _ => e.isNull = true ∨ e.raw = bytes "true" ∨ e.raw = bytes "false"
  | .int n => e.isNull = true ∨ IsInteger n.type e.raw
  | .view _ | .span _ | .string _ => e.isNull = true ∨ e.isString = true
  | .float _ | .double _ => False

/-- The cells that values leave of a span. -/
def spanRoom : Nat → List Lookup → Nat
  | room, [] => room
  | room, e :: es => spanRoom (if e.isNull then 0 else (packed room (decodeResults e.raw)).length) es

omit [FloatChars] in
theorem spanRoom_le (room : Nat) (es : List Lookup) : spanRoom room es ≤ room := by
  induction es generalizing room with
  | nil => exact Nat.le_refl room
  | cons e es ih =>
    rw [spanRoom]
    refine Nat.le_trans (ih _) ?_
    split_ifs
    · exact Nat.zero_le room
    · exact packed_length_le _ room

/-- Where the last value finds the target after the values before it: of the same kind, an integer of
the same type, a span with the room that is left. -/
def Target.Reached (t : Target) (es : List Lookup) (t' : Target) : Prop :=
  match t with
  | .bool _ => ∃ v, t' = .bool v
  | .int n => ∃ m, t' = .int m ∧ m.type = n.type
  | .float _ => ∃ v, t' = .float v
  | .double _ => ∃ v, t' = .double v
  | .view _ => ∃ v, t' = .view v
  | .span cells => ∃ v, t' = .span v ∧ v.length = spanRoom cells.length es
  | .string _ => ∃ v, t' = .string v

theorem Target.assigned_type (n : Integer) (e : Lookup) :
    ∃ m, (Target.int n).assigned e = .int m ∧ m.type = n.type := by
  have hset (v : Int) : (n.set v).type = n.type := by
    unfold Integer.set
    split_ifs <;> rfl
  refine ⟨_, rfl, ?_⟩
  unfold coerceInt fromChars
  dsimp only
  split_ifs <;> simp only [hset]

theorem Target.reached (t : Target) (es : List Lookup) : t.Reached es (es.foldl Target.assigned t) := by
  induction es generalizing t with
  | nil =>
    cases t with
    | int n => exact ⟨n, rfl, rfl⟩
    | span cells => exact ⟨cells, rfl, rfl⟩
    | _ => exact ⟨_, rfl⟩
  | cons e es ih =>
    have hnext := ih (t.assigned e)
    rw [List.foldl_cons]
    cases t with
    | int n =>
      obtain ⟨m, hm, htype⟩ := Target.assigned_type n e
      rw [hm] at hnext ⊢
      obtain ⟨m', hm', htype'⟩ := hnext
      exact ⟨m', hm', htype'.trans htype⟩
    | span cells =>
      rw [Target.assigned_span] at hnext ⊢
      obtain ⟨v, hv, hlen⟩ := hnext
      refine ⟨v, hv, ?_⟩
      rw [hlen, spanRoom]
      split_ifs <;> rfl
    | string value =>
      rw [Target.assigned_string] at hnext ⊢
      exact hnext
    | _ => exact hnext

/-- What the last value needs of the ones before it: nothing, but in a span as much room as it takes of
the whole span. -/
def RoomFor (t : Target) (history : List Lookup) (last : Lookup) : Prop :=
  match t with
  | .span cells => last.isNull = true ∨
      (packed cells.length (decodeResults last.raw)).length ≤ spanRoom cells.length history
  | _ => True

/-- The last value leaves what it would leave alone if and only if it has that room. -/
theorem Target.last_iff (t : Target) (history : List Lookup) (last : Lookup) (hwt : WellTyped t last) :
    (history.foldl Target.assigned t).assigned last = t.assigned last ↔ RoomFor t history last := by
  have hreached := t.reached history
  cases t with
  | bool value =>
    obtain ⟨v, hv⟩ := hreached
    rw [hv]
    exact iff_of_true rfl trivial
  | int n =>
    obtain ⟨m, hm, htype⟩ := hreached
    rw [hm]
    refine iff_of_true (congrArg Target.int ?_) trivial
    unfold coerceInt
    rcases hwt with hnull | hinteger
    · rw [hnull, if_pos rfl, if_pos rfl]
      exact Integer.set_congr m n htype 0 (zero_in_range n.type)
    · rw [fromChars_integer m n htype last.raw hinteger, Integer.set_congr m n htype 0 (zero_in_range n.type)]
  | float bits => exact hwt.elim
  | double bits => exact hwt.elim
  | view value =>
    obtain ⟨v, hv⟩ := hreached
    rw [hv]
    exact iff_of_true rfl trivial
  | string value =>
    obtain ⟨v, hv⟩ := hreached
    rw [hv, Target.assigned_string, Target.assigned_string]
    exact iff_of_true rfl trivial
  | span cells =>
    obtain ⟨v, hv, hlen⟩ := hreached
    rw [hv, Target.assigned_span, Target.assigned_span, Target.span.injEq, hlen]
    show _ ↔ last.isNull = true ∨ _
    cases last.isNull with
    | true => simp
    | false => simpa using packed_eq_iff _ _ _ (spanRoom_le cells.length history)

end target

section run
variable [FloatChars]

/-- Values assigned to a bound target one after the other. -/
theorem foldl_assigned_bind (es : List Lookup) (n : ParseNode) (t : Target) (hn : n.kind = .bind t) :
    (es.foldl (fun n e => n.assigned e) n).kind = .bind (es.foldl Target.assigned t) ∧
      (es.foldl (fun n e => n.assigned e) n).path = n.path := by
  induction es generalizing n t with
  | nil => exact ⟨hn, rfl⟩
  | cons e es ih =>
    have ha := assigned_bind e n t (t.assigned e) hn (t.coerce_eq e)
    obtain ⟨hkind, hpath⟩ := ih (n.assigned e) (t.assigned e) (by rw [ha])
    rw [List.foldl_cons, List.foldl_cons]
    exact ⟨hkind, hpath.trans (by rw [ha])⟩

/-- A parse of a text assigns a binding the values that it takes. -/
theorem parse_bind (nodes : List ParseNode) (k : Nat) (b : ParseNode) (hb : b.isCatchAll = false)
    (json : Bytes) (used : List ParseNode) (hshape : used.map ParseNode.shape = nodes.map ParseNode.shape)
    (n : ParseNode) (t : Target) (hk : used[k]? = some n) (hpath : n.path = b.path) (hn : n.kind = .bind t) :
    ∃ used' n', parse json used = some used' ∧ used'.map ParseNode.shape = nodes.map ParseNode.shape ∧
      used'[k]? = some n' ∧ n'.path = b.path ∧
      n'.kind = .bind ((taken nodes k b json).foldl Target.assigned t) := by
  have hall : n.isCatchAll = false := by rw [ParseNode.isCatchAll, hn]
  obtain ⟨used', hp, hk'⟩ := parse_binding json used k n hk hall
  have hbefore : (used.take k).map ParseNode.shape = (nodes.take k).map ParseNode.shape := by
    rw [List.map_take, hshape, List.map_take]
  have hnode : n.reset.shape = b.shape := by
    rw [ParseNode.shape, ParseNode.shape, ParseNode.reset_path, ParseNode.reset_isCatchAll, hpath, hall, hb]
  have htaken : (lookups [] [] json).filter (takes (used.take k) n.reset) = taken nodes k b json :=
    List.filter_congr fun e _ => takes_congr _ _ _ _ e hbefore hnode
  obtain ⟨hkind, hpath'⟩ := foldl_assigned_bind (taken nodes k b json) n.reset t hn
  refine ⟨used', _, hp, (parse_shape json used used' hp).trans hshape, hk', ?_, ?_⟩
  · rw [outcome, htaken, hpath', ParseNode.reset_path, hpath]
  · rw [outcome, htaken, hkind]

/-- The same for texts that are parsed one after the other. -/
theorem runUses_bind (nodes : List ParseNode) (k : Nat) (b : ParseNode) (hb : b.isCatchAll = false)
    (jsons : List Bytes) (used : List ParseNode)
    (hshape : used.map ParseNode.shape = nodes.map ParseNode.shape) (n : ParseNode) (t : Target)
    (hk : used[k]? = some n) (hpath : n.path = b.path) (hn : n.kind = .bind t) :
    ∃ used' n', runUses used (jsons.map .parse) = some used' ∧ used'[k]? = some n' ∧
      n'.kind = .bind ((jsons.flatMap (taken nodes k b)).foldl Target.assigned t) := by
  induction jsons generalizing used n t with
  | nil => exact ⟨used, n, rfl, hk, hn⟩
  | cons json jsons ih =>
    obtain ⟨used₁, n₁, hp, hshape₁, hk₁, hpath₁, hn₁⟩ := parse_bind nodes k b hb json used hshape n t hk hpath hn
    obtain ⟨used', n', hrun, hk', hn'⟩ := ih used₁ hshape₁ n₁ _ hk₁ hpath₁ hn₁
    refine ⟨used', n', ?_, hk', ?_⟩
    · rw [List.map_cons, runUses, List.foldlM_cons]
      show (parse json used).bind _ = _
      rw [hp]
      exact hrun
    · rw [hn', List.flatMap_cons, List.foldl_append]

/-- After the texts the target of the binding is what the value alone makes of it. -/
def LastWins (nodes : List ParseNode) (jsons : List Bytes) (k : Nat) (target : Target) (last : Lookup) : Prop :=
  ∃ nodes' n, runUses nodes (jsons.map .parse) = some nodes' ∧ nodes'[k]? = some n ∧
    n.kind = .bind (target.assigned last)

/-- The last of all values that texts assign to a binding is the only one that counts, if and only if the
target is no span, the value is `null`, or the values before it left as much room as it takes. -/
theorem last_wins_iff (nodes : List ParseNode) (k : Nat) (b : ParseNode) (target : Target)
    (hk : nodes[k]? = some b) (hb : b.kind = .bind target) (jsons : List Bytes) (history : List Lookup)
    (last : Lookup) (hvalues : jsons.flatMap (taken nodes k b) = history ++ [last])
    (hwt : WellTyped target last) :
    LastWins nodes jsons k target last ↔ RoomFor target history last := by
  have hall : b.isCatchAll = false := by rw [ParseNode.isCatchAll, hb]
  obtain ⟨nodes', n, hrun, hn, hkind⟩ := runUses_bind nodes k b hall jsons nodes rfl b target hk rfl hb
  rw [hvalues, List.foldl_append, List.foldl_cons, List.foldl_nil] at hkind
  rw [← target.last_iff history last hwt]
  constructor
  · intro h
    obtain ⟨nodes₁, n₁, hrun₁, hn₁, hkind₁⟩ := h
    obtain rfl := Option.some.inj (hrun.symm.trans hrun₁)
    obtain rfl := Option.some.inj (hn.symm.trans hn₁)
    exact NodeKind.bind.inj (hkind.symm.trans hkind₁)
  · intro heq
    exact ⟨nodes', n, hrun, hn, by rw [hkind, heq]⟩

end run

/-- `{"a":"s","a":"t"}` -/
def twoValues (s t : Bytes) (hs : IsStringBody s) (ht : IsStringBody t) : JsonText where
  before := []
  root := .block true [(.compact (bytes "a") true, .scalar true s),
    (.compact (bytes "a") false, .scalar true t)] []
  after := []
  before_gap := .nil
  after_gap := .nil
  root_wf := ⟨⟨Slot.compact_wf _ _ (by decide), hs, fun _ => rfl, Slot.compact_wf _ _ (by decide),
    ht, fun h => absurd rfl h, trivial⟩, .nil⟩

/-- A span of eight cells. -/
def spanNode : ParseNode := ⟨[bytes "a"], false, false, .bind (.span (List.replicate 8 0))⟩

theorem twoValues_taken (s t : Bytes) (hs : IsStringBody s) (ht : IsStringBody t) :
    taken [spanNode] 0 spanNode (twoValues s t hs ht).text =
      [⟨[], bytes "a", false, s, true⟩, ⟨[], bytes "a", false, t, true⟩] := by
  rw [taken, lookups_jsonText]
  rfl

theorem last_wins_iff_shorter :
    let text := (twoValues (bytes "hello") (bytes "hi") (by decide) (by decide)).text
    let history : List Lookup := [⟨[], bytes "a", false, bytes "hello", true⟩]
    let last : Lookup := ⟨[], bytes "a", false, bytes "hi", true⟩
    @LastWins keepFloats [spanNode] [text] 0 (.span (List.replicate 8 0)) last ↔
      RoomFor (.span (List.replicate 8 0)) history last := by
  intro text history last
  let _ := keepFloats
  have hvalues : [text].flatMap (taken [spanNode] 0 spanNode) = history ++ [last] := by
    rw [List.flatMap_singleton, twoValues_taken]
    rfl
  exact last_wins_iff [spanNode] 0 spanNode _ rfl rfl [text] history last hvalues (.inr rfl)

/-- A short value leaves the span too small for the one behind it. -/
theorem last_wins_longer :
    let text := (twoValues (bytes "ab") (bytes "hello") (by decide) (by decide)).text
    let last : Lookup := ⟨[], bytes "a", false, bytes "hello", true⟩
    [text].flatMap (taken [spanNode] 0 spanNode) = [⟨[], bytes "a", false, bytes "ab", true⟩, last] ∧
      (@runUses keepFloats [spanNode] [.parse text]).map (List.map ParseNode.kind) =
        some [.bind (.span (bytes "he"))] ∧
      @Target.assigned keepFloats (.span (List.replicate 8 0)) last = .span (bytes "hello") ∧
      ¬ @LastWins keepFloats [spanNode] [text] 0 (.span (List.replicate 8 0)) last := by
  intro text last
  let _ := keepFloats
  have hrun : (runUses [spanNode] [.parse text]).map (List.map ParseNode.kind) =
      some [.bind (.span (bytes "he"))] := rfl
  have halone : Target.assigned (.span (List.replicate 8 0)) last = .span (bytes "hello") := rfl
  refine ⟨?_, hrun, halone, ?_⟩
  · rw [List.flatMap_singleton, twoValues_taken]
  · intro h
    obtain ⟨nodes', n, hp, hn, hkind⟩ := h
    rw [List.map_cons, List.map_nil] at hp
    rw [hp, Option.map_some, Option.some.injEq] at hrun
    have hfirst := congrArg (fun l => l[0]?) hrun
    rw [List.getElem?_map, hn, Option.map_some, hkind, halone] at hfirst
    have hspan := Target.span.inj (NodeKind.bind.inj (Option.some.inj hfirst))
    exact absurd hspan (by decide)

end Espbase.StackJson
