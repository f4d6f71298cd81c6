import Espbase.StackJson.Members

namespace Espbase.StackJson

open Espbase.Lib

/-- A `bool`, an integer or a `std::string`. -/
def Target.IsScalar : Target → Prop
  | .bool _ => True
  | .int _ => True
  | .string _ => True
  | _ => False

/-- The text of a block is no number. -/
theorem fromChars_block (raw : Bytes) (target : Integer) (curly : Bool)
    (h : raw.head? = some (opening curly)) : fromChars raw target = target := by
  obtain ⟨s, rfl⟩ : ∃ s, raw = opening curly :: s := by
    cases raw with
    | nil => cases h
    | cons c s => exact ⟨s, by rw [Option.some.inj h]⟩
  have hneg : (some (opening curly) == some (ch '-')) = false := by cases curly <;> decide
  have hdigit : decide (IsDigit (opening curly)) = false := by cases curly <;> decide
  simp [fromChars, hneg, hdigit]

section coerce
variable [FloatChars]

/-- The value of a target after a parse depends on the target before it in the same way. -/
def Target.Agrees (target target' : Target) : Prop :=
  target'.IsScalar ∧ ∀ raw isNull, coerceValue raw isNull target' = coerceValue raw isNull target

/-- The intermediate assignment of a block loses nothing that a scalar would keep. -/
theorem coerceValue_block (raw : Bytes) (target : Target) (ht : target.IsScalar)
    (h : raw.head? = some (ch '{')) :
    ∃ target', coerceValue raw false target = some target' ∧ target.Agrees target' := by
  cases target with
  | bool value => exact ⟨_, rfl, trivial, fun _ _ => rfl⟩
  | int value =>
    refine ⟨.int value, ?_, trivial, fun _ _ => rfl⟩
    rw [coerceValue, coerceInt, if_neg Bool.false_ne_true, fromChars_block raw value true h]
  | string value =>
    obtain ⟨target', hc⟩ := coerceValue_total raw false (.string value)
    obtain ⟨out, rfl⟩ : ∃ out, target' = .string out := by
      simp only [coerceValue, Bool.false_eq_true, if_false, Option.bind_eq_bind,
        Option.bind_eq_some_iff, Option.some.injEq] at hc
      obtain ⟨out, -, rfl⟩ := hc
      exact ⟨out, rfl⟩
    exact ⟨_, hc, trivial, fun _ _ => rfl⟩
  | _ => exact ht.elim

theorem assigned_bind (e : Lookup) (n : ParseNode) (target target' : Target)
    (hn : n.kind = .bind target) (hc : coerceValue e.raw e.isNull target = some target') :
    n.assigned e = ⟨n.path, true, e.isNull, .bind target'⟩ := by
  have h := ParseNode.assign_eq e n
  unfold ParseNode.assign at h
  rw [hn] at h
  simp only [hc, Option.bind_eq_bind, Option.bind_some, Option.some.injEq] at h
  exact h.symm

theorem foldl_blocks (blocks : List Lookup)
    (h : ∀ e ∈ blocks, e.structural = true ∧ e.isString = false ∧ e.raw.head? = some (ch '{'))
    (n : ParseNode) (target : Target) (hn : n.kind = .bind target) (ht : target.IsScalar) :
    ∃ target', (blocks.foldl (fun n e => n.assigned e) n).kind = .bind target' ∧
      (blocks.foldl (fun n e => n.assigned e) n).path = n.path ∧ target.Agrees target' := by
  induction blocks generalizing n target with
  | nil => exact ⟨target, hn, rfl, ht, fun _ _ => rfl⟩
  | cons e blocks ih =>
    obtain ⟨hs, -, hhead⟩ := h e (by simp)
    have hnull : e.isNull = false := by rw [Lookup.isNull, hs]; rfl
    obtain ⟨target₁, hc, ht₁, hagree₁⟩ := coerceValue_block e.raw target ht hhead
    have ha := assigned_bind e n target target₁ hn (by rw [hnull, hc])
    obtain ⟨target₂, hk, hp, ht₂, hagree₂⟩ := ih (fun e he => h e (by simp [he])) (n.assigned e) target₁
      (by rw [ha]) ht₁
    rw [List.foldl_cons]
    refine ⟨target₂, hk, by rw [hp, ha], ht₂, ?_⟩
    intro raw isNull
    rw [hagree₂, hagree₁]

omit [FloatChars] in
/-- With prefix-free paths no earlier node is bound to the path of a node. -/
theorem unbound_before (nodes : List ParseNode)
    (hfree : nodes.Pairwise fun m n => ¬ m.path <+: n.path ∧ ¬ n.path <+: m.path) (k : Nat)
    (b : ParseNode) (hk : nodes[k]? = some b) : (nodes.take k).any (bound b.path) = false := by
  rw [List.any_eq_false]
  intro m hm hbound
  have hmatch : m.path.matchesParent b.path = true := by
    rw [bound, Bool.and_eq_true] at hbound
    exact hbound.2
  have hlt : k < nodes.length := (List.getElem?_eq_some_iff.mp hk).1
  obtain ⟨i, hi, rfl⟩ := List.mem_take_iff_getElem.mp hm
  have hpair := List.pairwise_iff_getElem.mp hfree i k (by omega) hlt (by omega)
  rw [(List.getElem?_eq_some_iff.mp hk).2] at hpair
  rw [PathBase.matchesParent_iff] at hmatch
  exact hpair.2 hmatch

/-- Of all lookups on the path of a scalar member, the one of the member decides. -/
theorem outcome_scalar_member (j : JsonText) (hj : j.root.Plain) (nodes : List ParseNode)
    (hfree : nodes.Pairwise fun m n => ¬ m.path <+: n.path ∧ ¬ n.path <+: m.path) (k : Nat)
    (b : ParseNode) (hk : nodes[k]? = some b) (hkeys : [] ∉ b.path) (target : Target)
    (hb : b.kind = .bind target) (ht : target.IsScalar) (isString : Bool) (raw : Bytes)
    (hm : j.root.HasMember b.path (.scalar isString raw)) :
    ∃ target', coerceValue raw (!isString && raw == bytes "null") target = some target' ∧
      outcome (nodes.take k) b.reset (docLookups [] [] j.root) =
        ⟨b.path, true, !isString && raw == bytes "null", .bind target'⟩ := by
  have hall : b.isCatchAll = false := by rw [ParseNode.isCatchAll, hb]
  obtain ⟨items, gap, hroot⟩ := hm.eq_object
  have hwf := j.root_wf
  rw [hroot] at hm hj hwf ⊢
  obtain ⟨blocks, e, hfilter, hblocks, hpath, hs, hstr, hraw⟩ :=
    (PlainObject.of_doc (Doc.WF.with _ hwf) hj).filter_member hm hkeys isString raw rfl []
  rw [List.nil_append] at hfilter hpath
  have honpath : (docLookups [] [] (.block true items gap)).filter (onPath b.path) = blocks ++ [e] := by
    rw [docLookups_onPath items gap b.path hkeys, hfilter]
  have hearlier : (nodes.take k).any (bound e.path) = false := by
    rw [hpath]
    exact unbound_before nodes hfree k b hk
  have htakes : (docLookups [] [] (.block true items gap)).filter (takes (nodes.take k) b.reset) =
      blocks ++ [e] := by
    rw [filter_takes _ b.reset hall, ParseNode.reset_path, honpath, List.filter_eq_self]
    intro e' he'
    rcases List.mem_append.mp he' with he' | he'
    · rw [(hblocks e' he').1, Bool.true_or]
    · rw [List.mem_singleton.mp he', hearlier, Bool.not_false, Bool.or_true]
  obtain ⟨target₁, hkind, hpath₁, -, hagree⟩ := foldl_blocks blocks hblocks b.reset target hb ht
  have hnull : e.isNull = (!isString && raw == bytes "null") := by
    rw [Lookup.isNull, hs, hstr, hraw]
    rfl
  obtain ⟨target₂, hc⟩ := coerceValue_total e.raw e.isNull target₁
  refine ⟨target₂, ?_, ?_⟩
  · rw [← hnull, ← hraw, ← hagree, hc]
  · rw [outcome, htakes, List.foldl_append, List.foldl_cons, List.foldl_nil,
      assigned_bind e _ target₁ target₂ hkind hc, hpath₁, hnull]
    rfl

/-- In a plain document, a binding at the path of a scalar member ends with exactly what the coercion
makes of that member. -/
theorem parse_scalar_member (j : JsonText) (hj : j.root.Plain) (nodes : List ParseNode)
    (hfree : nodes.Pairwise fun m n => ¬ m.path <+: n.path ∧ ¬ n.path <+: m.path) (k : Nat)
    (b : ParseNode) (hk : nodes[k]? = some b) (hkeys : [] ∉ b.path) (target : Target)
    (hb : b.kind = .bind target) (ht : target.IsScalar) (isString : Bool) (raw : Bytes)
    (hm : j.root.HasMember b.path (.scalar isString raw)) :
    ∃ nodes' target', parse j.text nodes = some nodes' ∧
      coerceValue raw (!isString && raw == bytes "null") target = some target' ∧
      nodes'[k]? = some ⟨b.path, true, !isString && raw == bytes "null", .bind target'⟩ := by
  have hall : b.isCatchAll = false := by rw [ParseNode.isCatchAll, hb]
  obtain ⟨nodes', hp, hn⟩ := parse_jsonText j nodes k b hk hall
  obtain ⟨target', hc, hout⟩ := outcome_scalar_member j hj nodes hfree k b hk hkeys target hb ht isString
    raw hm
  exact ⟨nodes', target', hp, hc, by rw [hn, hout]⟩

end coerce

/-- `{ "a" : {"b":5,},"c":[1, [2]]}` -/
def nestedText : JsonText where
  before := []
  root := .block true
    [(⟨bytes " ", some ⟨bytes "a", bytes " ", bytes " "⟩, [], true⟩,
        .block true [(⟨[], some ⟨bytes "b", [], []⟩, [], true⟩, .scalar false (bytes "5"))] []),
      (⟨[], some ⟨bytes "c", [], []⟩, [], false⟩,
        .block false [(⟨[], none, [], true⟩, .scalar false (bytes "1")),
          (⟨bytes " ", none, [], false⟩,
            .block false [(⟨[], none, [], false⟩, .scalar false (bytes "2"))] [])] [])] []
  after := []
  before_gap := by simp [IsGap]
  after_gap := by simp [IsGap]
  root_wf := by
    simp [Doc.WF, Doc.ItemsWF, Slot.WF, Label.WF, IsGap, IsStringBody, IsPrimitive, bytes]
    decide

theorem nestedText_plain : nestedText.root.Plain := by
  simp [-Prod.forall, nestedText, Doc.Plain, Doc.PlainHere, Doc.All, Doc.AllItems, Doc.ObjectFreeItems, Doc.isObject, Slot.key, bytes]
  decide

theorem parse_scalar_member_nestedText :
    ∃ nodes' target', @parse keepFloats nestedText.text [intNode [bytes "a", bytes "b"]] = some nodes' ∧
      @coerceValue keepFloats (bytes "5") false (.int ⟨⟨.w32, true⟩, 7, by decide, by decide⟩) =
        some target' ∧
      nodes'[0]? = some ⟨[bytes "a", bytes "b"], true, false, .bind target'⟩ := by
  let _ := keepFloats
  exact parse_scalar_member nestedText nestedText_plain [intNode [bytes "a", bytes "b"]]
    (List.pairwise_singleton _ _) 0 _ rfl (by decide) _ rfl trivial false (bytes "5")
    (.inside (s := ⟨bytes " ", some ⟨bytes "a", bytes " ", bytes " "⟩, [], true⟩) (.head _)
      (.here (s := ⟨[], some ⟨bytes "b", [], []⟩, [], true⟩) (.head _)))

end Espbase.StackJson
