import Espbase.StackJson.ParseRun

namespace Espbase.StackJson

open Espbase.Lib

/-- Whether the binding `b`, listed behind the nodes `before`, takes a lookup: scalars go to the first
binding of their path only. -/
def takes (before : List ParseNode) (b : ParseNode) (e : Lookup) : Bool :=
  bound e.path b && (e.structural || !before.any (bound e.path))

theorem bound_iff (p : PathBase) (b : ParseNode) (hb : b.isCatchAll = false) :
    bound p b = true ↔ p <+: b.path := by
  rw [bound, hb, ← PathBase.matchesParent_iff]
  rfl

theorem findNode_eq_iff (key : Bytes) (p : PathBase) (b : ParseNode) (hb : b.isCatchAll = false)
    (before after : List ParseNode) (k : Nat) (catchAll : Option Nat)
    (hc : ∀ j, catchAll = some j → j < k) :
    findNode key p (before ++ b :: after) k catchAll = some (k + before.length) ↔
      bound p b = true ∧ before.any (bound p) = false := by
  induction before generalizing k catchAll with
  | nil =>
    rw [List.nil_append, findNode, if_neg (by simp [hb])]
    by_cases hm : b.path.matchesParent p = true
    · simp [bound, hb, hm]
    · simp only [List.length_nil, Nat.add_zero, bound, hm, Bool.and_false, Bool.false_eq_true,
        false_and, iff_false]
      intro h
      rcases findNode_range _ _ _ _ _ _ h with hj | hj
      · omega
      · exact Nat.lt_irrefl k (hc k hj)
  | cons n before ih =>
    have hlen : k + (n :: before).length = k + 1 + before.length := by
      rw [List.length_cons]
      omega
    rw [List.cons_append, findNode, hlen]
    by_cases hall : n.isCatchAll = true
    · rw [if_pos hall, ih]
      · simp [bound, hall]
      · intro j hj
        split_ifs at hj
        · rw [Option.some.injEq] at hj
          omega
        · have := hc j hj
          omega
    by_cases hm : n.path.matchesParent p = true
    · rw [if_neg hall, if_pos hm]
      have hne : k ≠ k + 1 + before.length := by omega
      simp [bound, hall, hm, hne]
    · rw [if_neg hall, if_neg hm, ih (k + 1) catchAll fun j hj => Nat.lt_succ_of_lt (hc j hj)]
      simp [bound, hm]

theorem lastCatchAll_ne (key : Bytes) (b : ParseNode) (hb : b.isCatchAll = false)
    (before after : List ParseNode) (k : Nat) (catchAll : Option Nat)
    (hc : ∀ j, catchAll = some j → j < k) :
    lastCatchAll key (before ++ b :: after) k catchAll ≠ some (k + before.length) := by
  induction before generalizing k catchAll with
  | nil =>
    intro h
    rw [List.nil_append, lastCatchAll, hb, Bool.false_and, if_neg Bool.false_ne_true] at h
    rcases lastCatchAll_range _ _ _ _ _ h with hj | hj
    · rw [List.length_nil] at hj
      omega
    · exact Nat.lt_irrefl k (hc _ hj)
  | cons n before ih =>
    have hlen : k + (n :: before).length = k + 1 + before.length := by
      rw [List.length_cons]
      omega
    rw [List.cons_append, lastCatchAll, hlen]
    apply ih
    intro j hj
    split_ifs at hj
    · rw [Option.some.injEq] at hj
      omega
    · have := hc j hj
      omega

namespace ParseNode

@[simp] theorem reset_path (n : ParseNode) : n.reset.path = n.path := rfl

@[simp] theorem reset_isCatchAll (n : ParseNode) : n.reset.isCatchAll = n.isCatchAll := rfl

/-- What the parser reads of a node. -/
def shape (n : ParseNode) : PathBase × Bool := (n.path, n.isCatchAll)

end ParseNode

theorem any_bound_congr (nodes nodes' : List ParseNode) (p : PathBase)
    (h : nodes.map ParseNode.shape = nodes'.map ParseNode.shape) :
    nodes.any (bound p) = nodes'.any (bound p) := by
  have hshape (l : List ParseNode) :
      l.any (bound p) = (l.map ParseNode.shape).any fun s => !s.2 && s.1.matchesParent p := by
    rw [List.any_map]
    rfl
  rw [hshape, hshape, h]

/-- Only the shape of the nodes before matters. -/
theorem takes_congr (before before' : List ParseNode) (b b' : ParseNode) (e : Lookup)
    (h : before.map ParseNode.shape = before'.map ParseNode.shape) (hb : b.shape = b'.shape) :
    takes before b e = takes before' b' e := by
  have hbound (n : ParseNode) :
      bound e.path n = (fun s : PathBase × Bool => !s.2 && s.1.matchesParent e.path) n.shape := rfl
  rw [takes, takes, any_bound_congr before before' e.path h, hbound, hbound, hb]

theorem le_maxStaticDepth (nodes : List ParseNode) (b : ParseNode) (h : b ∈ nodes)
    (hb : b.isCatchAll = false) : b.path.length ≤ maxStaticDepth nodes := by
  induction nodes with
  | nil => cases h
  | cons n nodes ih =>
    unfold maxStaticDepth at ih ⊢
    rw [List.map_cons, List.foldr_cons]
    rcases List.mem_cons.mp h with rfl | h
    · rw [hb]
      exact Nat.le_max_left _ _
    · exact Nat.le_trans (ih h) (Nat.le_max_right _ _)

section outcome
variable [FloatChars]

namespace ParseNode

theorem assigned_shape (e : Lookup) (n : ParseNode) :
    (n.assigned e).path = n.path ∧ (n.assigned e).isCatchAll = n.isCatchAll := by
  have h := assign_eq e n
  generalize n.assigned e = n' at h
  unfold assign at h
  unfold isCatchAll
  cases hk : n.kind with
  | bind target =>
    rw [hk] at h
    cases hc : coerceValue e.raw e.isNull target with
    | none => simp [hc] at h
    | some t =>
      simp only [hc, Option.bind_eq_bind, Option.bind_some, Option.some.injEq] at h
      simp [← h]
  | dynamic d =>
    simp only [hk, Option.some.injEq] at h
    simp [← h]
  | unknown d calls =>
    simp only [hk, Option.some.injEq] at h
    simp [← h]

@[simp] theorem assigned_path (e : Lookup) (n : ParseNode) : (n.assigned e).path = n.path :=
  (assigned_shape e n).1

@[simp] theorem assigned_isCatchAll (e : Lookup) (n : ParseNode) :
    (n.assigned e).isCatchAll = n.isCatchAll := (assigned_shape e n).2

@[simp] theorem assigned_shape_eq (e : Lookup) (n : ParseNode) : (n.assigned e).shape = n.shape := by
  simp [shape]

end ParseNode

theorem deliver_shape (nodes : List ParseNode) (e : Lookup) :
    (deliver nodes e).map ParseNode.shape = nodes.map ParseNode.shape := by
  unfold deliver
  split_ifs
  · rw [List.map_map]
    apply List.map_congr_left
    intro n _
    show (if _ then _ else _ : ParseNode).shape = n.shape
    split_ifs <;> simp
  all_goals
    split
    · rfl
    · rw [List.ext_getElem?_iff]
      intro i
      simp only [List.getElem?_map, List.getElem?_modify]
      cases nodes[i]? with
      | none => rfl
      | some n =>
        simp only [Option.map_eq_map, Option.map_some, Option.some.injEq]
        split_ifs <;> simp

/-- What a lookup does to one binding. -/
theorem deliver_getElem (nodes : List ParseNode) (e : Lookup) (k : Nat) (b : ParseNode)
    (hk : nodes[k]? = some b) (hb : b.isCatchAll = false) :
    (deliver nodes e)[k]? = some (if takes (nodes.take k) b e then b.assigned e else b) := by
  have hlt : k < nodes.length := (List.getElem?_eq_some_iff.mp hk).1
  have hlen : (nodes.take k).length = k := List.length_take_of_le (Nat.le_of_lt hlt)
  have hget : nodes[k] = b := (List.getElem?_eq_some_iff.mp hk).2
  have hsplit : nodes = nodes.take k ++ b :: nodes.drop (k + 1) := by
    rw [← hget, ← List.drop_eq_getElem_cons hlt, List.take_append_drop]
  have hmem : b ∈ nodes := List.mem_of_getElem? hk
  have hmodify (found : Option Nat) (t : Bool) (h : found = some k ↔ t = true) :
      (if found = some k then nodes[k]?.map (ParseNode.assigned e) else nodes[k]?) =
        some (if t then b.assigned e else b) := by
    rw [hk]
    by_cases hf : found = some k
    · rw [if_pos hf, if_pos (h.mp hf), Option.map_some]
    · rw [if_neg hf, if_neg (mt h.mpr hf)]
  unfold deliver takes
  cases hs : e.structural with
  | true =>
    simp only [Bool.true_and, if_true, Bool.true_or, Bool.and_true]
    by_cases hany : nodes.any (bound e.path) = true
    · rw [if_pos hany, List.getElem?_map, hk]
      rfl
    · have hno : bound e.path b = false := by
        have := List.any_eq_false.mp (Bool.not_eq_true _ ▸ hany) b hmem
        simpa using this
      rw [if_neg hany, modify_found]
      apply hmodify
      rw [hno]
      have hne := lastCatchAll_ne e.key b hb (nodes.take k) (nodes.drop (k + 1)) 0 none (by simp)
      rw [← hsplit, hlen, Nat.zero_add] at hne
      simpa using hne
  | false =>
    simp only [Bool.false_and, Bool.false_eq_true, if_false, Bool.false_or]
    rw [modify_found]
    apply hmodify
    have h := findNode_eq_iff e.key e.path b hb (nodes.take k) (nodes.drop (k + 1)) 0 none (by simp)
    rw [← hsplit, hlen, Nat.zero_add] at h
    simpa using h

/-- A binding after the lookups that it takes. -/
def outcome (before : List ParseNode) (b : ParseNode) (es : List Lookup) : ParseNode :=
  (es.filter (takes before b)).foldl (fun n e => n.assigned e) b

theorem outcome_congr (before before' : List ParseNode) (b : ParseNode) (es : List Lookup)
    (h : ∀ e ∈ es, takes before b e = takes before' b e) :
    outcome before b es = outcome before' b es := by
  rw [outcome, outcome, List.filter_congr h]

theorem deliverAll_getElem (size : Nat) (es : List Lookup) (nodes : List ParseNode) (k : Nat)
    (b : ParseNode) (hk : nodes[k]? = some b) (hb : b.isCatchAll = false)
    (hsize : b.path.length ≤ size) :
    (deliverAll size nodes es)[k]? = some (outcome (nodes.take k) b es) := by
  induction es generalizing nodes b with
  | nil => exact hk
  | cons e es ih =>
    rw [← List.singleton_append, deliverAll_append, deliverAll_singleton]
    have hdeliver : ∀ b', b' = (if takes (nodes.take k) b e then b.assigned e else b) →
        outcome (nodes.take k) b ([e] ++ es) = outcome (nodes.take k) b' es := by
      rintro b' rfl
      have hsame (e' : Lookup) : takes (nodes.take k) (b.assigned e) e' = takes (nodes.take k) b e' :=
        takes_congr _ _ _ _ _ rfl (by simp)
      unfold outcome
      by_cases ht : takes (nodes.take k) b e = true
      · simp only [List.singleton_append, List.filter_cons, if_pos ht, List.foldl_cons]
        rw [List.filter_congr fun e' _ => (hsame e').symm]
      · simp only [List.singleton_append, List.filter_cons, if_neg ht]
    by_cases hroom : e.trail.length < size
    · rw [if_pos hroom]
      have hshape : ((deliver nodes e).take k).map ParseNode.shape =
          (nodes.take k).map ParseNode.shape := by
        rw [List.map_take, deliver_shape, List.map_take]
      have hb' : (if takes (nodes.take k) b e then b.assigned e else b).isCatchAll = false := by
        split_ifs <;> simp [hb]
      have hp' : (if takes (nodes.take k) b e then b.assigned e else b).path.length ≤ size := by
        split_ifs <;> simp [hsize]
      rw [ih _ _ (deliver_getElem nodes e k b hk hb) hb' hp', hdeliver _ rfl]
      exact congrArg some (outcome_congr _ _ _ _ fun e' _ => takes_congr _ _ _ _ _ hshape rfl)
    · have hno : takes (nodes.take k) b e = false := by
        rw [takes, Bool.and_eq_false_iff]
        refine .inl (Bool.eq_false_iff.mpr ?_)
        intro h
        have := ((bound_iff e.path b hb).mp h).length_le
        rw [Lookup.path_length] at this
        omega
      rw [if_neg hroom, ih nodes b hk hb hsize, hdeliver b (by simp [hno])]

/-- What a parse leaves in a binding: it takes the lookups of the text one after the other. -/
theorem parse_binding (json : Bytes) (nodes : List ParseNode) (k : Nat) (b : ParseNode)
    (hk : nodes[k]? = some b) (hb : b.isCatchAll = false) :
    ∃ nodes', parse json nodes = some nodes' ∧
      nodes'[k]? = some (outcome (nodes.take k) b.reset (lookups [] [] json)) := by
  refine ⟨_, parse_eq json nodes, ?_⟩
  have hsize := le_maxStaticDepth nodes b (List.mem_of_getElem? hk) hb
  rw [deliverAll_getElem (maxStaticDepth nodes) (lookups [] [] json) (nodes.map ParseNode.reset) k
    b.reset (by simp [hk]) hb hsize]
  have hshape : ((nodes.map ParseNode.reset).take k).map ParseNode.shape =
      (nodes.take k).map ParseNode.shape := by
    rw [← List.map_take, List.map_map]
    rfl
  exact congrArg some (outcome_congr _ _ _ _ fun e' _ => takes_congr _ _ _ _ _ hshape rfl)

/-- A binding takes every block of its path, and every scalar that no earlier binding takes. -/
theorem outcome_unshared (before : List ParseNode) (b : ParseNode) (hb : b.isCatchAll = false) (es : List Lookup)
    (h : ∀ e ∈ es, e.structural = false → e.path <+: b.path →
      ∀ m ∈ before, m.isCatchAll = false → ¬ e.path <+: m.path) :
    outcome before b es = outcome [] b es := by
  apply outcome_congr
  intro e he
  cases hs : e.structural with
  | true => simp [takes, hs]
  | false =>
    by_cases hbound : bound e.path b = true
    · have hpre : e.path <+: b.path := (bound_iff e.path b hb).mp hbound
      have hnone : before.any (bound e.path) = false := by
        rw [List.any_eq_false]
        intro m hm hmb
        have hall : m.isCatchAll = false := by
          rw [bound, Bool.and_eq_true, Bool.not_eq_true'] at hmb
          exact hmb.1
        exact h e he hs hpre m hm hall ((bound_iff e.path m hall).mp hmb)
      simp [takes, hnone]
    · simp [takes, hbound]

/-- A binding that takes no scalar takes the blocks. -/
theorem outcome_blocks (before : List ParseNode) (b : ParseNode) (es : List Lookup)
    (h : ∀ e ∈ es, e.structural = false → takes before b e = false) :
    outcome before b es = outcome [] b (es.filter (·.structural)) := by
  unfold outcome
  rw [List.filter_filter]
  refine congrArg (List.foldl _ b) (List.filter_congr ?_)
  intro e he
  cases hs : e.structural with
  | true => simp [takes, hs]
  | false => simp [h e he hs]

/-- Bindings of one path: the scalars are for the first in the list, the blocks for all. Apart from that a binding ends
as if it were alone, where no scalar goes to a binding with a longer path than its own. Later bindings, blocks and the
size of the path stack make no difference. -/
theorem parse_alone (json : Bytes) (before after : List ParseNode) (b : ParseNode) (hb : b.isCatchAll = false)
    (hlonger : ∀ e ∈ lookups [] [] json, e.structural = false → e.path <+: b.path →
      ∀ m ∈ before, m.isCatchAll = false → e.path <+: m.path → e.path = b.path ∧ m.path = b.path) :
    ∃ nodes b', parse json (before ++ b :: after) = some nodes ∧ nodes[before.length]? = some b' ∧
      ((∀ e ∈ lookups [] [] json, e.structural = false → e.path = b.path →
          ∀ m ∈ before, m.isCatchAll = false → m.path ≠ b.path) →
        ∃ nodes', parse json [b] = some nodes' ∧ nodes'[0]? = some b') ∧
      ((∃ m ∈ before, m.isCatchAll = false ∧ m.path = b.path) →
        b' = outcome [] b.reset ((lookups [] [] json).filter (·.structural))) := by
  obtain ⟨nodes, hp, hn⟩ := parse_binding json (before ++ b :: after) before.length b (by simp) hb
  rw [List.take_left] at hn
  refine ⟨nodes, _, hp, hn, ?_, ?_⟩
  · intro hfirst
    obtain ⟨nodes', hp', hn'⟩ := parse_binding json [b] 0 b rfl hb
    refine ⟨nodes', hp', ?_⟩
    rw [hn', List.take_zero, outcome_unshared before b.reset hb]
    intro e he hs hpre m hm hall hpre'
    obtain ⟨heb, hmb⟩ := hlonger e he hs hpre m hm hall hpre'
    exact hfirst e he hs heb m hm hall hmb
  · rintro ⟨m, hm, hall, hmb⟩
    refine outcome_blocks before b.reset _ fun e _ hs => ?_
    by_cases hbound : bound e.path b.reset = true
    · have hpre : e.path <+: b.path := (bound_iff e.path b.reset hb).mp hbound
      have hany : before.any (bound e.path) = true :=
        List.any_eq_true.mpr ⟨m, hm, (bound_iff e.path m hall).mpr (hmb ▸ hpre)⟩
      simp [takes, hs, hany]
    · simp [takes, hbound]

end outcome

/-- Conversions that leave every floating-point target as it is, as `from_chars` does on texts that
are no numbers. -/
abbrev keepFloats : FloatChars := ⟨fun _ v => v, fun _ v => v⟩

/-- A binding of an `int` that is 7. -/
def intNode (path : PathBase) : ParseNode :=
  ⟨path, false, false, .bind (.int ⟨⟨.w32, true⟩, 7, by decide, by decide⟩)⟩

theorem parse_alone_intNode :
    ∃ nodes b', @parse keepFloats (bytes "\x7b\"x\":1,\"a\":2\x7d")
        [intNode [bytes "x"], intNode [bytes "a"], intNode [bytes "a"]] = some nodes ∧ nodes[2]? = some b' ∧
      b' = @outcome keepFloats [] (intNode [bytes "a"])
        ((lookups [] [] (bytes "\x7b\"x\":1,\"a\":2\x7d")).filter (·.structural)) := by
  let _ := keepFloats
  obtain ⟨nodes, b', hp, hn, -, hblocks⟩ := parse_alone (bytes "\x7b\"x\":1,\"a\":2\x7d")
    [intNode [bytes "x"], intNode [bytes "a"]] [] (intNode [bytes "a"]) rfl (by
      intro e _ _ ha m hm _ hx
      obtain ⟨k, p, hp⟩ := List.exists_cons_of_ne_nil (show e.path ≠ [] by simp [Lookup.path])
      rw [hp] at ha hx ⊢
      obtain ⟨hk, hnil⟩ := List.cons_prefix_cons.mp ha
      rw [hk, List.prefix_nil.mp hnil]
      refine ⟨rfl, ?_⟩
      rcases List.mem_cons.mp hm with rfl | hm
      · have hax : bytes "a" = bytes "x" := hk.symm.trans (List.cons_prefix_cons.mp hx).1
        exact absurd hax (by decide)
      · rw [List.mem_singleton.mp hm])
  exact ⟨nodes, b', hp, hn, hblocks ⟨intNode [bytes "a"], by simp, rfl, rfl⟩⟩

/-- The second of two bindings of one path stays unset, alone it is set. -/
theorem parse_samePath_unset :
    (@parse keepFloats (bytes "\x7b\"a\":1\x7d") [intNode [bytes "a"], intNode [bytes "a"]]).map
        (List.map ParseNode.isSet) = some [true, false] ∧
      (@parse keepFloats (bytes "\x7b\"a\":1\x7d") [intNode [bytes "a"]]).map
        (List.map ParseNode.isSet) = some [true] := by
  decide

end Espbase.StackJson
