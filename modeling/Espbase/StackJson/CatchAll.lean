import Espbase.StackJson.Members

namespace Espbase.StackJson

open Espbase.Lib

deriving instance DecidableEq for UnknownCall

/-- The call of a callback for a value. -/
def Lookup.call (e : Lookup) : UnknownCall := ⟨e.path, e.raw, e.isString, e.isNull⟩

/-- Whether a value goes to a catch-all: it has a key, the path stack has room for its path and no
binding takes it. -/
def unmatched (nodes : List ParseNode) (e : Lookup) : Bool :=
  e.key ≠ [] && decide (e.path.length ≤ maxStaticDepth nodes) && !nodes.any (bound e.path)

/-- The calls of the callback for values that are looked up one after the other. -/
def callsOf (nodes : List ParseNode) (es : List Lookup) : List UnknownCall :=
  (es.filter (unmatched nodes)).map Lookup.call

/-- The calls for a root member and all that is in it. -/
def memberCalls (nodes : List ParseNode) (m : Slot × Doc) : List UnknownCall :=
  callsOf nodes (docLookups [] m.1.key m.2)

/-- The calls that a node has made. -/
def ParseNode.calls (n : ParseNode) : List UnknownCall :=
  match n.kind with
  | .unknown _ calls => calls
  | _ => []

/-- The node that the callback belongs to: the last catch-all of the list, with the calls so far. -/
structure LastCatchAll (nodes : List ParseNode) (k : Nat) (calls : List UnknownCall) : Prop where
  node : ∃ n data, nodes[k]? = some n ∧ n.kind = .unknown data calls
  last : ∀ j n, k < j → nodes[j]? = some n → n.isCatchAll = false

section search

theorem lastCatchAll_none (key : Bytes) (nodes : List ParseNode) (i : Nat) (catchAll : Option Nat)
    (h : key = [] ∨ ∀ n ∈ nodes, n.isCatchAll = false) :
    lastCatchAll key nodes i catchAll = catchAll := by
  induction nodes generalizing i catchAll with
  | nil => rfl
  | cons n nodes ih =>
    have hcond : (n.isCatchAll && decide (key ≠ [])) = false := by
      rcases h with h | h
      · simp [h]
      · simp [h n (by simp)]
    rw [lastCatchAll, hcond, ih]
    · rfl
    · exact h.imp id fun h m hm => h m (by simp [hm])

theorem lastCatchAll_eq (key : Bytes) (hkey : key ≠ []) (nodes : List ParseNode) (i k : Nat)
    (catchAll : Option Nat) (n : ParseNode) (hk : nodes[k]? = some n) (hn : n.isCatchAll = true)
    (hlast : ∀ j m, k < j → nodes[j]? = some m → m.isCatchAll = false) :
    lastCatchAll key nodes i catchAll = some (i + k) := by
  induction nodes generalizing i k catchAll with
  | nil => simp at hk
  | cons n' nodes ih =>
    rw [lastCatchAll]
    cases k with
    | zero =>
      rw [List.getElem?_cons_zero, Option.some.injEq] at hk
      subst hk
      rw [lastCatchAll_none key nodes]
      · simp [hn, hkey]
      · apply Or.inr
        intro m hm
        obtain ⟨j, hj⟩ := List.mem_iff_getElem?.mp hm
        exact hlast (j + 1) m (Nat.succ_pos j) (by rw [List.getElem?_cons_succ, hj])
    | succ k =>
      rw [List.getElem?_cons_succ] at hk
      have hlast' (j : Nat) (m : ParseNode) (hj : k < j) (hm : nodes[j]? = some m) :
          m.isCatchAll = false :=
        hlast (j + 1) m (by omega) (by rw [List.getElem?_cons_succ, hm])
      rw [ih (i + 1) k _ hk hlast']
      congr 1
      omega

theorem findNode_unbound (key : Bytes) (p : PathBase) (nodes : List ParseNode) (i : Nat)
    (catchAll : Option Nat) (h : nodes.any (bound p) = false) :
    findNode key p nodes i catchAll = lastCatchAll key nodes i catchAll := by
  induction nodes generalizing i catchAll with
  | nil => rfl
  | cons n nodes ih =>
    rw [List.any_cons, Bool.or_eq_false_iff] at h
    rw [findNode, lastCatchAll, ih _ _ h.2]
    cases hall : n.isCatchAll with
    | true => simp
    | false =>
      have hm : n.path.matchesParent p = false := by simpa [bound, hall] using h.1
      simp [hm, ih _ _ h.2]

theorem findNode_bound (key : Bytes) (p : PathBase) (nodes : List ParseNode) (i : Nat)
    (catchAll : Option Nat) (h : nodes.any (bound p) = true) :
    ∃ j n, findNode key p nodes i catchAll = some (i + j) ∧ nodes[j]? = some n ∧
      n.isCatchAll = false := by
  induction nodes generalizing i catchAll with
  | nil => simp at h
  | cons n nodes ih =>
    rw [findNode]
    by_cases hm : bound p n = true
    · rw [bound, Bool.and_eq_true, Bool.not_eq_true'] at hm
      exact ⟨0, n, by simp [hm.1, hm.2], rfl, hm.1⟩
    · have hrest : nodes.any (bound p) = true := by
        rw [List.any_cons, Bool.or_eq_true] at h
        exact h.resolve_left hm
      have hnext (catchAll : Option Nat) : ∃ j m, findNode key p nodes (i + 1) catchAll = some (i + j) ∧
          (n :: nodes)[j]? = some m ∧ m.isCatchAll = false := by
        obtain ⟨j, m, hf, hj, hall⟩ := ih (i + 1) catchAll hrest
        exact ⟨j + 1, m, by rw [hf]; congr 1; omega, by rw [List.getElem?_cons_succ, hj], hall⟩
      cases hall : n.isCatchAll with
      | true => simpa using hnext _
      | false =>
        have hno : n.path.matchesParent p = false := by simpa [bound, hall] using hm
        simpa [hno] using hnext _

end search

section deliver
variable [FloatChars] {nodes : List ParseNode} {k : Nat} {calls : List UnknownCall}

theorem assigned_unknown (e : Lookup) (n : ParseNode) (data : DynamicNodeBase) (calls : List UnknownCall)
    (hn : n.kind = .unknown data calls) :
    (n.assigned e).kind = .unknown ⟨e.raw, e.isString, e.raw, false⟩ (calls ++ [e.call]) := by
  have h := ParseNode.assign_eq e n
  rw [ParseNode.assign, hn] at h
  rw [← Option.some.inj h]
  rfl

/-- What a lookup that has room does to the callback. -/
theorem LastCatchAll.deliver (h : LastCatchAll nodes k calls) (e : Lookup) :
    LastCatchAll (deliver nodes e) k
      (calls ++ if e.key ≠ [] ∧ nodes.any (bound e.path) = false then [e.call] else []) := by
  obtain ⟨⟨n, data, hk, hkind⟩, hlast⟩ := h
  have hall : n.isCatchAll = true := by rw [ParseNode.isCatchAll, hkind]
  have hlast' (j : Nat) (m : ParseNode) (hj : k < j) (hm : (StackJson.deliver nodes e)[j]? = some m) :
      m.isCatchAll = false := by
    have hshape := congrArg (fun l => l[j]?) (deliver_shape nodes e)
    simp only [List.getElem?_map, hm, Option.map_some] at hshape
    obtain ⟨m', hm', heq⟩ := Option.map_eq_some_iff.mp hshape.symm
    have := hlast j m' hj hm'
    exact (congrArg Prod.snd heq).symm.trans this
  refine ⟨?_, hlast'⟩
  have hmodify (found : Option Nat)
      (h : found = some k ↔ e.key ≠ [] ∧ nodes.any (bound e.path) = false) :
      ∃ n data, (if found = some k then nodes[k]?.map (ParseNode.assigned e) else nodes[k]?) = some n ∧
        n.kind = .unknown data
          (calls ++ if e.key ≠ [] ∧ nodes.any (bound e.path) = false then [e.call] else []) := by
    by_cases hf : found = some k
    · rw [if_pos (h.mp hf), if_pos hf, hk]
      exact ⟨n.assigned e, _, rfl, assigned_unknown e n data calls hkind⟩
    · rw [if_neg (mt h.mpr hf), if_neg hf, List.append_nil]
      exact ⟨n, data, hk, hkind⟩
  have hsearch : lastCatchAll e.key nodes 0 none = some k ↔ e.key ≠ [] := by
    by_cases hkey : e.key = []
    · rw [lastCatchAll_none _ _ _ _ (.inl hkey)]
      simp [hkey]
    · rw [lastCatchAll_eq e.key hkey nodes 0 k none n hk hall hlast, Nat.zero_add]
      simp [hkey]
  have hsame : bound e.path n = false := by rw [bound, hall]; rfl
  unfold StackJson.deliver
  cases hany : nodes.any (bound e.path) with
  | true =>
    rw [hany] at hmodify
    cases e.structural with
    | true =>
      refine ⟨n, data, ?_, by simpa using hkind⟩
      simp only [Bool.and_self, if_true, List.getElem?_map, hk, Option.map_some, hsame,
        Bool.false_eq_true, if_false]
    | false =>
      obtain ⟨j, m, hf, hj, hm⟩ := findNode_bound e.key e.path nodes 0 none hany
      have hne : findNode e.key e.path nodes 0 none ≠ some k := by
        intro heq
        rw [hf, Nat.zero_add, Option.some.injEq] at heq
        rw [heq, hk, Option.some.injEq] at hj
        rw [← hj, hall] at hm
        cases hm
      simp only [Bool.false_and, Bool.false_eq_true, if_false, modify_found]
      exact hmodify _ ⟨fun h => absurd h hne, fun h => absurd h.2 Bool.noConfusion⟩
  | false =>
    rw [hany] at hmodify
    rw [Bool.and_false, if_neg Bool.false_ne_true, findNode_unbound e.key e.path nodes 0 none hany,
      ite_self, modify_found]
    exact hmodify _ (hsearch.trans (and_iff_left rfl).symm)

/-- The callback is called once for each of the lookups that no binding takes, in order. -/
theorem LastCatchAll.deliverAll (h : LastCatchAll nodes k calls) (bs : List ParseNode)
    (hshape : nodes.map ParseNode.shape = bs.map ParseNode.shape) (es : List Lookup) :
    LastCatchAll (deliverAll (maxStaticDepth bs) nodes es) k (calls ++ callsOf bs es) := by
  induction es generalizing nodes calls with
  | nil =>
    rw [callsOf, List.filter_nil, List.map_nil, List.append_nil]
    exact h
  | cons e es ih =>
    rw [← List.singleton_append, deliverAll_append, deliverAll_singleton]
    have hany := any_bound_congr nodes bs e.path hshape
    have hlen := e.path_length
    by_cases hroom : e.trail.length < maxStaticDepth bs
    · have hnext := ih (h.deliver e) ((deliver_shape nodes e).trans hshape)
      have hcalls : callsOf bs ([e] ++ es) =
          (if e.key ≠ [] ∧ nodes.any (bound e.path) = false then [e.call] else []) ++ callsOf bs es := by
        have hdepth : e.path.length ≤ maxStaticDepth bs := by omega
        rw [callsOf, List.singleton_append, List.filter_cons, unmatched, hany]
        simp only [hdepth, decide_true, Bool.and_true, Bool.and_eq_true, decide_eq_true_eq,
          Bool.not_eq_true']
        split_ifs <;> rfl
      rw [if_pos hroom, hcalls, ← List.append_assoc]
      exact hnext
    · have hcalls : callsOf bs ([e] ++ es) = callsOf bs es := by
        have hdepth : ¬ e.path.length ≤ maxStaticDepth bs := by omega
        have hno : unmatched bs e = false := by
          rw [unmatched, decide_eq_false hdepth, Bool.and_false, Bool.false_and]
        rw [callsOf, List.singleton_append,
          List.filter_cons_of_neg (by rw [hno]; exact Bool.false_ne_true), callsOf]
      rw [if_neg hroom, hcalls]
      exact ih h hshape

theorem parse_calls (j : JsonText) (items : List (Slot × Doc)) (gap : Bytes)
    (hroot : j.root = .block true items gap) (h : LastCatchAll nodes k calls) :
    ∃ nodes', parse j.text nodes = some nodes' ∧
      LastCatchAll nodes' k (calls ++ items.flatMap (memberCalls nodes)) := by
  refine ⟨_, parse_eq j.text nodes, ?_⟩
  have hreset : LastCatchAll (nodes.map ParseNode.reset) k calls := by
    obtain ⟨⟨n, data, hk, hkind⟩, hlast⟩ := h
    refine ⟨⟨n.reset, data, by rw [List.getElem?_map, hk]; rfl, hkind⟩, fun i m hi hm => ?_⟩
    rw [List.getElem?_map] at hm
    obtain ⟨m', hm', rfl⟩ := Option.map_eq_some_iff.mp hm
    exact hlast i m' hi hm'
  have hshape : (nodes.map ParseNode.reset).map ParseNode.shape = nodes.map ParseNode.shape := by
    rw [List.map_map]
    rfl
  have hall := hreset.deliverAll nodes hshape (lookups [] [] j.text)
  have hcalls : callsOf nodes (lookups [] [] j.text) = items.flatMap (memberCalls nodes) := by
    rw [lookups_jsonText, hroot, docLookups, enterTrail, if_neg (by simp), itemLookups_root, callsOf,
      List.filter_cons_of_neg (by simp [unmatched]), List.filter_flatMap, List.map_flatMap]
    rfl
  rwa [hcalls] at hall

end deliver

section member

/-- The values in a root member that have a key are looked up below the key of the member. -/
def Below (m : Slot × Doc) : Prop :=
  ∀ e ∈ docLookups [] m.1.key m.2, e.key ≠ [] → ∃ p, e.path = m.1.key :: p

/-- So they are when no key is empty and no array holds an object. -/
theorem below_sealed (m : Slot × Doc) (hwf : m.2.WF) (hkey : m.1.key ≠ []) (hkeyed : m.2.Keyed)
    (h : m.2.Sealed) : Below m := by
  intro e he hne
  obtain ⟨k, p, hp, hk⟩ := path_sealed m.2 (Doc.WF.with _ hwf) hkeyed h [] m.1.key hkey e he
  rw [List.nil_append] at hp
  rcases hk with rfl | ⟨rfl, rfl⟩
  · exact ⟨p, hp⟩
  · have hlast := congrArg List.getLast? hp
    rw [Lookup.path, List.getLast?_concat] at hlast
    exact absurd (Option.some.inj hlast) hne

/-- The values in a root member that have a key, with their paths. -/
def namedCalls (m : Slot × Doc) : List UnknownCall :=
  ((docLookups [] m.1.key m.2).filter fun e => e.key ≠ []).map Lookup.call

/-- Bindings at other keys only cut what lies deeper than the deepest of them. -/
theorem memberCalls_eq (nodes : List ParseNode) (m : Slot × Doc) (hbelow : Below m)
    (hother : ∀ b ∈ nodes, b.isCatchAll = false → b.path.head? ≠ some m.1.key) :
    memberCalls nodes m = (namedCalls m).filter fun c => c.actualPath.length ≤ maxStaticDepth nodes := by
  rw [memberCalls, callsOf, namedCalls, List.filter_map, List.filter_filter]
  refine congrArg _ (List.filter_congr ?_)
  intro e he
  by_cases hkey : e.key = []
  · simp [unmatched, hkey]
  · obtain ⟨p, hp⟩ := hbelow e he hkey
    have hnone : nodes.any (bound e.path) = false := by
      rw [List.any_eq_false]
      intro b hb hbound
      have hall : b.isCatchAll = false := by
        rw [bound, Bool.and_eq_true, Bool.not_eq_true'] at hbound
        exact hbound.1
      obtain ⟨rest, hrest⟩ := (bound_iff e.path b hall).mp hbound
      rw [hp] at hrest
      exact hother b hb hall (by rw [← hrest]; rfl)
    simp [unmatched, hnone, Lookup.call, Bool.and_comm]

/-- Cut at two depths, the calls are the same exactly when none lies between the depths. -/
theorem filter_depth_eq_iff (calls : List UnknownCall) (n n' : Nat) :
    (calls.filter fun c => c.actualPath.length ≤ n) = (calls.filter fun c => c.actualPath.length ≤ n') ↔
      ∀ c ∈ calls, c.actualPath.length ≤ n ↔ c.actualPath.length ≤ n' := by
  constructor
  · intro h c hc
    have hmem := congrArg (fun l => c ∈ l) h
    simpa [hc] using hmem
  · intro h
    exact List.filter_congr fun c hc => by simp [h c hc]

end member

section routing
variable [FloatChars]

theorem parse_memberCalls {nodes : List ParseNode} {k : Nat} {calls : List UnknownCall} (j : JsonText)
    (before after : List (Slot × Doc)) (m : Slot × Doc) (gap : Bytes)
    (hroot : j.root = .block true (before ++ m :: after) gap) (h : LastCatchAll nodes k calls) :
    ∃ nodes', parse j.text nodes = some nodes' ∧
      LastCatchAll nodes' k (calls ++ before.flatMap (memberCalls nodes) ++ memberCalls nodes m ++
        after.flatMap (memberCalls nodes)) := by
  obtain ⟨nodes', hp, hcalls⟩ := parse_calls j _ gap hroot h
  rw [List.flatMap_append, List.flatMap_cons, ← List.append_assoc, ← List.append_assoc] at hcalls
  exact ⟨nodes', hp, hcalls⟩

/-- The calls that a root member causes depend on bindings at other keys through the depth of the
deepest one only. -/
theorem catchAll_routing (j : JsonText) (before after : List (Slot × Doc)) (m : Slot × Doc) (gap : Bytes)
    (hroot : j.root = .block true (before ++ m :: after) gap) (hbelow : Below m)
    (nodes nodes' : List ParseNode) (k k' : Nat) (calls calls' : List UnknownCall)
    (hk : LastCatchAll nodes k calls) (hk' : LastCatchAll nodes' k' calls')
    (hother : ∀ b ∈ nodes, b.isCatchAll = false → b.path.head? ≠ some m.1.key)
    (hother' : ∀ b ∈ nodes', b.isCatchAll = false → b.path.head? ≠ some m.1.key) :
    (∃ out, parse j.text nodes = some out ∧
      LastCatchAll out k (calls ++ before.flatMap (memberCalls nodes) ++ memberCalls nodes m ++
        after.flatMap (memberCalls nodes))) ∧
    (∃ out, parse j.text nodes' = some out ∧
      LastCatchAll out k' (calls' ++ before.flatMap (memberCalls nodes') ++ memberCalls nodes' m ++
        after.flatMap (memberCalls nodes'))) ∧
    (memberCalls nodes m = memberCalls nodes' m ↔ ∀ c ∈ namedCalls m,
      c.actualPath.length ≤ maxStaticDepth nodes ↔ c.actualPath.length ≤ maxStaticDepth nodes') := by
  refine ⟨parse_memberCalls j before after m gap hroot hk,
    parse_memberCalls j before after m gap hroot hk', ?_⟩
  rw [memberCalls_eq nodes m hbelow hother, memberCalls_eq nodes' m hbelow hother']
  exact filter_depth_eq_iff (namedCalls m) _ _

end routing

/-- A callback that was not called yet. -/
def callbackNode : ParseNode := ⟨[], false, false, .unknown ⟨[], false, [], false⟩ []⟩

/-- `{"u":{"v":1}}` -/
def nestedMember : Slot × Doc :=
  (.compact (bytes "u") false, .block true [(.compact (bytes "v") false, .scalar false (bytes "1"))] [])

theorem nestedMember_wf : nestedMember.2.WF := by
  have hone : IsPrimitive (bytes "1") := by simp [IsPrimitive, bytes, ch]
  exact ⟨⟨Slot.compact_wf _ _ (by decide), hone, fun h => absurd rfl h, trivial⟩, .nil⟩

def nestedMemberText : JsonText where
  before := []
  root := .block true [nestedMember] []
  after := []
  before_gap := .nil
  after_gap := .nil
  root_wf := ⟨⟨Slot.compact_wf _ _ (by decide), nestedMember_wf, fun h => absurd rfl h, trivial⟩, .nil⟩

theorem callbackNode_last (b : ParseNode) (hb : b.isCatchAll = false) :
    LastCatchAll [callbackNode, b] 0 [] := by
  refine ⟨⟨callbackNode, _, rfl, rfl⟩, ?_⟩
  intro j n hj hn
  obtain rfl : n = b := by
    match j with
    | 1 => exact (Option.some.inj hn).symm
    | j + 2 => cases hn
  exact hb

theorem catchAll_routing_nestedMember :
    memberCalls [callbackNode, intNode [bytes "a"]] nestedMember =
      memberCalls [callbackNode, intNode [bytes "b"]] nestedMember := by
  let _ := keepFloats
  have hbelow : Below nestedMember := by
    apply below_sealed nestedMember nestedMember_wf (by decide)
    · simp [Doc.Keyed, nestedMember, Doc.All, Doc.AllItems, bytes]
    · simp [Doc.Sealed, nestedMember, Doc.All, Doc.AllItems]
  exact (catchAll_routing nestedMemberText [] [] nestedMember [] rfl hbelow _ _ 0 0 [] []
    (callbackNode_last (intNode [bytes "a"]) rfl) (callbackNode_last (intNode [bytes "b"]) rfl)
    (by decide) (by decide)).2.2.mpr fun _ _ => Iff.rfl

/-- A deeper binding at another key lets the callback see the values inside the member. -/
theorem parse_deeperBinding_calls :
    (@parse keepFloats (bytes "\x7b\"u\":\x7b\"v\":1\x7d\x7d")
        [callbackNode, intNode [bytes "a"]]).map (List.map ParseNode.calls) =
      some [[⟨[bytes "u"], bytes "\x7b\"v\":1\x7d", false, false⟩], []] ∧
    (@parse keepFloats (bytes "\x7b\"u\":\x7b\"v\":1\x7d\x7d")
        [callbackNode, intNode [bytes "a", bytes "b"]]).map (List.map ParseNode.calls) =
      some [[⟨[bytes "u"], bytes "\x7b\"v\":1\x7d", false, false⟩,
        ⟨[bytes "u", bytes "v"], bytes "1", false, false⟩], []] := by
  decide

end Espbase.StackJson
