import Espbase.StackJson.Capture
import Espbase.StackJson.ScalarLookup

namespace Espbase.StackJson

open Espbase.Lib

section bare

/-- A lookup of a document beside the one of the document without its comments. -/
structure Bares (e e' : Lookup) : Prop where
  trail : e.trail = e'.trail
  key : e.key = e'.key
  structural : e.structural = e'.structural
  isString : e.isString = e'.isString
  scalar : e'.structural = false → e.raw = e'.raw
  block : e'.structural = true → (∃ curly s s', e.raw = opening curly :: s ∧ e'.raw = opening curly :: s') ∧
    ∀ rest, blockOf 0 false (e'.raw ++ rest) = e'.raw

mutual
theorem docPops_bare (key : Bytes) : (d : Doc) → docPops key d.bare = docPops key d
  | .scalar _ _ => rfl
  | .block curly items _ => by rw [Doc.bare, docPops, docPops, itemPops_bare items]

theorem itemPops_bare : (items : List (Slot × Doc)) → itemPops (Doc.bareItems items) = itemPops items
  | [] => rfl
  | (s, d) :: items => by
    rw [Doc.bareItems, itemPops, itemPops, Slot.bare_key, docPops_bare s.key d, itemPops_bare items]
end

mutual
/-- Comments change nothing in the lookups of a document but the texts of blocks. -/
theorem docLookups_bare (d : Doc) (hd : d.bare.WF) (trail : List Bytes) (key : Bytes) :
    List.Forall₂ Bares (docLookups trail key d) (docLookups trail key d.bare) := by
  cases d with
  | scalar isString raw => exact .cons ⟨rfl, rfl, rfl, rfl, fun _ => rfl, nofun⟩ .nil
  | block curly items gap =>
    rw [Doc.bare] at hd ⊢
    rw [docLookups, docLookups]
    refine .cons ⟨rfl, rfl, rfl, rfl, nofun, fun _ => ⟨⟨curly, _, _, by rw [Doc.text], by rw [Doc.text]⟩,
      fun rest => blockOf_block curly _ _ rest hd⟩⟩ ?_
    exact itemLookups_bare items curly hd.1 _

theorem itemLookups_bare (items : List (Slot × Doc)) (curly : Bool)
    (hi : Doc.ItemsWF curly (Doc.bareItems items)) (trail : List Bytes) :
    List.Forall₂ Bares (itemLookups trail items) (itemLookups trail (Doc.bareItems items)) := by
  match items with
  | [] => exact .nil
  | (s, d) :: items =>
    rw [Doc.bareItems] at hi ⊢
    rw [itemLookups, itemLookups, Slot.bare_key, docPops_bare]
    exact List.rel_append (docLookups_bare d hi.2.1 trail s.key) (itemLookups_bare items curly hi.2.2.2 _)
end

/-- A lookup of a text with comments beside the one of the document without them. Blocks are equal when
there is no comment in them. -/
structure Mirrors (e e' : Lookup) : Prop where
  path : e.path = e'.path
  structural : e.structural = e'.structural
  isString : e.isString = e'.isString
  isNull : e.isNull = e'.isNull
  scalar : e'.structural = false → e.raw = e'.raw
  block : e'.structural = true →
    ∃ curly, e.raw.head? = some (opening curly) ∧ e'.raw.head? = some (opening curly)

theorem blockOf_head (curly : Bool) (s : Bytes) :
    (blockOf 0 false (opening curly :: s)).head? = some (opening curly) := by
  rw [blockOf_opening]
  rfl

theorem Mirrors.of_reads {ends : Bytes → Prop} {e d e' : Lookup} (hr : Reads ends e d) (hb : Bares d e') :
    Mirrors e e' := by
  have hscalar (h : e'.structural = false) : e.raw = e'.raw :=
    (hr.scalar (hb.structural.trans h)).trans (hb.scalar h)
  have hstruct := hr.structural.trans hb.structural
  have hstr := hr.isString.trans hb.isString
  refine ⟨?_, hstruct, hstr, ?_, hscalar, ?_⟩
  · rw [Lookup.path, Lookup.path, hr.trail, hr.key, hb.trail, hb.key]
  · unfold Lookup.isNull
    rw [hstruct, hstr]
    cases h : e'.structural with
    | true => rfl
    | false => rw [hscalar h]
  · intro h
    obtain ⟨⟨curly, s, s', hs, hs'⟩, -⟩ := hb.block h
    obtain ⟨rest, -, hraw⟩ := hr.block (hb.structural.trans h)
    refine ⟨curly, ?_, by rw [hs']; rfl⟩
    rw [hraw, hs, List.cons_append, blockOf_head]

theorem mirrors_of_reads {ends : Bytes → Prop} {es ds es' : List Lookup}
    (hr : List.Forall₂ (Reads ends) es ds) (hb : List.Forall₂ Bares ds es') :
    List.Forall₂ Mirrors es es' := by
  induction hr generalizing es' with
  | nil => rw [List.forall₂_nil_left_iff.mp hb]; exact .nil
  | cons he _ ih =>
    cases hb with
    | cons hd hb => exact .cons (.of_reads he hd) (ih hb)

/-- When the document has the same text with and without comments, so has the lookup. -/
theorem raw_eq_of_bare {ends : Bytes → Prop} {e d e' : Lookup} (hr : Reads ends e d) (hb : Bares d e')
    (h : d.raw = e'.raw) : e.raw = e'.raw := by
  cases hs : e'.structural with
  | false => exact (hr.scalar (hb.structural.trans hs)).trans h
  | true =>
    obtain ⟨rest, -, hraw⟩ := hr.block (hb.structural.trans hs)
    rw [hraw, h]
    exact (hb.block hs).2 rest

end bare

section results

theorem getLast?_forall₂ {α β : Type} {r : α → β → Prop} {l : List α} {l' : List β}
    (h : List.Forall₂ r l l') :
    (l = [] ∧ l' = []) ∨ ∃ a b, l.getLast? = some a ∧ l'.getLast? = some b ∧ r a b := by
  induction h with
  | nil => exact .inl ⟨rfl, rfl⟩
  | @cons a b l l' hab _ ih =>
    refine .inr ?_
    rcases ih with ⟨rfl, rfl⟩ | ⟨a', b', hl, hl', hr⟩
    · exact ⟨a, b, rfl, rfl, hab⟩
    · exact ⟨a', b', by rw [List.getLast?_cons, hl]; rfl, by rw [List.getLast?_cons, hl']; rfl, hr⟩

/-- The text of a block is neither true nor 1. -/
theorem coerceBool_block (raw : Bytes) (curly : Bool) (h : raw.head? = some (opening curly)) :
    coerceBool raw false = false := by
  obtain ⟨s, rfl⟩ : ∃ s, raw = opening curly :: s := by
    cases raw with
    | nil => cases h
    | cons c s => exact ⟨s, by rw [Option.some.inj h]⟩
  have hne (w : Bytes) (hw : w.head? ≠ some (opening curly)) : (opening curly :: s == w) = false :=
    beq_eq_false_iff_ne.mpr fun he => hw (by rw [← he]; rfl)
  rw [coerceBool, if_neg Bool.false_ne_true, hne _ (by cases curly <;> decide),
    hne _ (by cases curly <;> decide)]
  rfl

theorem takes_filter {r : Lookup → Lookup → Prop} (hr : ∀ e e', r e e' → e.path = e'.path ∧
    e.structural = e'.structural) (before : List ParseNode) (b : ParseNode) {es es' : List Lookup}
    (h : List.Forall₂ r es es') :
    List.Forall₂ r (es.filter (takes before b)) (es'.filter (takes before b)) := by
  refine List.rel_filter ?_ h
  intro e e' he
  obtain ⟨hpath, hstruct⟩ := hr e e' he
  show takes before b e = true ↔ takes before b e' = true
  rw [takes, takes, hpath, hstruct]

variable [FloatChars]

/-- A binding of a `bool` or an integer gets the same from either lookup. -/
theorem Mirrors.assigned {e e' : Lookup} (h : Mirrors e e') (n : ParseNode) (target : Target)
    (hn : n.kind = .bind target) (ht : target.IsScalar) (hstr : ∀ s, target ≠ .string s) :
    n.assigned e = n.assigned e' := by
  obtain ⟨t, hc⟩ := coerceValue_total e.raw e.isNull target
  have hsame : coerceValue e'.raw e'.isNull target = some t := by
    rw [← hc, ← h.isNull]
    cases hs : e'.structural with
    | false => rw [h.scalar hs]
    | true =>
      obtain ⟨curly, hhead, hhead'⟩ := h.block hs
      have hnull : e.isNull = false := by rw [h.isNull, Lookup.isNull, hs]; rfl
      rw [hnull]
      cases target with
      | bool value => simp only [coerceValue, coerceBool_block _ curly hhead, coerceBool_block _ curly hhead']
      | int value =>
        simp only [coerceValue, coerceInt, Bool.false_eq_true, if_false, fromChars_block _ _ curly hhead,
          fromChars_block _ _ curly hhead']
      | string value => exact absurd rfl (hstr value)
      | _ => exact ht.elim
  rw [assigned_bind e n target t hn hc, assigned_bind e' n target t hn hsame, h.isNull]

theorem coerceValue_noString {raw : Bytes} {isNull : Bool} {target t : Target}
    (hc : coerceValue raw isNull target = some t) (ht : target.IsScalar) (hstr : ∀ s, target ≠ .string s) :
    t.IsScalar ∧ ∀ s, t ≠ .string s := by
  cases target with
  | bool value => exact Option.some.inj hc ▸ ⟨trivial, nofun⟩
  | int value => exact Option.some.inj hc ▸ ⟨trivial, nofun⟩
  | string value => exact absurd rfl (hstr value)
  | _ => exact ht.elim

theorem foldl_mirrors {es es' : List Lookup} (h : List.Forall₂ Mirrors es es') (n : ParseNode) (target : Target)
    (hn : n.kind = .bind target) (ht : target.IsScalar) (hstr : ∀ s, target ≠ .string s) :
    es.foldl (fun n e => n.assigned e) n = es'.foldl (fun n e => n.assigned e) n := by
  induction h generalizing n target with
  | nil => rfl
  | @cons e e' _ _ he _ ih =>
    obtain ⟨t, hc⟩ := coerceValue_total e'.raw e'.isNull target
    obtain ⟨ht', hstr'⟩ := coerceValue_noString hc ht hstr
    rw [List.foldl_cons, List.foldl_cons, he.assigned n target hn ht hstr]
    exact ih (n.assigned e') t (by rw [assigned_bind e' n target t hn hc]) ht' hstr'

/-- What a string target holds after a lookup. -/
def stringValue (raw : Bytes) (isNull : Bool) : Bytes :=
  if isNull then [] else (decodeJsonString raw raw.length).getD []

theorem assigned_string (e : Lookup) (n : ParseNode) (value : Bytes) (hn : n.kind = .bind (.string value)) :
    n.assigned e = ⟨n.path, true, e.isNull, .bind (.string (stringValue e.raw e.isNull))⟩ := by
  apply assigned_bind e n (.string value) _ hn
  obtain ⟨out, hout, -⟩ := decodeJsonString_total e.raw e.raw.length
  cases hnull : e.isNull <;> simp [coerceValue, stringValue, hout]

/-- What is assigned does not depend on what was assigned before. -/
def NodeKind.Overwritten : NodeKind → Prop
  | .bind (.view _) => True
  | .bind (.string _) => True
  | .dynamic _ => True
  | _ => False

theorem assigned_overwrites (e e' : Lookup) (n : ParseNode) (h : n.kind.Overwritten) :
    (n.assigned e).kind.Overwritten ∧ (n.assigned e).assigned e' = n.assigned e' := by
  cases hn : n.kind with
  | bind target =>
    rw [hn] at h
    cases target with
    | view value =>
      rw [assigned_bind e n _ _ hn rfl, assigned_bind e' n _ _ hn rfl]
      exact ⟨trivial, assigned_bind e' _ _ _ rfl rfl⟩
    | string value =>
      rw [assigned_string e n value hn, assigned_string e' n value hn]
      exact ⟨trivial, assigned_string e' _ _ rfl⟩
    | _ => exact h.elim
  | dynamic data =>
    rw [assigned_dynamic e n data hn, assigned_dynamic e' n data hn]
    exact ⟨trivial, assigned_dynamic e' _ _ rfl⟩
  | unknown data calls =>
    rw [hn] at h
    exact h.elim

/-- Only the last lookup counts. -/
theorem foldl_overwrites (es : List Lookup) (n : ParseNode) (h : n.kind.Overwritten) :
    es.foldl (fun n e => n.assigned e) n = match es.getLast? with
      | none => n
      | some e => n.assigned e := by
  induction es generalizing n with
  | nil => rfl
  | cons e es ih =>
    rw [List.foldl_cons, ih _ (assigned_overwrites e e n h).1, List.getLast?_cons]
    cases es.getLast? with
    | none => rfl
    | some e' => exact (assigned_overwrites e e' n h).2

/-- A string binding ends with its last lookup. -/
theorem foldl_string (es : List Lookup) (n : ParseNode) (value : Bytes) (hn : n.kind = .bind (.string value)) :
    es.foldl (fun n e => n.assigned e) n =
      match es.getLast? with
      | none => n
      | some e => ⟨n.path, true, e.isNull, .bind (.string (stringValue e.raw e.isNull))⟩ := by
  rw [foldl_overwrites es n (by rw [hn]; trivial)]
  cases es.getLast? with
  | none => rfl
  | some e => exact assigned_string e n value hn

theorem deliverAll_length (size : Nat) (nodes : List ParseNode) (es : List Lookup) :
    (deliverAll size nodes es).length = nodes.length := by
  unfold deliverAll
  generalize es.filter (fun e => e.trail.length < size) = fs
  induction fs generalizing nodes with
  | nil => rfl
  | cons e fs ih =>
    have hshape := congrArg List.length (deliver_shape nodes e)
    rw [List.length_map, List.length_map] at hshape
    rw [List.foldl_cons, ih, hshape]

/-- Two texts are parsed to the same nodes when every node gets the same from their lookups. -/
theorem parse_congr_iff (json json' : Bytes) (bs : List ParseNode) (hb : ∀ b ∈ bs, b.isCatchAll = false) :
    parse json bs = parse json' bs ↔ ∀ k b, bs[k]? = some b →
      outcome (bs.take k) b.reset (lookups [] [] json) = outcome (bs.take k) b.reset (lookups [] [] json') := by
  have hget (text : Bytes) : ∃ nodes, parse text bs = some nodes ∧ nodes.length = bs.length ∧
      ∀ k b, bs[k]? = some b → nodes[k]? = some (outcome (bs.take k) b.reset (lookups [] [] text)) := by
    refine ⟨_, parse_eq text bs, by rw [deliverAll_length, List.length_map], ?_⟩
    intro k b hk
    obtain ⟨nodes, hp, hn⟩ := parse_binding text bs k b hk (hb b (List.mem_of_getElem? hk))
    rw [parse_eq] at hp
    rw [Option.some.inj hp, hn]
  obtain ⟨nodes, hp, hlen, hn⟩ := hget json
  obtain ⟨nodes', hp', hlen', hn'⟩ := hget json'
  rw [hp, hp', Option.some.injEq, List.ext_getElem?_iff]
  constructor
  · intro h k b hk
    have := h k
    rw [hn k b hk, hn' k b hk] at this
    exact Option.some.inj this
  · intro h k
    cases hk : bs[k]? with
    | some b => rw [hn k b hk, hn' k b hk, h k b hk]
    | none =>
      have hge := List.getElem?_eq_none_iff.mp hk
      rw [List.getElem?_eq_none_iff.mpr (by omega), List.getElem?_eq_none_iff.mpr (by omega)]

/-- The text of the last value that a binding takes. -/
def lastText (root : Doc) (before : List ParseNode) (b : ParseNode) : Option Bytes :=
  ((docLookups [] [] root).filter (takes before b)).getLast?.map Lookup.raw

/-- No string binding ends with an object or array that has a comment in it: its last value is the same
text without the comments. -/
def Settled (j : CommentText) (bs : List ParseNode) : Prop :=
  ∀ k b value, bs[k]? = some b → b.kind = .bind (.string value) →
    lastText j.root (bs.take k) b = lastText j.root.bare (bs.take k) b

/-- A binding gets the same from a text with comments and from the text without them. -/
theorem outcome_comments (j : CommentText) (hspaced : j.Spaced) (before : List ParseNode) (b : ParseNode)
    (target : Target) (hb : b.kind = .bind target) (ht : target.IsScalar)
    (hsettled : ∀ value, target = .string value → lastText j.root before b = lastText j.root.bare before b) :
    outcome before b.reset (lookups [] [] j.text) = outcome before b.reset (lookups [] [] j.bare.text) := by
  have hreads := docReads_reads (fun _ => True) (fun _ _ _ => trivial) j.root [] [] j.tail trivial
  have hbares := docLookups_bare j.root j.bare.root_wf [] []
  have htakes (e : Lookup) : takes before b.reset e = takes before b e := takes_congr _ _ _ _ _ rfl rfl
  rw [lookups_commentText j hspaced, lookups_jsonText]
  show outcome before b.reset (docReads [] [] j.root j.tail) =
    outcome before b.reset (docLookups [] [] j.root.bare)
  rw [outcome, outcome, List.filter_congr fun e _ => htakes e, List.filter_congr fun e _ => htakes e]
  have hr := takes_filter (fun _ _ h => ⟨h.path, h.structural⟩) before b hreads
  have hd := takes_filter (fun e e' h => ⟨by rw [Lookup.path, Lookup.path, h.trail, h.key], h.structural⟩)
    before b hbares
  have hkind : b.reset.kind = .bind target := hb
  generalize (docReads [] [] j.root j.tail).filter (takes before b) = reads at hr ⊢
  by_cases hstr : ∃ value, target = .string value
  · obtain ⟨value, rfl⟩ := hstr
    have hlast := hsettled value rfl
    unfold lastText at hlast
    rw [foldl_string _ _ value hkind, foldl_string _ _ value hkind]
    generalize (docLookups [] [] j.root).filter (takes before b) = docs at hr hd hlast
    generalize (docLookups [] [] j.root.bare).filter (takes before b) = bares at hd hlast ⊢
    rcases getLast?_forall₂ hr with ⟨rfl, rfl⟩ | ⟨e, d, he, hd1, hed⟩
    · rw [List.forall₂_nil_left_iff.mp hd]
    · rcases getLast?_forall₂ hd with ⟨rfl, -⟩ | ⟨d', e', hd2, he', hde⟩
      · cases hd1
      · obtain rfl : d = d' := Option.some.inj (hd1.symm.trans hd2)
        rw [hd1, he', Option.map_some, Option.map_some, Option.some.injEq] at hlast
        rw [he, he']
        simp only [(Mirrors.of_reads hed hde).isNull, raw_eq_of_bare hed hde hlast]
  · exact foldl_mirrors (mirrors_of_reads hr hd) _ target hkind ht fun value h => hstr ⟨value, h⟩

/-- Comments are whitespace where none stands directly behind a primitive and no string binding ends with
a block that has a comment in it. -/
theorem parse_comments (j : CommentText) (hspaced : j.Spaced) (bs : List ParseNode)
    (hbs : ∀ b ∈ bs, ∃ target, b.kind = .bind target ∧ target.IsScalar) (hsettled : Settled j bs) :
    parse j.text bs = parse j.bare.text bs := by
  have hall : ∀ b ∈ bs, b.isCatchAll = false := by
    intro b hb
    obtain ⟨target, hkind, -⟩ := hbs b hb
    rw [ParseNode.isCatchAll, hkind]
  rw [parse_congr_iff j.text j.bare.text bs hall]
  intro k b hk
  obtain ⟨target, hkind, ht⟩ := hbs b (List.mem_of_getElem? hk)
  exact outcome_comments j hspaced (bs.take k) b target hkind ht fun value hv =>
    hsettled k b value hk (by rw [hkind, hv])

end results

/-- `{"name": /*!*/ "x","on":true…}` -/
def switchText (gap : Bytes) (h : IsCommentGap gap) : CommentText where
  before := []
  root := .block true
    [(⟨[], some ⟨bytes "name", [], bracketComment (bytes "!")⟩, [], true⟩, .scalar true (bytes "x")),
      (⟨[], some ⟨bytes "on", [], []⟩, gap, false⟩, .scalar false (bytes "true"))] []
  after := []
  lastLine := none
  before_gap := .nil
  after_gap := .nil
  root_wf := by
    have hname : (⟨[], some ⟨bytes "name", [], bracketComment (bytes "!")⟩, [], true⟩ : Slot).WFWith
        IsCommentGap true :=
      ⟨.nil, .nil, rfl, fun l hl => Option.some.inj hl ▸
        ⟨by decide, .nil, bracketComment_gap _ (by decide)⟩⟩
    have hon : (⟨[], some ⟨bytes "on", [], []⟩, gap, false⟩ : Slot).WFWith IsCommentGap true :=
      ⟨.nil, h, rfl, fun l hl => Option.some.inj hl ▸ ⟨by decide, .nil, .nil⟩⟩
    have htrue : IsPrimitive (bytes "true") := by simp [IsPrimitive, bytes, ch]
    exact ⟨⟨hname, show IsStringBody _ by decide, fun _ => rfl, hon, htrue, fun h => absurd rfl h, trivial⟩,
      .nil⟩
  lastLine_body := CommentText.no_lastLine

def switchBindings : List ParseNode :=
  [⟨[bytes "on"], false, false, .bind (.bool false)⟩, ⟨[bytes "name"], false, false, .bind (.string [])⟩]

theorem switchBindings_scalar : ∀ b ∈ switchBindings, ∃ target, b.kind = .bind target ∧ target.IsScalar := by
  intro b hb
  simp only [switchBindings, List.mem_cons, List.not_mem_nil, or_false] at hb
  rcases hb with rfl | rfl <;> exact ⟨_, rfl, trivial⟩

theorem parse_comments_switchText :
    @parse keepFloats (switchText (bracketComment (bytes "\",")) (bracketComment_gap _ (by decide))).text
        switchBindings =
      @parse keepFloats
        (switchText (bracketComment (bytes "\",")) (bracketComment_gap _ (by decide))).bare.text
        switchBindings := by
  let _ := keepFloats
  apply parse_comments _ ?_ switchBindings switchBindings_scalar ?_
  · refine ⟨fun h => (by cases h), ?_⟩
    simp [switchText, Doc.Spaced, Doc.ItemsSpaced, Doc.isPrimitive, Slot.trail, bracketComment]
    decide
  · intro k b value hk hb
    cases k with
    | zero =>
      obtain rfl := Option.some.inj hk
      cases hb
    | succ k =>
      cases k with
      | zero =>
        obtain rfl := Option.some.inj hk
        decide
      | succ k => cases hk

/-- Directly behind a value a comment becomes part of it. -/
theorem parse_comment_behind_true :
    (@parse keepFloats (switchText (bytes "/**/") (@IsCommentGap.block [] [] (by decide) .nil)).text switchBindings).map
        (List.map ParseNode.kind) = some [.bind (.bool false), .bind (.string (bytes "x"))] ∧
      (@parse keepFloats (switchText (bytes "/**/") (@IsCommentGap.block [] [] (by decide) .nil)).bare.text
        switchBindings).map (List.map ParseNode.kind) = some [.bind (.bool true), .bind (.string (bytes "x"))] :=
  ⟨rfl, rfl⟩

end Espbase.StackJson
