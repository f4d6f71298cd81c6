import Mathlib.Data.List.Infix
import Espbase.Lib.BracketScan
import Espbase.StackJson.Members

namespace Espbase.StackJson

open Espbase.Lib

section block

/-- Inside a block, the search for its end counts brackets. -/
theorem blockOf_eq_frame (n : Int) (inStr : Bool) (s : Bytes) (hn : 1 ≤ n) :
    blockOf n inStr s = (if inStr then Quote.inside else Quote.outside).frame n s := by
  have hkeep (m : Int) (hm : 1 ≤ m) : ¬ m + 0 = 0 := by omega
  fun_induction blockOf n inStr s with
  | case1 => cases ‹Bool› <;> rfl
  | case2 n c =>
    rw [if_pos rfl, Quote.frame, Quote.bracket, if_neg (hkeep n hn), Quote.frame]
  | case3 n d s ih =>
    rw [if_pos rfl, Quote.frame, Quote.bracket, if_neg (hkeep n hn), Quote.next, if_pos rfl, Quote.frame,
      Quote.bracket, Int.add_zero, if_neg (hkeep n hn), Int.add_zero, Quote.next, ih hn, if_pos rfl]
  | case4 n c d s hc ih =>
    rw [if_pos rfl, Quote.frame, Quote.bracket, if_neg (hkeep n hn), Quote.next, if_neg hc, Int.add_zero,
      ih hn]
    by_cases hquote : c = ch '"' <;> simp [hquote]
  | case5 n s ih =>
    rw [if_neg Bool.false_ne_true, Quote.frame, show Quote.outside.bracket (ch '"') = 0 by decide,
      if_neg (hkeep n hn), Int.add_zero, ih hn]
    rfl
  | case6 n c s hquote hopen ih =>
    rw [if_neg Bool.false_ne_true, Quote.frame, Quote.bracket, if_pos hopen, if_neg (by omega), Quote.next,
      if_neg hquote, ih (by omega)]
    rfl
  | case7 n c s hquote hopen hclose hz =>
    rw [if_neg Bool.false_ne_true, Quote.frame, Quote.bracket, if_neg hopen, if_pos hclose, if_pos (by omega)]
  | case8 n c s hquote hopen hclose hz ih =>
    rw [if_neg Bool.false_ne_true, Quote.frame, Quote.bracket, if_neg hopen, if_pos hclose, if_neg (by omega),
      Quote.next, if_neg hquote, ih (by omega)]
    rfl
  | case9 n c s hquote hopen hclose ih =>
    rw [if_neg Bool.false_ne_true, Quote.frame, Quote.bracket, if_neg hopen, if_neg hclose,
      if_neg (hkeep n hn), Quote.next, if_neg hquote, Int.add_zero, ih hn]
    rfl

/-- The block that is taken from a text is the value there exactly when the brackets of the value first
balance at its end. -/
theorem blockOf_eq_iff (curly : Bool) (items : List (Slot × Doc)) (gap rest : Bytes) (hrest : rest ≠ []) :
    blockOf 0 false ((Doc.block curly items gap).text ++ rest) = (Doc.block curly items gap).text ↔
      Framed (Doc.block curly items gap).text := by
  obtain ⟨body, hbody⟩ : ∃ body, (Doc.block curly items gap).text = opening curly :: body :=
    ⟨_, by rw [Doc.text]⟩
  have hone : Quote.outside.bracket (opening curly) = 1 := by cases curly <;> rfl
  have hnext : Quote.outside.next (opening curly) = .outside := by cases curly <;> rfl
  have hframe : blockOf 0 false (opening curly :: (body ++ rest)) =
      Quote.outside.frame 0 (opening curly :: (body ++ rest)) := by
    rw [blockOf_opening, blockOf_eq_frame (0 + 1) _ _ (by omega), Quote.frame, hone,
      if_neg (show ¬ (0 : Int) + 1 = 0 by decide), hnext]
    rfl
  rw [hbody, List.cons_append, hframe, ← List.cons_append]
  exact Quote.frame_append_iff .outside 0 (opening curly :: body) rest (List.cons_ne_nil _ _) hrest

end block

section reads
variable {ends : Bytes → Prop}

/-- A lookup that the parser makes in a text beside the one of the document; `ends` holds of what follows
a block in the text. -/
structure Reads (ends : Bytes → Prop) (e e' : Lookup) : Prop where
  trail : e.trail = e'.trail
  key : e.key = e'.key
  structural : e.structural = e'.structural
  isString : e.isString = e'.isString
  scalar : e'.structural = false → e.raw = e'.raw
  block : e'.structural = true → ∃ rest, ends rest ∧ e.raw = blockOf 0 false (e'.raw ++ rest)

theorem Reads.path {e e' : Lookup} (h : Reads ends e e') : e.path = e'.path := by
  rw [Lookup.path, Lookup.path, h.trail, h.key]

mutual
theorem docReads_reads (ends : Bytes → Prop) (hends : ∀ s t, ends t → ends (s ++ t)) (d : Doc)
    (trail : List Bytes) (key rest : Bytes) (hrest : ends rest) :
    List.Forall₂ (Reads ends) (docReads trail key d rest) (docLookups trail key d) := by
  cases d with
  | scalar isString raw => exact .cons ⟨rfl, rfl, rfl, rfl, fun _ => rfl, nofun⟩ .nil
  | block curly items gap =>
    rw [docReads, docLookups]
    refine .cons ⟨rfl, rfl, rfl, rfl, nofun, fun _ => ⟨rest, hrest, rfl⟩⟩ ?_
    exact itemReads_reads ends hends items _ _ (hends gap _ (hends [closing curly] rest hrest))

theorem itemReads_reads (ends : Bytes → Prop) (hends : ∀ s t, ends t → ends (s ++ t))
    (items : List (Slot × Doc)) (trail : List Bytes) (rest : Bytes) (hrest : ends rest) :
    List.Forall₂ (Reads ends) (itemReads trail items rest) (itemLookups trail items) := by
  match items with
  | [] => exact .nil
  | (s, d) :: items =>
    rw [itemReads, itemLookups]
    exact List.rel_append
      (docReads_reads ends hends d trail s.key _ (hends s.trail _ (hends (Doc.itemsText items) rest hrest)))
      (itemReads_reads ends hends items _ rest hrest)
end

theorem forall₂_last {α β : Type} {r : α → β → Prop} {l : List α} {init : List β} {b : β}
    (h : List.Forall₂ r l (init ++ [b])) : ∃ init' a, l = init' ++ [a] ∧ r a b := by
  obtain ⟨a, l', ha, hnil, hl⟩ := List.forall₂_cons_right_iff.mp (List.forall₂_drop_append l init [b] h)
  rw [List.forall₂_nil_right_iff.mp hnil] at hl
  exact ⟨l.take init.length, a, by rw [← hl, List.take_append_drop], ha⟩

theorem reads_filter (q : PathBase) {l l' : List Lookup} (h : List.Forall₂ (Reads ends) l l') :
    List.Forall₂ (Reads ends) (l.filter (onPath q)) (l'.filter (onPath q)) :=
  List.rel_filter (fun a b h => show onPath q a = true ↔ onPath q b = true by rw [onPath, onPath, h.path]) h

theorem memberAt_length {items : List (Slot × Doc)} {q : List Bytes} {d : Doc}
    (h : Doc.MemberAt items q d) : d.text.length ≤ (Doc.itemsText items).length := by
  have hmem {items : List (Slot × Doc)} {s : Slot} {d : Doc} (h : (s, d) ∈ items) :
      d.text.length ≤ (Doc.itemsText items).length := by
    induction items with
    | nil => cases h
    | cons m items ih =>
      obtain ⟨s', d'⟩ := m
      simp only [Doc.itemsText, List.length_append]
      rcases List.mem_cons.mp h with heq | h
      · rw [Prod.mk.injEq] at heq
        rw [heq.2]
        omega
      · have := ih h
        omega
  induction h with
  | here h => exact hmem h
  | inside h _ ih =>
    have := hmem h
    simp only [Doc.text, List.length_cons, List.length_append] at this
    omega

end reads

section capture

/-- Of all values on the path, the parser looks up the block at its end last. -/
def FoundLast (root : Doc) (q : PathBase) (d : Doc) : Prop :=
  ∃ init e, (docLookups [] [] root).filter (onPath q) = init ++ [e] ∧ e.structural = true ∧
    e.isString = false ∧ e.path = q ∧ e.raw = d.text

theorem filter_cons_last {α : Type} {p : α → Bool} {a b : α} {l init : List α}
    (h : (a :: l).filter p = init ++ [b]) (hne : b ≠ a) : ∃ init', l.filter p = init' ++ [b] := by
  cases hp : p a with
  | false =>
    rw [List.filter_cons_of_neg (by simp [hp])] at h
    exact ⟨init, h⟩
  | true =>
    rw [List.filter_cons_of_pos hp] at h
    cases init with
    | nil => exact absurd (List.cons.inj h).1.symm hne
    | cons c init => exact ⟨init, (List.cons.inj h).2⟩

/-- The same in the text: the block is taken from there. -/
theorem FoundLast.lookups {j : CommentText} (hspaced : j.Spaced) {q : PathBase} {d : Doc}
    (hm : j.root.HasMember q d) (hfound : FoundLast j.root q d) :
    ∃ init e rest, (lookups [] [] j.text).filter (onPath q) = init ++ [e] ∧ e.structural = true ∧
      e.isString = false ∧ e.path = q ∧ rest ≠ [] ∧ e.raw = blockOf 0 false (d.text ++ rest) := by
  obtain ⟨init, e, hfilter, hstruct, hstr, hpath, hraw⟩ := hfound
  obtain ⟨ms, mgap, hroot⟩ := hm.eq_object
  rw [lookups_commentText j hspaced]
  rw [hroot] at hm hfilter ⊢
  rw [docLookups] at hfilter
  rw [docReads]
  -- the member is not the whole document
  have hne : e ≠ ⟨[], [], true, (Doc.block true ms mgap).text, false⟩ := by
    rintro rfl
    have := memberAt_length hm
    rw [← hraw] at this
    simp only [Doc.text, List.length_cons, List.length_append] at this
    omega
  obtain ⟨init, hinit⟩ := filter_cons_last hfilter hne
  have hreads := reads_filter q (itemReads_reads (· ≠ [])
    (fun s t ht => List.append_ne_nil_of_right_ne_nil s ht) ms (enterTrail [] [] true)
    (mgap ++ closing true :: j.tail) (by simp))
  rw [hinit] at hreads
  obtain ⟨init', e', hsplit, hread⟩ := forall₂_last hreads
  obtain ⟨rest, hrest, hblock⟩ := hread.block hstruct
  rw [hraw] at hblock
  refine ⟨List.filter (onPath q) [⟨[], [], true,
      blockOf 0 false ((Doc.block true ms mgap).text ++ j.tail), false⟩] ++ init', e', rest, ?_,
    hread.structural.trans hstruct, hread.isString.trans hstr, hread.path.trans hpath, hrest, hblock⟩
  rw [List.append_assoc, ← hsplit, ← List.filter_append, List.singleton_append]

variable [FloatChars]

theorem assigned_dynamic (e : Lookup) (n : ParseNode) (data : DynamicNodeBase) (hn : n.kind = .dynamic data) :
    n.assigned e = { n with
      isSet := true, isNull := e.isNull, kind := .dynamic ⟨e.raw, e.isString, e.raw, false⟩ } := by
  have h := ParseNode.assign_eq e n
  rw [ParseNode.assign, hn] at h
  exact (Option.some.inj h).symm

theorem foldl_dynamic (es : List Lookup) (n : ParseNode) (data : DynamicNodeBase)
    (hn : n.kind = .dynamic data) :
    ∃ data', (es.foldl (fun n e => n.assigned e) n).kind = .dynamic data' ∧
      (es.foldl (fun n e => n.assigned e) n).path = n.path := by
  induction es generalizing n data with
  | nil => exact ⟨data, hn, rfl⟩
  | cons e es ih =>
    rw [List.foldl_cons]
    have ha := assigned_dynamic e n data hn
    obtain ⟨data', hk, hp⟩ := ih (n.assigned e) _ (by rw [ha])
    exact ⟨data', hk, by rw [hp, ha]⟩

theorem outcome_last (before : List ParseNode) (b : ParseNode) (hb : b.isCatchAll = false)
    (es init : List Lookup) (e : Lookup) (hes : es.filter (onPath b.path) = init ++ [e])
    (he : takes before b e = true) :
    ∃ init' : List Lookup,
      outcome before b es = (init'.foldl (fun n e => n.assigned e) b).assigned e := by
  have htaken : e.structural || !before.any (bound e.path) := by
    rw [takes, Bool.and_eq_true] at he
    exact he.2
  refine ⟨init.filter fun e => e.structural || !before.any (bound e.path), ?_⟩
  have hlast : [e].filter (fun e => e.structural || !before.any (bound e.path)) = [e] := by simpa using htaken
  rw [outcome, filter_takes before b hb, hes, List.filter_append, hlast, List.foldl_append]
  rfl

/-- A dynamic node whose member is found captures exactly the text of the member if and only if the
brackets of that text, those in comments included, first balance at its end. -/
theorem parse_capture_iff (j : CommentText) (hspaced : j.Spaced) (q : PathBase) (curly : Bool)
    (items : List (Slot × Doc)) (gap : Bytes) (hm : j.root.HasMember q (.block curly items gap))
    (hfound : FoundLast j.root q (.block curly items gap)) (nodes : List ParseNode) (k : Nat)
    (isSet isNull : Bool) (data : DynamicNodeBase) (hk : nodes[k]? = some ⟨q, isSet, isNull, .dynamic data⟩) :
    ∃ nodes' data', parse j.text nodes = some nodes' ∧
      nodes'[k]? = some ⟨q, true, false, .dynamic data'⟩ ∧
      (data'.rawVal = (Doc.block curly items gap).text ↔ Framed (Doc.block curly items gap).text) := by
  obtain ⟨nodes', hp, hn⟩ := parse_binding j.text nodes k _ hk rfl
  obtain ⟨init, e, rest, hfilter, hstruct, hstr, hpath, hrest, hraw⟩ := hfound.lookups hspaced hm
  have htakes : takes (nodes.take k) (ParseNode.reset ⟨q, isSet, isNull, .dynamic data⟩) e = true := by
    rw [takes, hstruct, Bool.true_or, Bool.and_true, bound_iff _ _ rfl, hpath]
    exact List.prefix_refl q
  obtain ⟨init', hlast⟩ := outcome_last (nodes.take k) _ rfl _ init e hfilter htakes
  obtain ⟨data', hkind, hpath'⟩ := foldl_dynamic init' (ParseNode.reset ⟨q, isSet, isNull, .dynamic data⟩)
    data rfl
  refine ⟨nodes', ⟨e.raw, e.isString, e.raw, false⟩, hp, ?_, ?_⟩
  · rw [hn, hlast, assigned_dynamic e _ data' hkind, hpath', Lookup.isNull, hstruct]
    rfl
  · show e.raw = _ ↔ _
    rw [hraw]
    exact blockOf_eq_iff curly items gap rest hrest

end capture

section plain
variable {wgap : Bytes → Prop}

/-- A block that is a member of plain objects is the last on its path. -/
theorem PlainObject.filter_block {items : List (Slot × Doc)} {q : PathBase} {d : Doc}
    (hm : Doc.MemberAt items q d) (ho : PlainObject wgap items) (hq : [] ∉ q) (curly : Bool)
    (ms : List (Slot × Doc)) (gap : Bytes) (hd : d = .block curly ms gap) (trail : List Bytes) :
    ∃ init e, (itemLookups trail items).filter (onPath (trail ++ q)) = init ++ [e] ∧
      e.structural = true ∧ e.isString = false ∧ e.path = trail ++ q ∧ e.raw = d.text := by
  induction hm generalizing trail with
  | @here items s d h =>
    subst hd
    have hwf := (Doc.wfWith_of_mem ho.wf h).2
    have hplain := ho.plain _ h
    rw [Doc.WFWith] at hwf
    refine ⟨[], ⟨trail, s.key, true, (Doc.block curly ms gap).text, false⟩, ?_, rfl, rfl, rfl, rfl⟩
    rw [ho.filter_key h trail [] hq, docLookups, List.filter_cons_of_pos, List.filter_eq_nil_iff.mpr]
    · rfl
    · intro e he hpre
      rw [onPath_iff] at hpre
      cases curly with
      | false =>
        have hfree : ∀ m ∈ ms, m.2.ObjectFree := fun m hm => Doc.all_of_mem hplain.1 hm
        rw [itemLookups_eq_flatMap _ _ fun m hm => docPops_objectFree m.2 (hfree m hm) _,
          List.mem_flatMap] at he
        obtain ⟨m, hm, he⟩ := he
        obtain ⟨hslot, hwfm⟩ := Doc.wfWith_of_mem hwf.1 hm
        rw [hslot.key_nil] at he
        have hpath := path_objectFree m.2 hwfm (hfree m hm) _ [] e he
        rw [or_self, enterTrail, if_neg (by simp)] at hpath
        rw [hpath, List.prefix_append_right_inj, List.cons_prefix_cons] at hpre
        exact hq (by simp [← hpre.1])
      | true =>
        have hsub : PlainObject wgap ms := .of_doc (Doc.wfWith_of_mem ho.wf h).2 hplain
        rw [itemLookups_eq_flatMap _ _ (plain_pops ms hsub.nonempty hsub.plain), List.mem_flatMap] at he
        obtain ⟨m, hm, he⟩ := he
        obtain ⟨k, p, hpath, -⟩ := path_plain m.2 (Doc.wfWith_of_mem hwf.1 hm).2 (hsub.plain m hm) _ _
          (hsub.nonempty m hm) e he
        rw [enterTrail, if_pos ⟨rfl, ho.nonempty _ h⟩] at hpath
        have := hpre.length_le
        rw [hpath] at this
        simp only [List.length_append, List.length_cons, List.length_nil] at this
        omega
    · rw [onPath_iff]
      exact List.prefix_refl _
  | @inside items s ms' g path d h _ ih =>
    have hsub : PlainObject wgap ms' := .of_doc (Doc.wfWith_of_mem ho.wf h).2 (ho.plain _ h)
    obtain ⟨init, e, hfilter, hstruct, hstr, hpath, hraw⟩ :=
      ih hsub (fun hmem => hq (List.mem_cons_of_mem _ hmem)) hd (trail ++ [s.key])
    refine ⟨⟨trail, s.key, true, (Doc.block true ms' g).text, false⟩ :: init, e, ?_, hstruct, hstr, ?_, hraw⟩
    · rw [ho.filter_inside h trail path hq, hfilter]
      rfl
    · rw [hpath, List.append_assoc, List.singleton_append]

/-- In a plain document every object and array on a path of non-empty keys is found. -/
theorem foundLast_plain (root : Doc) (hwf : root.WFWith wgap) (hplain : root.Plain) (q : PathBase)
    (hq : [] ∉ q) (curly : Bool) (items : List (Slot × Doc)) (gap : Bytes)
    (hm : root.HasMember q (.block curly items gap)) : FoundLast root q (.block curly items gap) := by
  obtain ⟨ms, g, rfl⟩ := hm.eq_object
  obtain ⟨init, e, hfilter, hrest⟩ :=
    (PlainObject.of_doc hwf hplain).filter_block hm hq curly items gap rfl []
  refine ⟨init, e, ?_, hrest⟩
  rw [docLookups_onPath ms g q hq]
  exact hfilter

/-- A value is framed when the comments in it hold no quotes and no brackets. -/
theorem framed_quiet (curly : Bool) (items : List (Slot × Doc)) (gap : Bytes)
    (h : (Doc.block curly items gap).WFWith Quiet) : Framed (Doc.block curly items gap).text :=
  (blockOf_eq_iff curly items gap [ch ' '] (List.cons_ne_nil _ _)).mp (blockOf_quiet curly items gap _ h)

end plain

/-- A comment with brackets in it, and spaces around it. -/
def bracketComment (body : Bytes) : Bytes :=
  ch ' ' :: ch '/' :: ch '*' :: (body ++ ch '*' :: ch '/' :: [ch ' '])

theorem bracketComment_gap (body : Bytes) (h : ¬ [ch '*', ch '/'] <:+: body) :
    IsCommentGap (bracketComment body) := by
  have hspace : IsGap [ch ' '] := fun c hc => .inl (List.mem_singleton.mp hc)
  exact .space hspace (.block h (.space hspace .nil))

/-- `{"log":[{"x":"]"} /*…*/ ],"n":1}` -/
def notedLog (body : Bytes) (h : ¬ [ch '*', ch '/'] <:+: body) : CommentText where
  before := []
  root := .block true
    [(⟨[], some ⟨bytes "log", [], []⟩, [], true⟩,
        .block false [(⟨[], none, bracketComment body, false⟩,
          .block true [(⟨[], some ⟨bytes "x", [], []⟩, [], false⟩, .scalar true (bytes "]"))] [])] []),
      (⟨[], some ⟨bytes "n", [], []⟩, [], false⟩, .scalar false (bytes "1"))] []
  after := []
  lastLine := none
  before_gap := .nil
  after_gap := .nil
  root_wf := by
    have hkey (k : Bytes) (hk : IsStringBody k) (comma : Bool) :
        (⟨[], some ⟨k, [], []⟩, [], comma⟩ : Slot).WFWith IsCommentGap true :=
      ⟨.nil, .nil, rfl, fun l hl => Option.some.inj hl ▸ ⟨hk, .nil, .nil⟩⟩
    have helement : (⟨[], none, bracketComment body, false⟩ : Slot).WFWith IsCommentGap false :=
      ⟨.nil, bracketComment_gap body h, rfl, nofun⟩
    have hone : IsPrimitive (bytes "1") := by simp [IsPrimitive, bytes, ch]
    have hx : (Doc.block true [(⟨[], some ⟨bytes "x", [], []⟩, [], false⟩, .scalar true (bytes "]"))] []).WFWith
        IsCommentGap :=
      ⟨⟨hkey _ (by decide) _, show IsStringBody _ by decide, fun h => absurd rfl h, trivial⟩, .nil⟩
    exact ⟨⟨hkey _ (by decide) _, ⟨⟨helement, hx, fun h => absurd rfl h, trivial⟩, .nil⟩, fun _ => rfl,
      hkey _ (by decide) _, hone, fun h => absurd rfl h, trivial⟩, .nil⟩
  lastLine_body := CommentText.no_lastLine

/-- The array in it. -/
def notedEntries (body : Bytes) : Doc :=
  .block false [(⟨[], none, bracketComment body, false⟩,
    .block true [(⟨[], some ⟨bytes "x", [], []⟩, [], false⟩, .scalar true (bytes "]"))] [])] []

def logNode : ParseNode := ⟨[bytes "log"], false, false, .dynamic ⟨[], false, [], false⟩⟩

theorem notedLog_member (body : Bytes) (h : ¬ [ch '*', ch '/'] <:+: body) :
    (notedLog body h).root.HasMember [bytes "log"] (notedEntries body) :=
  .here (s := ⟨[], some ⟨bytes "log", [], []⟩, [], true⟩) (.head _)

theorem parse_capture_iff_notedLog :
    ∃ nodes' data', @parse keepFloats (notedLog (bytes "[\x7b\x7d]") (by decide)).text [logNode] =
        some nodes' ∧
      nodes'[0]? = some ⟨[bytes "log"], true, false, .dynamic data'⟩ ∧
      (data'.rawVal = (notedEntries (bytes "[\x7b\x7d]")).text ↔
        Framed (notedEntries (bytes "[\x7b\x7d]")).text) := by
  let _ := keepFloats
  exact parse_capture_iff (notedLog (bytes "[\x7b\x7d]") (by decide))
    ⟨nofun, by simp [notedLog, Doc.Spaced, Doc.ItemsSpaced, Doc.isPrimitive, Slot.trail]⟩ [bytes "log"] false _ _
    (notedLog_member _ _) ⟨[], _, rfl, rfl, rfl, rfl, rfl⟩ [logNode] 0 false false _ rfl

/-- A closing bracket in a comment ends the capture too early. -/
theorem parse_capture_comment :
    (notedLog (bytes "]") (by decide)).root.HasMember [bytes "log"] (notedEntries (bytes "]")) ∧
      (@parse keepFloats (notedLog (bytes "]") (by decide)).text [logNode]).map
          (List.map ParseNode.kind) =
        some [.dynamic ⟨bytes "[\x7b\"x\":\"]\"\x7d /*]", false, bytes "[\x7b\"x\":\"]\"\x7d /*]", false⟩] ∧
      bytes "[\x7b\"x\":\"]\"\x7d /*]" ≠ (notedEntries (bytes "]")).text := by
  refine ⟨notedLog_member _ _, ?_, by decide⟩
  rfl

end Espbase.StackJson
