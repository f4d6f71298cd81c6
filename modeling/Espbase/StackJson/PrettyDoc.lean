import Espbase.StackJson.PrettyDocument
import Espbase.StackJson.RoundTrip

namespace Espbase.StackJson

open Espbase.Lib

/-- A text without gaps: every gap is empty. -/
def Unspaced (g : Bytes) : Prop := g = []

section depth

/-- The depth that the decorator counts after a bracket that closes. -/
def outer (depth : UInt8) : UInt8 := if depth > 0 then depth - 1 else depth

mutual
/-- The depth that it counts after a document. -/
def depthAfter (depth : UInt8) : Doc → UInt8
  | .scalar _ _ => depth
  | .block _ items _ => outer (depthAfterItems (depth + 1) items)

def depthAfterItems (depth : UInt8) : List (Slot × Doc) → UInt8
  | [] => depth
  | (_, d) :: items => depthAfterItems (depthAfter depth d) items
end

end depth

section laid
variable (indent : UInt8)

/-- A new line, indented. -/
def line (depth : UInt8) : Bytes := 0x0a :: indentation indent depth

/-- The line that is begun before the bracket that closes: by a bracket that opens, or by a comma. -/
def openLine (depth : UInt8) (items : List (Slot × Doc)) : Bytes :=
  if items.getLast?.all (fun m => m.1.comma) then line indent depth else []

def laidLabel (l : Label) : Label := ⟨l.key, [], [ch ' ']⟩

mutual
/-- The document with the layout of the decorator. -/
def laid (depth : UInt8) : Doc → Doc
  | .scalar isString raw => .scalar isString raw
  | .block curly items _ =>
    .block curly (laidItems (depth + 1) items)
      (openLine indent (depthAfterItems (depth + 1) items) items ++
        line indent (outer (depthAfterItems (depth + 1) items)))

def laidItems (depth : UInt8) : List (Slot × Doc) → List (Slot × Doc)
  | [] => []
  | (s, d) :: items =>
    (⟨line indent depth, s.label.map laidLabel, [], s.comma⟩, laid depth d) ::
      laidItems (depthAfter depth d) items
end

theorem line_gap (depth : UInt8) : IsGap (line indent depth) := by
  intro c hc
  rcases List.mem_cons.mp hc with rfl | hc
  · exact .inr (.inl rfl)
  · exact .inl (List.eq_of_mem_replicate hc)

theorem openLine_gap (depth : UInt8) (items : List (Slot × Doc)) : IsGap (openLine indent depth items) := by
  unfold openLine
  split_ifs
  · exact line_gap indent depth
  · exact .nil

theorem laidItems_isEmpty (depth : UInt8) (items : List (Slot × Doc)) :
    laidItems indent depth items ≠ [] → items ≠ [] := by
  rintro h rfl
  exact h rfl

mutual
/-- The layout consists of whitespace. -/
theorem laid_wf (d : Doc) (h : d.WFWith Unspaced) (depth : UInt8) : (laid indent depth d).WF := by
  match d with
  | .scalar isString raw => exact h
  | .block curly items gap =>
    rw [Doc.WFWith] at h
    rw [laid, Doc.WF]
    refine ⟨laidItems_wf items curly h.1 _, ?_⟩
    intro c hc
    exact (List.mem_append.mp hc).elim (openLine_gap indent _ items c) (line_gap indent _ c)

theorem laidItems_wf (items : List (Slot × Doc)) (curly : Bool) (h : Doc.ItemsWFWith Unspaced curly items)
    (depth : UInt8) : Doc.ItemsWF curly (laidItems indent depth items) := by
  match items with
  | [] => trivial
  | (s, d) :: items =>
    rw [Doc.ItemsWFWith] at h
    obtain ⟨⟨-, -, hsome, hlabel⟩, hd, hcomma, hrest⟩ := h
    rw [laidItems, Doc.ItemsWF]
    refine ⟨⟨line_gap indent depth, .nil, ?_, ?_⟩, laid_wf d hd depth, ?_, laidItems_wf items curly hrest _⟩
    · rw [Option.isSome_map, hsome]
    · intro l hl
      obtain ⟨l', hl', rfl⟩ := Option.map_eq_some_iff.mp hl
      refine ⟨(hlabel l' hl').1, .nil, ?_⟩
      intro c hc
      exact .inl (List.mem_singleton.mp hc)
    · exact fun hne => hcomma (laidItems_isEmpty indent _ items hne)
end

theorem laidItems_keys (items : List (Slot × Doc)) (depth : UInt8) :
    (laidItems indent depth items).map (fun m => m.1.key) = items.map fun m => m.1.key := by
  induction items generalizing depth with
  | nil => rfl
  | cons m items ih =>
    obtain ⟨s, d⟩ := m
    rw [laidItems, List.map_cons, List.map_cons, ih]
    congr 1
    simp only [Slot.key, Option.map_map]
    rfl

/-- A member keeps its key, and its value is laid out in its place. -/
theorem mem_laidItems (items : List (Slot × Doc)) (depth : UInt8) (s : Slot) (d : Doc) (h : (s, d) ∈ items) :
    ∃ s' depth', s'.key = s.key ∧ (s', laid indent depth' d) ∈ laidItems indent depth items := by
  induction items generalizing depth with
  | nil => cases h
  | cons m items ih =>
    obtain ⟨s', d'⟩ := m
    rw [laidItems]
    rcases List.mem_cons.mp h with heq | h
    · rw [Prod.mk.injEq] at heq
      refine ⟨_, depth, ?_, by rw [heq.2]; exact List.mem_cons_self⟩
      rw [heq.1]
      simp only [Slot.key, Option.map_map]
      rfl
    · obtain ⟨s'', depth', hkey, hmem⟩ := ih (depthAfter depth d') h
      exact ⟨s'', depth', hkey, List.mem_cons_of_mem _ hmem⟩

/-- Scalars stay where they are. -/
theorem memberAt_laidItems {items : List (Slot × Doc)} {p : List Bytes} {d : Doc}
    (hm : Doc.MemberAt items p d) (isString : Bool) (raw : Bytes) (hd : d = .scalar isString raw) (depth : UInt8) :
    Doc.MemberAt (laidItems indent depth items) p d := by
  induction hm generalizing depth with
  | @here items s d h =>
    obtain ⟨s', depth', hkey, hmem⟩ := mem_laidItems indent items depth s d h
    rw [hd, laid] at hmem
    rw [← hkey, hd]
    exact .here hmem
  | @inside items s ms g path d h _ ih =>
    obtain ⟨s', depth', hkey, hmem⟩ := mem_laidItems indent items depth s _ h
    rw [laid] at hmem
    rw [← hkey]
    exact .inside hmem (ih hd _)

end laid

section text
variable (indent : UInt8)

/-- A string body is passed without leaving the literal. -/
theorem inside_body (raw : Bytes) (h : IsStringBody raw) :
    Quote.inside.after raw = .inside ∧ Quote.inside.literal raw = true := by
  fun_induction IsStringBody raw with
  | case1 => exact ⟨rfl, rfl⟩
  | case2 c => simp [Quote.next, Quote.literal, h.1, h.2]
  | case3 d s ih =>
    obtain ⟨hafter, hlit⟩ := ih h
    have hnext : (Quote.inside.next (ch '\\')).next d = .inside := rfl
    rw [Quote.after_cons, Quote.after_cons, Quote.literal, Quote.literal, hnext]
    exact ⟨hafter, hlit⟩
  | case4 c d s hc ih =>
    obtain ⟨hafter, hlit⟩ := ih h.2
    have hnext : Quote.inside.next c = .inside := by simp [Quote.next, hc, h.1]
    rw [Quote.after_cons, Quote.literal, hnext]
    exact ⟨hafter, hlit⟩

theorem verbatim_quoted (depth : UInt8) (raw : Bytes) (h : IsStringBody raw) :
    Verbatim indent ⟨.outside, depth⟩ (ch '"' :: (raw ++ [ch '"'])) ⟨.outside, depth⟩ := by
  obtain ⟨hafter, hlit⟩ := inside_body raw h
  have hbody : Verbatim indent ⟨.inside, depth⟩ raw ⟨.inside, depth⟩ := by
    have hv : Verbatim indent ⟨.inside, depth⟩ raw _ := Verbatim.literal hlit
    rwa [hafter] at hv
  have hclose : Verbatim indent ⟨.inside, depth⟩ [ch '"'] ⟨.outside, depth⟩ := Verbatim.literal rfl
  exact (Verbatim.openQuote depth).append (hbody.append hclose)

theorem verbatim_primitive (depth : UInt8) (raw : Bytes) (h : IsPrimitive raw) :
    Verbatim indent ⟨.outside, depth⟩ raw ⟨.outside, depth⟩ := by
  refine Verbatim.of_forall rfl fun c hc => ?_
  have hmark := h.2 c hc
  simp only [List.mem_cons, List.not_mem_nil, or_false, not_or] at hmark
  simp [PrettyBuffer.isStructural, hmark]

/-- Behind the key there is a space. -/
theorem pretty_label (depth : UInt8) (l : Label) (h : l.WFWith Unspaced) :
    pretty indent ⟨.outside, depth⟩ l.text = (laidLabel l).text ∧
      Cursor.after ⟨.outside, depth⟩ l.text = ⟨.outside, depth⟩ := by
  obtain ⟨hkey, hbefore, hafter⟩ := h
  have hquoted := verbatim_quoted indent depth l.key hkey
  have htext : l.text = ch '"' :: (l.key ++ [ch '"']) ++ [ch ':'] := by
    rw [Label.text, hbefore, hafter]
    simp
  rw [htext, pretty_append, Cursor.after_append, hquoted.text, hquoted.cursor]
  refine ⟨?_, rfl⟩
  simp [Label.text, laidLabel, pretty, prettyByte, ch]

theorem pretty_lead (depth : UInt8) (curly : Bool) (s : Slot) (h : s.WFWith Unspaced curly) :
    pretty indent ⟨.outside, depth⟩ s.lead = ((s.label.map laidLabel).map Label.text).getD [] ∧
      Cursor.after ⟨.outside, depth⟩ s.lead = ⟨.outside, depth⟩ := by
  obtain ⟨hbefore, -, -, hlabel⟩ := h
  rw [Slot.lead, hbefore, List.nil_append]
  cases hl : s.label with
  | none => exact ⟨rfl, rfl⟩
  | some l => exact pretty_label indent depth l (hlabel l hl)

theorem pretty_open (depth : UInt8) (curly : Bool) (t : Bytes) :
    pretty indent ⟨.outside, depth⟩ (opening curly :: t) =
      opening curly :: (line indent (depth + 1) ++ pretty indent ⟨.outside, depth + 1⟩ t) ∧
    Cursor.after ⟨.outside, depth⟩ (opening curly :: t) = Cursor.after ⟨.outside, depth + 1⟩ t := by
  cases curly with
  | false => exact ⟨rfl, rfl⟩
  | true => exact ⟨rfl, rfl⟩

theorem pretty_close (depth : UInt8) (curly : Bool) :
    pretty indent ⟨.outside, depth⟩ [closing curly] = line indent (outer depth) ++ [closing curly] ∧
    Cursor.after ⟨.outside, depth⟩ [closing curly] = ⟨.outside, outer depth⟩ := by
  cases curly with
  | false => exact ⟨List.append_nil _, rfl⟩
  | true => exact ⟨List.append_nil _, rfl⟩

theorem openLine_cons (depth : UInt8) (m m' : Slot × Doc) (items : List (Slot × Doc)) :
    openLine indent depth (m :: m' :: items) = openLine indent depth (m' :: items) := by
  rw [openLine, openLine, List.getLast?_cons_cons]

mutual
/-- The decorator writes a document without gaps with its layout. -/
theorem pretty_doc (d : Doc) (h : d.WFWith Unspaced) (depth : UInt8) :
    pretty indent ⟨.outside, depth⟩ d.text = (laid indent depth d).text ∧
      Cursor.after ⟨.outside, depth⟩ d.text = ⟨.outside, depthAfter depth d⟩ := by
  match d with
  | .scalar isString raw =>
    rw [Doc.WFWith] at h
    rw [laid, depthAfter, Doc.text]
    cases isString with
    | false =>
      have hv := verbatim_primitive indent depth raw h
      exact ⟨hv.text, hv.cursor⟩
    | true =>
      have hv := verbatim_quoted indent depth raw h
      exact ⟨hv.text, hv.cursor⟩
  | .block curly items gap =>
    rw [Doc.WFWith] at h
    obtain ⟨hitems, hgap⟩ := h
    obtain ⟨htext, hcursor⟩ := pretty_items items curly hitems (depth + 1)
    obtain ⟨hopen, hopened⟩ := pretty_open indent depth curly (Doc.itemsText items ++ (gap ++ [closing curly]))
    obtain ⟨hclose, hclosed⟩ := pretty_close indent (depthAfterItems (depth + 1) items) curly
    rw [laid, depthAfter, Doc.text, Doc.text, hopen, hopened, hgap, List.nil_append, pretty_append,
      Cursor.after_append, hcursor, hclose, hclosed]
    refine ⟨?_, rfl⟩
    rw [← List.append_assoc (line _ _), htext]
    simp only [List.append_assoc]

theorem pretty_items (items : List (Slot × Doc)) (curly : Bool) (h : Doc.ItemsWFWith Unspaced curly items)
    (depth : UInt8) :
    line indent depth ++ pretty indent ⟨.outside, depth⟩ (Doc.itemsText items) =
        Doc.itemsText (laidItems indent depth items) ++
          openLine indent (depthAfterItems depth items) items ∧
      Cursor.after ⟨.outside, depth⟩ (Doc.itemsText items) = ⟨.outside, depthAfterItems depth items⟩ := by
  match items with
  | [] => exact ⟨List.append_nil _, rfl⟩
  | (s, d) :: items =>
    rw [Doc.ItemsWFWith] at h
    obtain ⟨hslot, hd, hcomma, hrest⟩ := h
    obtain ⟨hlead, hleadCursor⟩ := pretty_lead indent depth curly s hslot
    obtain ⟨hdoc, hdocCursor⟩ := pretty_doc d hd depth
    obtain ⟨hitems, hitemsCursor⟩ := pretty_items items curly hrest (depthAfter depth d)
    have htrail : s.trail = if s.comma then [ch ','] else [] := by rw [Slot.trail, hslot.2.1, List.nil_append]
    rw [laidItems, depthAfterItems, Doc.itemsText, Doc.itemsText, htrail]
    simp only [pretty_append, Cursor.after_append, hlead, hleadCursor, hdoc, hdocCursor]
    cases hc : s.comma with
    | true =>
      have hopen : openLine indent (depthAfterItems (depthAfter depth d) items) ((s, d) :: items) =
          openLine indent (depthAfterItems (depthAfter depth d) items) items := by
        cases items with
        | nil => simp [openLine, hc]
        | cons m items => exact openLine_cons indent _ _ m items
      rw [hopen]
      refine ⟨?_, hitemsCursor⟩
      have hcommaText : pretty indent ⟨.outside, depthAfter depth d⟩ [ch ','] =
          ch ',' :: line indent (depthAfter depth d) := List.append_nil _
      rw [if_pos rfl, hcommaText]
      simp only [List.cons_append, List.append_assoc, Slot.lead, Slot.trail, List.nil_append, if_true]
      rw [← hitems]
      rfl
    | false =>
      obtain rfl : items = [] := by
        by_contra hne
        rw [hcomma hne] at hc
        cases hc
      refine ⟨?_, rfl⟩
      simp [openLine, hc, Doc.itemsText, laidItems, pretty, Slot.lead, Slot.trail]
end

end text

section plain
variable (indent : UInt8)

mutual
theorem laid_objectFree (d : Doc) (h : d.ObjectFree) (depth : UInt8) : (laid indent depth d).ObjectFree := by
  match d with
  | .scalar isString raw => exact h
  | .block true items gap => cases h.1
  | .block false items gap => exact ⟨rfl, laidItems_objectFree items h.2 _⟩

theorem laidItems_objectFree (items : List (Slot × Doc)) (h : Doc.ObjectFreeItems items) (depth : UInt8) :
    Doc.ObjectFreeItems (laidItems indent depth items) := by
  match items with
  | [] => trivial
  | (s, d) :: items => exact ⟨laid_objectFree d h.1 depth, laidItems_objectFree items h.2 _⟩
end

mutual
theorem laid_plain (d : Doc) (h : d.Plain) (depth : UInt8) : (laid indent depth d).Plain := by
  match d with
  | .scalar isString raw => trivial
  | .block curly items gap =>
    refine ⟨?_, laidItems_plain items h.2 _⟩
    cases curly with
    | false => exact laidItems_objectFree indent items h.1 _
    | true =>
      have hkeys := laidItems_keys indent items (depth + 1)
      refine ⟨by rw [hkeys]; exact h.1.1, fun m hm => ?_⟩
      have hkey : m.1.key ∈ items.map fun m => m.1.key := by
        rw [← hkeys]
        exact List.mem_map_of_mem (f := fun m => m.1.key) hm
      obtain ⟨m', hm', heq⟩ := List.mem_map.mp hkey
      rw [← heq]
      exact h.1.2 m' hm'

theorem laidItems_plain (items : List (Slot × Doc)) (h : Doc.AllItems Doc.PlainHere items) (depth : UInt8) :
    Doc.AllItems Doc.PlainHere (laidItems indent depth items) := by
  match items with
  | [] => trivial
  | (s, d) :: items => exact ⟨laid_plain d h.1 depth, laidItems_plain items h.2 _⟩
end

end plain

section tree
open KeyTree

mutual
/-- The document of a tree has no gaps. -/
theorem treeDoc_unspaced (t : KeyTree Bytes Doc) (h : t.Proper PlainKey) (hl : ScalarLeaves t.leaves) :
    (treeDoc t).WFWith Unspaced := by
  match t with
  | .leaf d =>
    obtain ⟨hwf, isString, raw, rfl⟩ := hl d (by simp [leaves])
    exact hwf
  | .node ms => exact ⟨treeMembers_unspaced ms h.2 hl, rfl⟩

theorem treeMembers_unspaced (ms : List (Bytes × KeyTree Bytes Doc)) (h : ProperOf PlainKey ms)
    (hl : ScalarLeaves (leavesOf ms)) : Doc.ItemsWFWith Unspaced true (treeMembers ms) := by
  match ms with
  | [] => trivial
  | (k, t) :: ms =>
    rw [ProperOf] at h
    rw [leavesOf] at hl
    refine ⟨⟨rfl, rfl, rfl, ?_⟩, treeDoc_unspaced t h.2.2.1 fun d hd => hl d (by simp [hd]), ?_,
      treeMembers_unspaced ms h.2.2.2 fun d hd => hl d (by simp [hd])⟩
    · intro l hlabel
      obtain rfl := Option.some.inj hlabel
      exact ⟨h.1.body, rfl, rfl⟩
    · intro hne
      cases ms with
      | nil => exact absurd rfl hne
      | cons m ms => rfl
end

end tree

section roundTrip
variable {nodes : List (NodeInfo × Value)} (indent : UInt8)

theorem ScalarNodes.json_unspaced (h : ScalarNodes nodes) : h.json.root.WFWith Unspaced := by
  rw [ScalarNodes.json, Doc.WFWith]
  exact ⟨treeMembers_unspaced _ h.docTree_proper.1 h.leaves, rfl⟩

/-- The JSON text that is emitted for the nodes through a decorator. -/
def ScalarNodes.prettyJson (h : ScalarNodes nodes) : JsonText where
  before := []
  root := laid indent 0 h.json.root
  after := []
  before_gap := .nil
  after_gap := .nil
  root_wf := laid_wf indent _ h.json_unspaced 0

theorem ScalarNodes.prettyJson_text (h : ScalarNodes nodes) : (h.prettyJson indent).text = prettyText indent nodes := by
  have hroot : h.json.root.text = documentText nodes := by
    rw [← h.json_text]
    simp [JsonText.text, ScalarNodes.json]
  rw [prettyText, ← hroot, (pretty_doc indent _ h.json_unspaced 0).1]
  simp [JsonText.text, prettyJson]

theorem ScalarNodes.prettyJson_member (h : ScalarNodes nodes) (path : PathBase) (v : Value)
    (hv : (path, v) ∈ shown id nodes) : (h.prettyJson indent).root.HasMember path (valueDoc v) := by
  have hm := h.hasMember path v hv
  exact memberAt_laidItems indent hm _ _ rfl _

variable [FloatChars]

/-- Parsing what was emitted for scalar nodes through a decorator brings every value to its binding, as without the
decorator. -/
theorem emit_pretty_roundTrip (nodes : List (NodeInfo × Value)) (h : ScalarNodes nodes) (bs : List ParseNode)
    (hbs : Bindings nodes bs) (indent : UInt8) (hdepth : nestingDepth nodes * indent.toNat ≤ 255) (maxSize : Nat)
    (emitted : Nat → Bool) (hroom : (prettyText indent nodes).length ≤ maxSize) :
    ∃ st' n bs', emitDocument nodes ⟨PrettyBuffer.new (StackBuffer.empty maxSize) indent, emitted⟩ = some (st', n) ∧
      parse st'.buf.dest.view bs = some bs' ∧
      ∀ (k : Nat) (b : ParseNode), bs[k]? = some b →
        ∃ v target, (b.path, v) ∈ shown id nodes ∧ b.kind = .bind target ∧
          bs'[k]? = some ⟨b.path, true, v.isNull, .bind (v.received target)⟩ := by
  have hw : (StackBuffer.empty maxSize).Within := Nat.zero_le _
  have hempty : (StackBuffer.empty maxSize).head + (prettyText indent nodes).length ≤ maxSize := by
    rw [show (StackBuffer.empty maxSize).head = 0 from rfl, Nat.zero_add]
    exact hroom
  obtain ⟨hret, hset⟩ := emitDocument_prettied nodes h.valid indent (StackBuffer.empty maxSize) hw emitted
  obtain ⟨⟨st', n⟩, he⟩ := Option.isSome_iff_exists.mp (hset rfl hempty hdepth)
  obtain ⟨-, -, ha, -⟩ := (hret st' n he).fits ⟨rfl, rfl⟩ rfl hempty
  have hview : st'.buf.dest.view = prettyText indent nodes := ha.view
  obtain ⟨bs', hp, hb⟩ := h.recovers_of_members (h.prettyJson indent) (laid_plain indent _ h.json_plain 0)
    (h.prettyJson_member indent) bs hbs
  refine ⟨st', n, bs', he, ?_, hb⟩
  rw [hview, ← h.prettyJson_text indent, hp]

end roundTrip

theorem emit_pretty_roundTrip_retrySettings :
    ∃ st' n bs', emitDocument retrySettings ⟨PrettyBuffer.new (StackBuffer.empty 120) 2, fun _ => true⟩ =
        some (st', n) ∧
      @parse keepFloats st'.buf.dest.view retryBindings = some bs' ∧
      ∃ v target, (([bytes "mode"] : PathBase), v) ∈ shown id retrySettings ∧
        NodeKind.bind (.bool true) = .bind target ∧
        bs'[0]? = some ⟨[bytes "mode"], true, v.isNull, .bind (v.received target)⟩ := by
  let _ := keepFloats
  obtain ⟨st', n, bs', he, hp, hb⟩ := emit_pretty_roundTrip retrySettings retrySettings_scalar
    retryBindings retryBindings_fit 2 (by decide +kernel) 120 (fun _ => true) (by decide +kernel)
  exact ⟨st', n, bs', he, hp, hb 0 _ rfl⟩

end Espbase.StackJson
