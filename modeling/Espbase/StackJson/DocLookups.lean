import Espbase.Lib.JsonComments
import Espbase.StackJson.Lookups

namespace Espbase.StackJson

open Espbase.Lib

mutual
/-- How many keys of the trail are lost over a value: an object without a key pops at its end what it
did not push. -/
def docPops (key : Bytes) : Doc → Nat
  | .scalar _ _ => 0
  | .block curly items _ => itemPops items + if curly ∧ key = [] then 1 else 0

def itemPops : List (Slot × Doc) → Nat
  | [] => 0
  | (s, d) :: items => docPops s.key d + itemPops items
end

/-- The trail without its last `pops` keys. -/
def cutTrail (trail : List Bytes) (pops : Nat) : List Bytes := trail.take (trail.length - pops)

/-- The trail in a block under a key. -/
def enterTrail (trail : List Bytes) (key : Bytes) (curly : Bool) : List Bytes :=
  if curly ∧ key ≠ [] then trail ++ [key] else trail

mutual
/-- The lookups of a value under a key, in the order of the text. -/
def docLookups (trail : List Bytes) (key : Bytes) : Doc → List Lookup
  | .scalar isString raw => [⟨trail, key, false, raw, isString⟩]
  | .block curly items gap =>
    ⟨trail, key, true, (Doc.block curly items gap).text, false⟩ ::
      itemLookups (enterTrail trail key curly) items

def itemLookups (trail : List Bytes) : List (Slot × Doc) → List Lookup
  | [] => []
  | (s, d) :: items =>
    docLookups trail s.key d ++ itemLookups (cutTrail trail (docPops s.key d)) items
end

section trail

@[simp] theorem cutTrail_zero (trail : List Bytes) : cutTrail trail 0 = trail := by simp [cutTrail]

theorem cutTrail_prefix (trail : List Bytes) (n : Nat) : cutTrail trail n <+: trail :=
  List.take_prefix _ _

theorem cutTrail_cutTrail (trail : List Bytes) (m n : Nat) :
    cutTrail (cutTrail trail m) n = cutTrail trail (m + n) := by
  simp only [cutTrail, List.take_take, List.length_take]
  congr 1
  omega

theorem itemPops_append (items items' : List (Slot × Doc)) :
    itemPops (items ++ items') = itemPops items + itemPops items' := by
  induction items with
  | nil => simp [itemPops]
  | cons m items ih =>
    obtain ⟨s, d⟩ := m
    simp only [List.cons_append, itemPops, ih]
    omega

theorem itemLookups_append (trail : List Bytes) (items items' : List (Slot × Doc)) :
    itemLookups trail (items ++ items') =
      itemLookups trail items ++ itemLookups (cutTrail trail (itemPops items)) items' := by
  induction items generalizing trail with
  | nil => simp [itemLookups, itemPops]
  | cons m items ih =>
    obtain ⟨s, d⟩ := m
    simp only [List.cons_append, itemLookups, itemPops, ih, cutTrail_cutTrail, List.append_assoc]

/-- Below an empty trail no key is lost. -/
theorem itemLookups_root (items : List (Slot × Doc)) :
    itemLookups [] items = items.flatMap fun m => docLookups [] m.1.key m.2 := by
  induction items with
  | nil => rfl
  | cons m items ih =>
    obtain ⟨s, d⟩ := m
    rw [itemLookups, show cutTrail [] (docPops s.key d) = [] from List.take_nil, ih, List.flatMap_cons]

/-- The closing brace of an object leaves the trail that was there before it, without the keys that
were lost in it. -/
theorem dropLast_enterTrail (trail : List Bytes) (key : Bytes) (n : Nat) :
    (cutTrail (enterTrail trail key true) n).dropLast =
      cutTrail trail (n + if key = [] then 1 else 0) := by
  unfold cutTrail enterTrail
  by_cases hk : key = []
  · simp only [hk, ne_eq, not_true_eq_false, and_false, if_false, if_true, List.dropLast_eq_take,
      List.take_take, List.length_take]
    congr 1
    omega
  · simp only [hk, ne_eq, not_false_eq_true, and_self, if_true, if_false, List.dropLast_eq_take,
      List.take_take, List.length_take, List.length_append, List.length_singleton, Nat.add_zero]
    rw [List.take_append_of_le_length (by omega)]
    congr 1
    omega

end trail

section text

theorem isJsonWhitespace_iff (c : UInt8) :
    isJsonWhitespace c = true ↔ c = ch ' ' ∨ c = 0x0a ∨ c = 0x0d ∨ c = 0x09 := by
  simp [isJsonWhitespace, or_assoc]

theorem blockOf_body (n : Int) (raw s : Bytes) (h : IsStringBody raw) :
    blockOf n true (raw ++ ch '"' :: s) = raw ++ ch '"' :: blockOf n false s := by
  have hquote (s : Bytes) : blockOf n true (ch '"' :: s) = ch '"' :: blockOf n false s := by
    rw [blockOf_inStr n _ s (by decide)]
    rfl
  have hplain (c : UInt8) (hc : c ≠ ch '"') : (c != ch '"') = true := bne_iff_ne.mpr hc
  fun_induction IsStringBody raw with
  | case1 => exact hquote s
  | case2 c =>
    show blockOf n true (c :: ch '"' :: s) = _
    rw [blockOf_inStr n c _ h.2, hplain c h.1, hquote]
    rfl
  | case3 d t ih =>
    rw [List.cons_append, List.cons_append, blockOf_escape, List.take_one, List.drop_one,
      List.head?_cons, List.tail_cons, ih h]
    rfl
  | case4 c d t hc ih =>
    rw [List.cons_append, blockOf_inStr n c _ hc, hplain c h.1, ih h.2]
    rfl

/-- Bytes that a block neither starts nor ends with pass through. -/
theorem blockOf_plain (n : Int) (g s : Bytes) (h : Quiet g) :
    blockOf n false (g ++ s) = g ++ blockOf n false s := by
  induction g with
  | nil => rfl
  | cons c g ih =>
    have hc := h c (by simp)
    simp only [List.mem_cons, List.not_mem_nil, or_false, not_or] at hc
    rw [List.cons_append, blockOf, if_neg hc.1, if_neg (not_or.mpr ⟨hc.2.1, hc.2.2.1⟩),
      if_neg (not_or.mpr ⟨hc.2.2.2.1, hc.2.2.2.2⟩), ih fun d hd => h d (by simp [hd])]
    rfl

theorem blockOf_quoted (n : Int) (raw s : Bytes) (h : IsStringBody raw) :
    blockOf n false (ch '"' :: (raw ++ ch '"' :: s)) = ch '"' :: (raw ++ ch '"' :: blockOf n false s) := by
  rw [blockOf, if_pos rfl, blockOf_body n raw s h]

theorem blockOf_opening (n : Int) (curly : Bool) (s : Bytes) :
    blockOf n false (opening curly :: s) = opening curly :: blockOf (n + 1) false s := by
  cases curly
  · rw [blockOf, if_neg (by decide), if_pos (by decide)]
  · rw [blockOf, if_neg (by decide), if_pos (by decide)]

theorem blockOf_closing (n : Int) (curly : Bool) (s : Bytes) :
    blockOf n false (closing curly :: s) =
      if n - 1 = 0 then [closing curly] else closing curly :: blockOf (n - 1) false s := by
  cases curly
  · rw [blockOf, if_neg (by decide), if_neg (by decide), if_pos (by decide)]
  · rw [blockOf, if_neg (by decide), if_neg (by decide), if_pos (by decide)]

theorem primitive_plain (raw : Bytes) (h : IsPrimitive raw) : Quiet raw := by
  intro c hc hmem
  have := h.2 c hc
  simp only [List.mem_cons, List.not_mem_nil, or_false, not_or] at this hmem
  tauto

theorem blockOf_label (n : Int) (l : Label) (s : Bytes) (h : l.WFWith Quiet) :
    blockOf n false (l.text ++ s) = l.text ++ blockOf n false s := by
  obtain ⟨hkey, hbefore, hafter⟩ := h
  simp only [Label.text, List.cons_append, List.append_assoc]
  rw [blockOf_quoted n l.key _ hkey, blockOf_plain n l.before _ hbefore]
  have hcolon : blockOf n false (ch ':' :: (l.after ++ s)) = ch ':' :: blockOf n false (l.after ++ s) :=
    blockOf_plain n [ch ':'] _ fun c hc => by rw [List.mem_singleton.mp hc]; decide
  rw [hcolon, blockOf_plain n l.after _ hafter]

theorem blockOf_lead (n : Int) (curly : Bool) (sl : Slot) (s : Bytes)
    (h : sl.WFWith Quiet curly) : blockOf n false (sl.lead ++ s) = sl.lead ++ blockOf n false s := by
  obtain ⟨hbefore, -, -, hlabel⟩ := h
  simp only [Slot.lead, List.append_assoc]
  rw [blockOf_plain n sl.before _ hbefore]
  cases hl : sl.label with
  | none => rfl
  | some l =>
    simp only [Option.map_some, Option.getD_some]
    rw [blockOf_label n l s (hlabel l hl)]

theorem blockOf_trail (n : Int) (curly : Bool) (sl : Slot) (s : Bytes)
    (h : sl.WFWith Quiet curly) : blockOf n false (sl.trail ++ s) = sl.trail ++ blockOf n false s := by
  obtain ⟨-, hafter, -, -⟩ := h
  simp only [Slot.trail, List.append_assoc]
  rw [blockOf_plain n sl.after _ hafter]
  cases sl.comma with
  | false => rfl
  | true =>
    rw [if_pos rfl, blockOf_plain n [ch ','] s fun c hc => by rw [List.mem_singleton.mp hc]; decide]

mutual
/-- Inside a block, the text of a value is passed over. -/
theorem blockOf_doc (d : Doc) (hd : d.WFWith Quiet) (n : Int) (hn : 1 ≤ n) (s : Bytes) :
    blockOf n false (d.text ++ s) = d.text ++ blockOf n false s := by
  cases d with
  | scalar isString raw =>
    rw [Doc.WFWith] at hd
    rw [Doc.text]
    cases isString with
    | false => exact blockOf_plain n raw s (primitive_plain raw hd)
    | true => simpa using blockOf_quoted n raw s hd
  | block curly items gap =>
    rw [Doc.WFWith] at hd
    rw [Doc.text]
    simp only [List.cons_append, List.append_assoc, List.nil_append]
    rw [blockOf_opening, blockOf_items items curly hd.1 (n + 1) (by omega),
      blockOf_plain _ gap _ hd.2, blockOf_closing, if_neg (by omega),
      Int.add_sub_cancel]

theorem blockOf_items (items : List (Slot × Doc)) (curly : Bool) (hi : Doc.ItemsWFWith Quiet curly items)
    (n : Int) (hn : 1 ≤ n) (s : Bytes) :
    blockOf n false (Doc.itemsText items ++ s) = Doc.itemsText items ++ blockOf n false s := by
  match items with
  | [] => rfl
  | (sl, d) :: items =>
    rw [Doc.ItemsWFWith] at hi
    obtain ⟨hsl, hd, -, hrest⟩ := hi
    rw [Doc.itemsText]
    simp only [List.append_assoc]
    rw [blockOf_lead n curly sl _ hsl, blockOf_doc d hd n hn, blockOf_trail n curly sl _ hsl,
      blockOf_items items curly hrest n hn]
end

/-- The block that starts at a bracket is the value there, when no gap in it has quotes or brackets. -/
theorem blockOf_quiet (curly : Bool) (items : List (Slot × Doc)) (gap s : Bytes)
    (hd : (Doc.block curly items gap).WFWith Quiet) :
    blockOf 0 false ((Doc.block curly items gap).text ++ s) = (Doc.block curly items gap).text := by
  rw [Doc.WFWith] at hd
  rw [Doc.text]
  simp only [List.cons_append, List.append_assoc, List.nil_append]
  rw [blockOf_opening, blockOf_items items curly hd.1 _ (by omega),
    blockOf_plain _ gap _ hd.2, blockOf_closing, if_pos (by omega)]

theorem blockOf_block (curly : Bool) (items : List (Slot × Doc)) (gap s : Bytes)
    (hd : (Doc.block curly items gap).WF) :
    blockOf 0 false ((Doc.block curly items gap).text ++ s) = (Doc.block curly items gap).text :=
  blockOf_quiet curly items gap s (Doc.WFWith.mono (fun _ => IsGap.quiet) _ (Doc.WF.with _ hd))

end text

end Espbase.StackJson
