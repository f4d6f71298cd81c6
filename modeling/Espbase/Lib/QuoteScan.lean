import Espbase.Lib.CompactJson

namespace Espbase.Lib

/-- Where a scanner stands in a text with string literals: outside of them, inside, or behind a
backslash inside. -/
inductive Quote where
  | outside
  | inside
  | escaped
  deriving DecidableEq

namespace Quote

def next : Quote → UInt8 → Quote
  | outside, c => if c = ch '"' then inside else outside
  | inside, c => if c = ch '\\' then escaped else if c = ch '"' then outside else inside
  | escaped, _ => inside

def after (q : Quote) (s : Bytes) : Quote := s.foldl next q

@[simp] theorem after_nil (q : Quote) : q.after [] = q := rfl

@[simp] theorem after_cons (q : Quote) (c : UInt8) (s : Bytes) :
    q.after (c :: s) = (q.next c).after s := rfl

theorem after_append (q : Quote) (s t : Bytes) : q.after (s ++ t) = (q.after s).after t :=
  List.foldl_append

/-- Whether all bytes of the text stand inside a string literal. -/
def literal : Quote → Bytes → Bool
  | _, [] => true
  | q, c :: s => q != outside && literal (q.next c) s

theorem literal_append (q : Quote) (s t : Bytes) :
    q.literal (s ++ t) = (q.literal s && (q.after s).literal t) := by
  induction s generalizing q with
  | nil => rfl
  | cons c s ih => rw [List.cons_append, literal, literal, ih, after_cons, Bool.and_assoc]

theorem inside_escapeByte (c : UInt8) :
    inside.after (escapeByte c) = inside ∧ inside.literal (escapeByte c) = true := by
  revert c
  decide +kernel

/-- An escaped text is passed without leaving the literal. -/
theorem inside_escape (s : Bytes) :
    inside.after (escape s) = inside ∧ inside.literal (escape s) = true := by
  induction s with
  | nil => exact ⟨rfl, rfl⟩
  | cons c s ih =>
    obtain ⟨ha, hl⟩ := inside_escapeByte c
    rw [escape_cons, after_append, literal_append, ha, hl, Bool.true_and]
    exact ih

end Quote

def isSpace (c : UInt8) : Bool := c == ch ' ' || c == 0x0a || c == 0x0d || c == 0x09

/-- The text without the whitespace that stands outside string literals. -/
def unspaced : Quote → Bytes → Bytes
  | _, [] => []
  | q, c :: s => (if q = .outside ∧ isSpace c = true then [] else [c]) ++ unspaced (q.next c) s

theorem unspaced_append (q : Quote) (s t : Bytes) :
    unspaced q (s ++ t) = unspaced q s ++ unspaced (q.after s) t := by
  induction s generalizing q with
  | nil => rfl
  | cons c s ih => rw [List.cons_append, unspaced, unspaced, ih, Quote.after_cons, List.append_assoc]

theorem isSpace_next (c : UInt8) (h : isSpace c = true) : Quote.outside.next c = .outside := by
  apply if_neg
  rintro rfl
  exact absurd h (by decide)

/-- Spaces between tokens leave no trace. -/
theorem unspaced_spaces (s : Bytes) (h : ∀ c ∈ s, isSpace c = true) :
    unspaced .outside s = [] ∧ Quote.outside.after s = .outside := by
  induction s with
  | nil => exact ⟨rfl, rfl⟩
  | cons c s ih =>
    have hc := h c (by simp)
    have hnext : Quote.outside.next c = .outside := isSpace_next c hc
    obtain ⟨hu, ha⟩ := ih fun d hd => h d (List.mem_cons_of_mem _ hd)
    rw [unspaced, Quote.after_cons, hnext, hu, if_pos ⟨rfl, hc⟩]
    exact ⟨rfl, ha⟩

/-- A text between tokens that has no whitespace outside its string literals and closes them all. -/
structure Solid (s : Bytes) : Prop where
  unspaced : unspaced .outside s = s
  closed : Quote.outside.after s = .outside

theorem Solid.nil : Solid [] := ⟨rfl, rfl⟩

theorem Solid.append {s t : Bytes} (hs : Solid s) (ht : Solid t) : Solid (s ++ t) :=
  ⟨by rw [unspaced_append, hs.unspaced, hs.closed, ht.unspaced],
    by rw [Quote.after_append, hs.closed, ht.closed]⟩

/-- Bytes that are neither whitespace nor quotes. -/
theorem Solid.of_forall {s : Bytes} (h : ∀ c ∈ s, isSpace c = false ∧ c ≠ ch '"') : Solid s := by
  induction s with
  | nil => exact Solid.nil
  | cons c s ih =>
    obtain ⟨hc, hq⟩ := h c (by simp)
    have hone : Solid [c] := ⟨by simp [Espbase.Lib.unspaced, hc], by simp [Quote.next, hq]⟩
    exact hone.append (ih fun d hd => h d (List.mem_cons_of_mem _ hd))

/-- Nothing is removed inside a literal. -/
theorem unspaced_literal (q : Quote) (s : Bytes) (h : q.literal s = true) : unspaced q s = s := by
  induction s generalizing q with
  | nil => rfl
  | cons c s ih =>
    rw [Quote.literal, Bool.and_eq_true, bne_iff_ne] at h
    rw [unspaced, if_neg fun hs => h.1 hs.1, ih _ h.2]
    rfl

theorem Solid.stringLiteral (s : Bytes) : Solid (stringLiteral s) := by
  have hopen : Quote.outside.after [ch '"'] = .inside := rfl
  have hclose : Quote.inside.after [ch '"'] = .outside := rfl
  obtain ⟨hbody, hlit⟩ := Quote.inside_escape s
  rw [Lib.stringLiteral, ← List.singleton_append, List.append_assoc]
  constructor
  · rw [unspaced_append, unspaced_append, hopen, unspaced_literal _ _ hlit, hbody]
    rfl
  · rw [Quote.after_append, Quote.after_append, hopen, hbody, hclose]

theorem Solid.flatMap {α : Type} {f : α → Bytes} {xs : List α} (h : ∀ x ∈ xs, Solid (f x)) :
    Solid (xs.flatMap f) := by
  induction xs with
  | nil => exact Solid.nil
  | cons x xs ih =>
    exact (h x (by simp)).append (ih fun y hy => h y (List.mem_cons_of_mem _ hy))

theorem Solid.commaSep {ws : List Bytes} (h : ∀ w ∈ ws, Solid w) : Solid (commaSep ws) := by
  have hcomma : Solid [ch ','] := ⟨rfl, rfl⟩
  cases ws with
  | nil => exact Solid.nil
  | cons w ws =>
    rw [commaSep_cons]
    exact (h w (by simp)).append
      (Solid.flatMap fun u hu => hcomma.append (h u (List.mem_cons_of_mem _ hu)))

theorem Solid.arrayText {ws : List Bytes} (h : ∀ w ∈ ws, Solid w) : Solid (arrayText ws) := by
  have hopen : Solid [ch '['] := ⟨rfl, rfl⟩
  have hclose : Solid [ch ']'] := ⟨rfl, rfl⟩
  exact (hopen.append (Solid.commaSep h)).append hclose

mutual
/-- Compact texts of trees have no whitespace of their own. -/
theorem Solid.treeText {α : Type} (f : α → Bytes) : (t : KeyTree Bytes α) →
    (∀ a ∈ t.leaves, Solid (f a)) → Solid (treeText (t.map f))
  | .leaf a, h => h a (by simp [KeyTree.leaves])
  | .node ms, h => by
    have hopen : Solid [ch '{'] := ⟨rfl, rfl⟩
    have hclose : Solid [ch '}'] := ⟨rfl, rfl⟩
    exact (hopen.append (Solid.commaSep (Solid.memberTexts f ms h))).append hclose

theorem Solid.memberTexts {α : Type} (f : α → Bytes) : (ms : List (Bytes × KeyTree Bytes α)) →
    (∀ a ∈ KeyTree.leavesOf ms, Solid (f a)) → ∀ w ∈ memberTexts (KeyTree.mapOf f ms), Solid w
  | [], _ => by simp [KeyTree.mapOf, Lib.memberTexts]
  | (k, t) :: ms, h => by
    intro w hw
    have hcolon : Solid [ch ':'] := ⟨rfl, rfl⟩
    rw [KeyTree.leavesOf] at h
    rcases List.mem_cons.mp hw with rfl | hw
    · have ht := Solid.treeText f t fun a ha => h a (List.mem_append_left _ ha)
      exact (Solid.stringLiteral k).append (hcolon.append ht)
    · exact Solid.memberTexts f ms (fun a ha => h a (List.mem_append_right _ ha)) w hw
end

end Espbase.Lib
