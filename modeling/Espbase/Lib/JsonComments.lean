import Espbase.Lib.JsonDoc

namespace Espbase.Lib

/-- Whitespace and comments between the tokens of a text. A line comment goes up to its newline, any
other one up to the first end mark behind its start. -/
inductive IsCommentGap : Bytes → Prop where
  | nil : IsCommentGap []
  | space {c : UInt8} {s : Bytes} (hc : IsGap [c]) (hs : IsCommentGap s) : IsCommentGap (c :: s)
  | line {body s : Bytes} (hbody : 0x0a ∉ body) (hs : IsCommentGap s) :
    IsCommentGap (ch '/' :: ch '/' :: (body ++ 0x0a :: s))
  | block {body s : Bytes} (hbody : ¬ [ch '*', ch '/'] <:+: body) (hs : IsCommentGap s) :
    IsCommentGap (ch '/' :: ch '*' :: (body ++ ch '*' :: ch '/' :: s))

/-- No quotes and no brackets. -/
def Quiet (g : Bytes) : Prop := ∀ c ∈ g, c ∉ [ch '"', ch '{', ch '[', ch '}', ch ']']

theorem IsGap.quiet {g : Bytes} (h : IsGap g) : Quiet g := by
  intro c hc
  rcases h c hc with rfl | rfl | rfl | rfl <;> decide

/-- Where the reader of a gap stands: outside of comments, or inside one of either kind. -/
inductive Comment | outside | line | block

/-- A gap with one space in the place of every comment. -/
def bareGap : Comment → Bytes → Bytes
  | _, [] => []
  | .line, c :: s => if c = 0x0a then c :: bareGap .outside s else bareGap .line s
  | .block, [_] => []
  | .block, c :: d :: s =>
    if c = ch '*' ∧ d = ch '/' then bareGap .outside s else bareGap .block (d :: s)
  | .outside, [c] => [c]
  | .outside, c :: d :: s =>
    if c = ch '/' ∧ d = ch '/' then ch ' ' :: bareGap .line s
    else if c = ch '/' ∧ d = ch '*' then ch ' ' :: bareGap .block s
    else c :: bareGap .outside (d :: s)

section bareGap

theorem isGap_ne_slash {c : UInt8} (h : IsGap [c]) : c ≠ ch '/' := by
  rcases h c (by simp) with rfl | rfl | rfl | rfl <;> decide

theorem bareGap_space (c : UInt8) (s : Bytes) (hc : IsGap [c]) :
    bareGap .outside (c :: s) = c :: bareGap .outside s := by
  have hne := isGap_ne_slash hc
  cases s with
  | nil => simp [bareGap]
  | cons d s => rw [bareGap, if_neg fun h => hne h.1, if_neg fun h => hne h.1]

theorem bareGap_line (body s : Bytes) (hbody : 0x0a ∉ body) :
    bareGap .line (body ++ 0x0a :: s) = 0x0a :: bareGap .outside s := by
  induction body with
  | nil => rw [List.nil_append, bareGap, if_pos rfl]
  | cons c body ih =>
    rw [List.mem_cons, not_or] at hbody
    rw [List.cons_append, bareGap, if_neg (Ne.symm hbody.1), ih hbody.2]

/-- The end mark does not start inside a comment without one. -/
theorem block_end_next {c : UInt8} {body : Bytes} (h : ¬ [ch '*', ch '/'] <:+: c :: body) (s : Bytes) :
    ∃ d t, body ++ ch '*' :: ch '/' :: s = d :: t ∧ ¬ (c = ch '*' ∧ d = ch '/') ∧
      ¬ [ch '*', ch '/'] <:+: body := by
  have hrest : ¬ [ch '*', ch '/'] <:+: body := fun hi => h (hi.trans (List.suffix_cons c body).isInfix)
  cases body with
  | nil => exact ⟨ch '*', _, rfl, by rintro ⟨-, h⟩; exact absurd h (by decide), hrest⟩
  | cons d body =>
    refine ⟨d, _, rfl, ?_, hrest⟩
    rintro ⟨rfl, rfl⟩
    exact h (List.prefix_append [_, _] body).isInfix

theorem bareGap_block (body s : Bytes) (hbody : ¬ [ch '*', ch '/'] <:+: body) :
    bareGap .block (body ++ ch '*' :: ch '/' :: s) = bareGap .outside s := by
  induction body with
  | nil => rw [List.nil_append, bareGap, if_pos ⟨rfl, rfl⟩]
  | cons c body ih =>
    obtain ⟨d, t, ht, hend, hrest⟩ := block_end_next hbody s
    rw [List.cons_append, ht, bareGap, if_neg hend, ← ht, ih hrest]

theorem IsGap.cons {c : UInt8} {s : Bytes} (hc : IsGap [c]) (hs : IsGap s) : IsGap (c :: s) := by
  intro d hd
  rcases List.mem_cons.mp hd with rfl | hd
  · exact hc d (by simp)
  · exact hs d hd

theorem IsCommentGap.bare {s : Bytes} (h : IsCommentGap s) : IsGap (bareGap .outside s) := by
  have hspace : IsGap [ch ' '] := fun c hc => .inl (List.mem_singleton.mp hc)
  induction h with
  | nil => exact nofun
  | space hc _ ih =>
    rw [bareGap_space _ _ hc]
    exact hc.cons ih
  | line hbody _ ih =>
    rw [bareGap, if_pos ⟨rfl, rfl⟩, bareGap_line _ _ hbody]
    exact hspace.cons (IsGap.cons (fun c hc => .inr (.inl (List.mem_singleton.mp hc))) ih)
  | block hbody _ ih =>
    rw [bareGap, if_neg (by decide), if_pos ⟨rfl, rfl⟩, bareGap_block _ _ hbody]
    exact hspace.cons ih

theorem IsGap.commentGap {s : Bytes} (h : IsGap s) : IsCommentGap s := by
  induction s with
  | nil => exact .nil
  | cons c s ih =>
    refine .space ?_ (ih fun d hd => h d (by simp [hd]))
    intro d hd
    rw [List.mem_singleton.mp hd]
    exact h c (by simp)

end bareGap

section gaps
variable (gap : Bytes → Prop)

def Label.WFWith (l : Label) : Prop := IsStringBody l.key ∧ gap l.before ∧ gap l.after

def Slot.WFWith (curly : Bool) (s : Slot) : Prop :=
  gap s.before ∧ gap s.after ∧ s.label.isSome = curly ∧ ∀ l, s.label = some l → l.WFWith gap

mutual
/-- Well-formed documents with other gaps between the tokens. -/
def Doc.WFWith : Doc → Prop
  | .scalar isString raw => if isString then IsStringBody raw else IsPrimitive raw
  | .block curly items g => Doc.ItemsWFWith curly items ∧ gap g

def Doc.ItemsWFWith (curly : Bool) : List (Slot × Doc) → Prop
  | [] => True
  | (s, d) :: items =>
    s.WFWith gap curly ∧ d.WFWith ∧ (items ≠ [] → s.comma = true) ∧ Doc.ItemsWFWith curly items
end

mutual
theorem Doc.WFWith.mono {p q : Bytes → Prop} (hpq : ∀ g, p g → q g) :
    (d : Doc) → d.WFWith p → d.WFWith q
  | .scalar _ _, h => h
  | .block curly items g, h => ⟨Doc.ItemsWFWith.mono hpq curly items h.1, hpq g h.2⟩

theorem Doc.ItemsWFWith.mono {p q : Bytes → Prop} (hpq : ∀ g, p g → q g) (curly : Bool) :
    (items : List (Slot × Doc)) → Doc.ItemsWFWith p curly items → Doc.ItemsWFWith q curly items
  | [], _ => trivial
  | (_, d) :: items, ⟨⟨hbefore, hafter, hsome, hlabel⟩, hd, hcomma, hrest⟩ =>
    ⟨⟨hpq _ hbefore, hpq _ hafter, hsome, fun l hl =>
        ⟨(hlabel l hl).1, hpq _ (hlabel l hl).2.1, hpq _ (hlabel l hl).2.2⟩⟩,
      Doc.WFWith.mono hpq d hd, hcomma, Doc.ItemsWFWith.mono hpq curly items hrest⟩
end

mutual
theorem Doc.WF.with : (d : Doc) → d.WF → d.WFWith IsGap
  | .scalar _ _, h => h
  | .block curly items _, h => ⟨Doc.ItemsWF.with curly items h.1, h.2⟩

theorem Doc.ItemsWF.with (curly : Bool) :
    (items : List (Slot × Doc)) → Doc.ItemsWF curly items → Doc.ItemsWFWith IsGap curly items
  | [], _ => trivial
  | (_, d) :: items, h => ⟨h.1, Doc.WF.with d h.2.1, h.2.2.1, Doc.ItemsWF.with curly items h.2.2.2⟩
end

variable {gap}

theorem Slot.WFWith.key_nil {s : Slot} (h : s.WFWith gap false) : s.key = [] := by
  obtain ⟨-, -, hlabel, -⟩ := h
  simp only [Option.isSome_eq_false_iff, Option.isNone_iff_eq_none] at hlabel
  rw [Slot.key, hlabel]
  rfl

theorem Doc.wfWith_of_mem {curly : Bool} {items : List (Slot × Doc)} (h : ItemsWFWith gap curly items)
    {s : Slot} {d : Doc} (hm : (s, d) ∈ items) : s.WFWith gap curly ∧ d.WFWith gap := by
  induction items with
  | nil => cases hm
  | cons m items ih =>
    obtain ⟨s', d'⟩ := m
    rw [ItemsWFWith] at h
    rcases List.mem_cons.mp hm with heq | hm
    · rw [Prod.mk.injEq] at heq
      exact heq.1 ▸ heq.2 ▸ ⟨h.1, h.2.1⟩
    · exact ih h.2.2.2 hm

end gaps

/-- Whether the document is a number, `true`, `false` or `null`. -/
def Doc.isPrimitive : Doc → Bool
  | .scalar false _ => true
  | _ => false

mutual
/-- No comment stands directly behind a number, `true`, `false` or `null` in the document. -/
def Doc.Spaced : Doc → Prop
  | .scalar _ _ => True
  | .block _ items gap => Doc.ItemsSpaced gap items

/-- The same for the values of a container with a gap in front of its closing bracket. -/
def Doc.ItemsSpaced (gap : Bytes) : List (Slot × Doc) → Prop
  | [] => True
  | (s, d) :: items =>
    (d.isPrimitive = true → (s.trail ++ gap).head? ≠ some (ch '/')) ∧ d.Spaced ∧
      Doc.ItemsSpaced gap items
end

def Label.bare (l : Label) : Label := ⟨l.key, bareGap .outside l.before, bareGap .outside l.after⟩

def Slot.bare (s : Slot) : Slot :=
  ⟨bareGap .outside s.before, s.label.map Label.bare, bareGap .outside s.after, s.comma⟩

mutual
/-- The document with one space in the place of every comment. -/
def Doc.bare : Doc → Doc
  | .scalar isString raw => .scalar isString raw
  | .block curly items gap => .block curly (Doc.bareItems items) (bareGap .outside gap)

def Doc.bareItems : List (Slot × Doc) → List (Slot × Doc)
  | [] => []
  | (s, d) :: items => (s.bare, d.bare) :: Doc.bareItems items
end

@[simp] theorem Slot.bare_key (s : Slot) : s.bare.key = s.key := by
  obtain ⟨before, label, after, comma⟩ := s
  cases label <;> rfl

@[simp] theorem Doc.bareItems_eq_nil (items : List (Slot × Doc)) : bareItems items = [] ↔ items = [] := by
  cases items <;> simp [bareItems]

mutual
theorem Doc.bare_wf : (d : Doc) → d.WFWith IsCommentGap → d.bare.WF
  | .scalar _ _, h => h
  | .block curly items _, h => ⟨Doc.bareItems_wf curly items h.1, h.2.bare⟩

theorem Doc.bareItems_wf (curly : Bool) : (items : List (Slot × Doc)) →
    Doc.ItemsWFWith IsCommentGap curly items → Doc.ItemsWF curly (Doc.bareItems items)
  | [], _ => trivial
  | (s, d) :: items, ⟨⟨hbefore, hafter, hsome, hlabel⟩, hd, hcomma, hrest⟩ => by
    refine ⟨⟨hbefore.bare, hafter.bare, ?_, ?_⟩, Doc.bare_wf d hd, ?_,
      Doc.bareItems_wf curly items hrest⟩
    · rw [← hsome, Slot.bare, Option.isSome_map]
    · intro l hl
      obtain ⟨l', hl', rfl⟩ := Option.map_eq_some_iff.mp hl
      obtain ⟨hkey, hb, ha⟩ := hlabel l' hl'
      exact ⟨hkey, hb.bare, ha.bare⟩
    · intro hne
      exact hcomma fun h => hne ((Doc.bareItems_eq_nil items).mpr h)
end

/-- A whole JSON text with comments. A line comment at its end needs no newline. -/
structure CommentText where
  before : Bytes
  root : Doc
  after : Bytes
  lastLine : Option Bytes
  before_gap : IsCommentGap before
  after_gap : IsCommentGap after
  root_wf : root.WFWith IsCommentGap
  lastLine_body : ∀ body, lastLine = some body → 0x0a ∉ body

namespace CommentText

theorem no_lastLine (body : Bytes) (h : (none : Option Bytes) = some body) : 0x0a ∉ body := by
  cases h

/-- What follows the root. -/
def tail (j : CommentText) : Bytes :=
  j.after ++ (j.lastLine.map fun body => ch '/' :: ch '/' :: body).getD []

def text (j : CommentText) : Bytes := j.before ++ (j.root.text ++ j.tail)

/-- No comment stands directly behind a number, `true`, `false` or `null`. -/
def Spaced (j : CommentText) : Prop :=
  (j.root.isPrimitive = true → j.tail.head? ≠ some (ch '/')) ∧ j.root.Spaced

/-- The text with one space in the place of every comment. -/
def bare (j : CommentText) : JsonText where
  before := bareGap .outside j.before
  root := j.root.bare
  after := bareGap .outside j.after ++ if j.lastLine.isSome then [ch ' '] else []
  before_gap := j.before_gap.bare
  after_gap := by
    intro c hc
    rcases List.mem_append.mp hc with hc | hc
    · exact j.after_gap.bare c hc
    · split_ifs at hc
      · exact .inl (List.mem_singleton.mp hc)
      · cases hc
  root_wf := j.root.bare_wf j.root_wf

end CommentText

/-- A text without comments. -/
def JsonText.commented (j : JsonText) : CommentText where
  before := j.before
  root := j.root
  after := j.after
  lastLine := none
  before_gap := j.before_gap.commentGap
  after_gap := j.after_gap.commentGap
  root_wf := Doc.WFWith.mono (fun _ => IsGap.commentGap) j.root (Doc.WF.with j.root j.root_wf)
  lastLine_body := CommentText.no_lastLine

theorem JsonText.commented_tail (j : JsonText) : j.commented.tail = j.after := List.append_nil j.after

theorem JsonText.commented_text (j : JsonText) : j.commented.text = j.text := by
  rw [CommentText.text, commented_tail]
  rfl

end Espbase.Lib
