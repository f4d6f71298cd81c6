import Espbase.Lib.Bytes

namespace Espbase.Lib

/-- Whitespace between the tokens of a JSON text. -/
def IsGap (s : Bytes) : Prop := ∀ c ∈ s, c = ch ' ' ∨ c = 0x0a ∨ c = 0x0d ∨ c = 0x09

theorem IsGap.nil : IsGap [] := nofun

/-- What may stand between the quotes of a string: no quote and no backslash without the byte that it
escapes. -/
def IsStringBody : Bytes → Prop
  | [] => True
  | [c] => c ≠ ch '"' ∧ c ≠ ch '\\'
  | c :: d :: s => if c = ch '\\' then IsStringBody s else c ≠ ch '"' ∧ IsStringBody (d :: s)

instance decidableStringBody : (s : Bytes) → Decidable (IsStringBody s)
  | [] => .isTrue trivial
  | [c] => inferInstanceAs (Decidable (c ≠ ch '"' ∧ c ≠ ch '\\'))
  | c :: d :: s =>
    have := decidableStringBody s
    have := decidableStringBody (d :: s)
    inferInstanceAs (Decidable (if c = ch '\\' then IsStringBody s else c ≠ ch '"' ∧ IsStringBody (d :: s)))

theorem isStringBody_of_plain (s : Bytes) (h : ∀ c ∈ s, c ≠ ch '"' ∧ c ≠ ch '\\') : IsStringBody s := by
  fun_induction IsStringBody s with
  | case1 => trivial
  | case2 c => exact h c (by simp)
  | case3 d s ih => exact absurd rfl (h _ (by simp)).2
  | case4 c d s hc ih => exact ⟨(h c (by simp)).1, ih fun e he => h e (List.mem_cons_of_mem _ he)⟩

theorem isStringBody_append (s t : Bytes) (hs : IsStringBody s) (ht : IsStringBody t) :
    IsStringBody (s ++ t) := by
  fun_induction IsStringBody s with
  | case1 => exact ht
  | case2 c =>
    cases t with
    | nil => exact hs
    | cons d t =>
      show IsStringBody (c :: d :: t)
      rw [IsStringBody, if_neg hs.2]
      exact ⟨hs.1, ht⟩
  | case3 d s ih =>
    rw [List.cons_append, List.cons_append, IsStringBody, if_pos rfl]
    exact ih hs
  | case4 c d s hc ih =>
    rw [List.cons_append, List.cons_append, IsStringBody, if_neg hc]
    exact ⟨hs.1, ih hs.2⟩

/-- A number, `true`, `false` or `null`: any bytes but whitespace and the marks of JSON. -/
def IsPrimitive (s : Bytes) : Prop :=
  s ≠ [] ∧ ∀ c ∈ s, c ∉ [ch ' ', 0x0a, 0x0d, 0x09, ch ',', ch '}', ch ']', ch '{', ch '[', ch '"',
    ch ':', ch '/']

/-- The key of a member as it is written, and the gaps around its colon. -/
structure Label where
  key : Bytes
  before : Bytes
  after : Bytes

/-- What stands around a value in a container: gaps, the key in an object, and whether a comma follows.
A comma may follow the last value. -/
structure Slot where
  before : Bytes
  label : Option Label
  after : Bytes
  comma : Bool

/-- A JSON document with its layout. A curly block is an object, any other an array. -/
inductive Doc where
  | scalar (isString : Bool) (raw : Bytes)
  | block (curly : Bool) (items : List (Slot × Doc)) (gap : Bytes)

/-- The types of JSON values. -/
inductive JsonKind where
  | null
  | string
  | array
  | object
  | boolean
  | number
deriving DecidableEq

def opening (curly : Bool) : UInt8 := if curly then ch '{' else ch '['

def closing (curly : Bool) : UInt8 := if curly then ch '}' else ch ']'

namespace Label

def text (l : Label) : Bytes := ch '"' :: (l.key ++ ch '"' :: (l.before ++ ch ':' :: l.after))

def WF (l : Label) : Prop := IsStringBody l.key ∧ IsGap l.before ∧ IsGap l.after

end Label

namespace Slot

/-- The place of a member in a text without gaps. -/
def compact (key : Bytes) (comma : Bool) : Slot := ⟨[], some ⟨key, [], []⟩, [], comma⟩

/-- The key of the value; there is none in an array. -/
def key (s : Slot) : Bytes := (s.label.map Label.key).getD []

def lead (s : Slot) : Bytes := s.before ++ (s.label.map Label.text).getD []

def trail (s : Slot) : Bytes := s.after ++ if s.comma then [ch ','] else []

def WF (curly : Bool) (s : Slot) : Prop :=
  IsGap s.before ∧ IsGap s.after ∧ s.label.isSome = curly ∧ ∀ l, s.label = some l → l.WF

@[simp] theorem compact_key (key : Bytes) (comma : Bool) : (compact key comma).key = key := rfl

theorem compact_wf (key : Bytes) (comma : Bool) (h : IsStringBody key) : (compact key comma).WF true := by
  refine ⟨.nil, .nil, rfl, ?_⟩
  intro l hl
  obtain rfl := Option.some.inj hl
  exact ⟨h, .nil, .nil⟩

theorem WF.key_nil {s : Slot} (h : s.WF false) : s.key = [] := by
  obtain ⟨-, -, hlabel, -⟩ := h
  simp only [Option.isSome_eq_false_iff, Option.isNone_iff_eq_none] at hlabel
  rw [key, hlabel]
  rfl

end Slot

namespace Doc

mutual
/-- Induction over a document: what holds of a block may use what holds of the values in it. -/
@[elab_as_elim, induction_eliminator]
theorem induct {p : Doc → Prop} (scalar : ∀ isString raw, p (.scalar isString raw))
    (block : ∀ curly items gap, (∀ m ∈ items, p m.2) → p (.block curly items gap)) : ∀ d, p d
  | .scalar isString raw => scalar isString raw
  | .block curly items gap => block curly items gap (inductItems scalar block items)

theorem inductItems {p : Doc → Prop} (scalar : ∀ isString raw, p (.scalar isString raw))
    (block : ∀ curly items gap, (∀ m ∈ items, p m.2) → p (.block curly items gap)) :
    ∀ items : List (Slot × Doc), ∀ m ∈ items, p m.2
  | [], _, hm => nomatch hm
  | (_, d) :: items, m, hm =>
    (List.mem_cons.mp hm).elim (fun h => h ▸ induct scalar block d) (inductItems scalar block items m)
end

mutual
def text : Doc → Bytes
  | .scalar isString raw => if isString then ch '"' :: (raw ++ [ch '"']) else raw
  | .block curly items gap => opening curly :: (itemsText items ++ (gap ++ [closing curly]))

def itemsText : List (Slot × Doc) → Bytes
  | [] => []
  | (s, d) :: items => s.lead ++ (d.text ++ (s.trail ++ itemsText items))
end

mutual
/-- Values are separated by commas, and exactly the values of objects have keys. -/
def WF : Doc → Prop
  | .scalar isString raw => if isString then IsStringBody raw else IsPrimitive raw
  | .block curly items gap => ItemsWF curly items ∧ IsGap gap

def ItemsWF (curly : Bool) : List (Slot × Doc) → Prop
  | [] => True
  | (s, d) :: items => s.WF curly ∧ d.WF ∧ (items ≠ [] → s.comma = true) ∧ ItemsWF curly items
end

mutual
/-- Whether a predicate holds of the document and of every value in it. -/
def All (p : Doc → Prop) : Doc → Prop
  | .scalar isString raw => p (.scalar isString raw)
  | .block curly items gap => p (.block curly items gap) ∧ AllItems p items

def AllItems (p : Doc → Prop) : List (Slot × Doc) → Prop
  | [] => True
  | (_, d) :: items => d.All p ∧ AllItems p items
end

def isObject : Doc → Bool
  | .block true _ _ => true
  | _ => false

def isBlock : Doc → Bool
  | .block _ _ _ => true
  | .scalar _ _ => false

def isString : Doc → Bool
  | .scalar isString _ => isString
  | .block _ _ _ => false

/-- The characters of a string without its quotes, the text of any other value. -/
def content : Doc → Bytes
  | .scalar _ raw => raw
  | .block curly items gap => (Doc.block curly items gap).text

def kind : Doc → JsonKind
  | .scalar true _ => .string
  | .scalar false raw =>
    if raw = bytes "null" then .null
    else if raw = bytes "true" ∨ raw = bytes "false" then .boolean
    else .number
  | .block true _ _ => .object
  | .block false _ _ => .array

/-- No object stands in the document, and it is none. -/
def ObjectFree (d : Doc) : Prop := d.All fun d => d.isObject = false

def ObjectFreeItems (items : List (Slot × Doc)) : Prop := AllItems (fun d => d.isObject = false) items

/-- An object with different, non-empty keys, an array that holds no object, or a scalar. -/
def PlainHere : Doc → Prop
  | .scalar _ _ => True
  | .block true items _ => (items.map fun m => m.1.key).Nodup ∧ ∀ m ∈ items, m.1.key ≠ []
  | .block false items _ => ObjectFreeItems items

def Plain (d : Doc) : Prop := d.All PlainHere

/-- All members of objects have keys that are not empty. -/
def Keyed (d : Doc) : Prop :=
  d.All fun
    | .block true items _ => ∀ m ∈ items, m.1.key ≠ []
    | _ => True

/-- No array in the document holds an object. -/
def Sealed (d : Doc) : Prop :=
  d.All fun
    | .block false items _ => ObjectFreeItems items
    | _ => True

/-- The values that the members of an object lead to through objects, with their paths. -/
inductive MemberAt : List (Slot × Doc) → List Bytes → Doc → Prop where
  | here {items : List (Slot × Doc)} {s : Slot} {d : Doc} (h : (s, d) ∈ items) :
    MemberAt items [s.key] d
  | inside {items : List (Slot × Doc)} {s : Slot} {ms : List (Slot × Doc)} {gap : Bytes}
    {path : List Bytes} {d : Doc} (h : (s, .block true ms gap) ∈ items) (hm : MemberAt ms path d) :
    MemberAt items (s.key :: path) d

def HasMember : Doc → List Bytes → Doc → Prop
  | .block true items _, path, d => MemberAt items path d
  | _, _, _ => False

theorem all_of_mem {p : Doc → Prop} {items : List (Slot × Doc)} (h : AllItems p items) {s : Slot}
    {d : Doc} (hm : (s, d) ∈ items) : d.All p := by
  induction items with
  | nil => cases hm
  | cons m items ih =>
    obtain ⟨s', d'⟩ := m
    rw [AllItems] at h
    rcases List.mem_cons.mp hm with heq | hm
    · rw [Prod.mk.injEq] at heq
      exact heq.2 ▸ h.1
    · exact ih h.2 hm

mutual
theorem All.mono {p q : Doc → Prop} (h : ∀ d, p d → q d) : (d : Doc) → d.All p → d.All q
  | .scalar _ _, hd => h _ hd
  | .block _ items _, hd => ⟨h _ hd.1, AllItems.mono h items hd.2⟩

theorem AllItems.mono {p q : Doc → Prop} (h : ∀ d, p d → q d) :
    (items : List (Slot × Doc)) → AllItems p items → AllItems q items
  | [], _ => trivial
  | (_, d) :: items, hi => ⟨All.mono h d hi.1, AllItems.mono h items hi.2⟩
end

theorem allItems_of_forall {p : Doc → Prop} {items : List (Slot × Doc)} (h : ∀ m ∈ items, m.2.All p) :
    AllItems p items := by
  induction items with
  | nil => trivial
  | cons m items ih => exact ⟨h m (by simp), ih fun m hm => h m (by simp [hm])⟩

theorem Plain.keyed {d : Doc} (h : d.Plain) : d.Keyed :=
  h.mono fun d hd => by
    match d with
    | .scalar _ _ => trivial
    | .block true _ _ => exact hd.2
    | .block false _ _ => trivial

theorem Plain.sealed {d : Doc} (h : d.Plain) : d.Sealed :=
  h.mono fun d hd => by
    match d with
    | .scalar _ _ => trivial
    | .block true _ _ => trivial
    | .block false _ _ => exact hd

theorem wf_of_mem {curly : Bool} {items : List (Slot × Doc)} (h : ItemsWF curly items) {s : Slot}
    {d : Doc} (hm : (s, d) ∈ items) : s.WF curly ∧ d.WF := by
  induction items with
  | nil => cases hm
  | cons m items ih =>
    obtain ⟨s', d'⟩ := m
    rw [ItemsWF] at h
    rcases List.mem_cons.mp hm with heq | hm
    · rw [Prod.mk.injEq] at heq
      exact heq.1 ▸ heq.2 ▸ ⟨h.1, h.2.1⟩
    · exact ih h.2.2.2 hm

theorem wf_of_memberAt {items : List (Slot × Doc)} {path : List Bytes} {d : Doc}
    (hm : MemberAt items path d) (h : ItemsWF true items) : d.WF := by
  induction hm with
  | here hmem => exact (wf_of_mem h hmem).2
  | inside hmem _ ih => exact ih (wf_of_mem h hmem).2.1

/-- Only an object has members. -/
theorem HasMember.eq_object {root : Doc} {path : List Bytes} {d : Doc} (hm : root.HasMember path d) :
    ∃ items gap, root = .block true items gap := by
  match root with
  | .block true items gap => exact ⟨items, gap, rfl⟩
  | .block false items gap => exact hm.elim
  | .scalar isString raw => exact hm.elim

theorem wf_of_member {root : Doc} {path : List Bytes} {d : Doc} (h : root.WF)
    (hm : root.HasMember path d) : d.WF := by
  obtain ⟨items, gap, rfl⟩ := hm.eq_object
  exact wf_of_memberAt hm h.1

theorem all_head {p : Doc → Prop} {d : Doc} (h : d.All p) : p d := by
  cases d with
  | scalar isString raw => exact h
  | block curly items gap => exact h.1

end Doc

/-- A whole JSON text. -/
structure JsonText where
  before : Bytes
  root : Doc
  after : Bytes
  before_gap : IsGap before
  after_gap : IsGap after
  root_wf : root.WF

def JsonText.text (j : JsonText) : Bytes := j.before ++ (j.root.text ++ j.after)

end Espbase.Lib
