import Espbase.Lib.JsonComments
import Espbase.StackJson.DocLookups

namespace Espbase.StackJson

open Espbase.Lib

mutual
/-- The lookups of a value in a text that goes on with `rest`. A block is taken from the text without
regard to comments. -/
def docReads (trail : List Bytes) (key : Bytes) : Doc → Bytes → List Lookup
  | .scalar isString raw, _ => [⟨trail, key, false, raw, isString⟩]
  | .block curly items gap, rest =>
    ⟨trail, key, true, blockOf 0 false ((Doc.block curly items gap).text ++ rest), false⟩ ::
      itemReads (enterTrail trail key curly) items (gap ++ closing curly :: rest)

def itemReads (trail : List Bytes) : List (Slot × Doc) → Bytes → List Lookup
  | [], _ => []
  | (s, d) :: items, rest =>
    docReads trail s.key d (s.trail ++ (Doc.itemsText items ++ rest)) ++
      itemReads (cutTrail trail (docPops s.key d)) items rest
end

section gaps

theorem skipGap_line (body s : Bytes) (h : 0x0a ∉ body) :
    skipGap .line (body ++ 0x0a :: s) = skipGap .normal s := by
  induction body with
  | nil => rw [List.nil_append, skipGap, if_pos rfl]
  | cons c body ih =>
    rw [List.mem_cons, not_or] at h
    rw [List.cons_append, skipGap, if_neg (Ne.symm h.1), ih h.2]

theorem skipGap_block (body s : Bytes) (h : ¬ [ch '*', ch '/'] <:+: body) :
    skipGap .comment (body ++ ch '*' :: ch '/' :: s) = skipGap .normal s := by
  induction body with
  | nil => rw [List.nil_append, skipGap, if_pos ⟨rfl, rfl⟩]
  | cons c body ih =>
    obtain ⟨d, t, ht, hend, hrest⟩ := block_end_next h s
    rw [List.cons_append, ht, skipGap, if_neg hend, ← ht, ih hrest]

theorem isGap_whitespace {c : UInt8} (h : IsGap [c]) : isJsonWhitespace c = true :=
  (isJsonWhitespace_iff c).mpr (h c (by simp))

/-- The parser skips whitespace and comments between tokens. -/
theorem skipGap_gap (g s : Bytes) (h : IsCommentGap g) : skipGap .normal (g ++ s) = skipGap .normal s := by
  have hslash : isJsonWhitespace (ch '/') = false := by decide
  induction h with
  | nil => rfl
  | space hc _ ih => rw [List.cons_append, skipGap_ws _ _ (isGap_whitespace hc), ih]
  | line hbody _ ih =>
    simp only [List.cons_append, List.append_assoc]
    rw [skipGap, if_neg (by simp [hslash]), if_pos ⟨rfl, rfl⟩, skipGap_line _ _ hbody, ih]
  | block hbody _ ih =>
    simp only [List.cons_append, List.append_assoc]
    rw [skipGap, if_neg (by simp [hslash]), if_neg (by decide), if_pos ⟨rfl, rfl⟩,
      skipGap_block _ _ hbody, ih]

/-- A byte that is neither whitespace nor the start of a comment ends a gap. -/
theorem skipGap_cons (c : UInt8) (s : Bytes) (hws : isJsonWhitespace c = false) (hc : c ≠ ch '/') :
    skipGap .normal (c :: s) = c :: s := by
  cases s <;> simp [skipGap, hws, hc]

theorem skipGap_skipGap (g : Gap) (s : Bytes) : skipGap .normal (skipGap g s) = skipGap g s := by
  fun_induction skipGap g s with
  | case1 => rfl
  | case2 s ih => exact ih
  | case3 c s hc ih => exact ih
  | case4 => rfl
  | case5 c d s h ih => exact ih
  | case6 c d s h ih => exact ih
  | case7 => rfl
  | case8 c hc => rw [skipGap, if_neg hc]
  | case9 c d s hc ih => exact ih
  | case10 c d s hc hline ih => exact ih
  | case11 c d s hc hline hblock ih => exact ih
  | case12 c d s hc hline hblock => rw [skipGap, if_neg hc, if_neg hline, if_neg hblock]

theorem lookups_skipGap (trail : List Bytes) (key s : Bytes) :
    lookups trail key (skipGap .normal s) = lookups trail key s := by
  have hagain := skipGap_skipGap .normal s
  cases hs : skipGap .normal s with
  | nil => rw [lookups_nil _ _ s hs, lookups_nil _ _ _ (skipGap_nil _)]
  | cons c t =>
    rw [hs] at hagain
    rw [lookups_cons _ _ s c t hs, lookups_cons _ _ _ c t hagain]

theorem lookups_gap (trail : List Bytes) (key g s : Bytes) (h : IsCommentGap g) :
    lookups trail key (g ++ s) = lookups trail key s := by
  rw [← lookups_skipGap trail key (g ++ s), skipGap_gap g s h, lookups_skipGap]

theorem commentGap_head {g : Bytes} (h : IsCommentGap g) (c : UInt8) (hc : c ∈ g.head?)
    (hslash : g.head? ≠ some (ch '/')) : isPrimitiveDelim c = true := by
  cases h with
  | nil => simp at hc
  | space hspace _ =>
    obtain rfl := Option.some.inj hc
    simp [isPrimitiveDelim, isGap_whitespace hspace]
  | line _ _ => exact absurd rfl hslash
  | block _ _ => exact absurd rfl hslash

end gaps

section tokens

theorem scanString_body (raw s : Bytes) (h : IsStringBody raw) :
    scanString (raw ++ ch '"' :: s) = (raw, ch '"' :: s) := by
  have hquote (s : Bytes) : scanString (ch '"' :: s) = ([], ch '"' :: s) := by
    cases s <;> simp [scanString]
  fun_induction IsStringBody raw with
  | case1 => exact hquote s
  | case2 c =>
    show scanString (c :: ch '"' :: s) = _
    rw [scanString, if_neg h.1, if_neg h.2, hquote]
  | case3 d t ih =>
    rw [List.cons_append, List.cons_append, scanString, if_neg (by decide), if_pos rfl, ih h]
  | case4 c d t hc ih =>
    rw [List.cons_append, List.cons_append, scanString, if_neg h.1, if_neg hc]
    rw [List.cons_append] at ih
    rw [ih h.2]

/-- The lookups of a text whose first token is not preceded by a gap. -/
theorem lookups_token (trail : List Bytes) (key : Bytes) (c : UInt8) (s : Bytes)
    (hws : isJsonWhitespace c = false) (hc : c ≠ ch '/') :
    lookups trail key (c :: s) = (readToken trail key c s).1 ++
      lookups (readToken trail key c s).2.trail (readToken trail key c s).2.key
        (readToken trail key c s).2.text :=
  lookups_cons trail key _ c s (skipGap_cons c s hws hc)

/-- The key of a member is what its value is looked up under. -/
theorem lookups_label (trail : List Bytes) (key : Bytes) (l : Label) (s : Bytes)
    (h : l.WFWith IsCommentGap) : lookups trail key (l.text ++ s) = lookups trail l.key s := by
  obtain ⟨hkey, hbefore, hafter⟩ := h
  simp only [Label.text, List.cons_append, List.append_assoc]
  rw [lookups_token _ _ _ _ (by decide) (by decide), readToken, if_neg (by decide),
    if_neg (by decide), if_neg (by decide), if_neg (by decide), if_pos rfl,
    scanString_body l.key _ hkey]
  simp only [List.drop_one, List.tail_cons]
  rw [skipGap_gap l.before _ hbefore, skipGap_cons _ _ (by decide) (by decide)]
  simp only [List.head?_cons, if_true, List.nil_append, List.tail_cons]
  exact lookups_gap _ _ _ _ hafter

theorem lookups_lead (trail : List Bytes) (curly : Bool) (sl : Slot) (s : Bytes)
    (h : sl.WFWith IsCommentGap curly) : lookups trail [] (sl.lead ++ s) = lookups trail sl.key s := by
  obtain ⟨hbefore, -, -, hlabel⟩ := h
  simp only [Slot.lead, List.append_assoc]
  rw [lookups_gap _ _ _ _ hbefore]
  unfold Slot.key
  cases hl : sl.label with
  | none => rfl
  | some l =>
    simp only [Option.map_some, Option.getD_some]
    exact lookups_label trail [] l s (hlabel l hl)

/-- Commas, colons and closing square brackets are passed over. -/
theorem lookups_mark (trail : List Bytes) (key : Bytes) (c : UInt8) (s : Bytes)
    (hc : c = ch ',' ∨ c = ch ':' ∨ c = ch ']') :
    lookups trail key (c :: s) = lookups trail key s := by
  have hread : readToken trail key c s = ([], ⟨trail, key, s⟩) := by
    rcases hc with rfl | rfl | rfl <;> rfl
  rw [lookups_token _ _ c s (by rcases hc with rfl | rfl | rfl <;> decide)
    (by rcases hc with rfl | rfl | rfl <;> decide), hread]
  rfl

theorem lookups_trail (trail : List Bytes) (key : Bytes) (curly : Bool) (sl : Slot) (s : Bytes)
    (h : sl.WFWith IsCommentGap curly) : lookups trail key (sl.trail ++ s) = lookups trail key s := by
  obtain ⟨-, hafter, -, -⟩ := h
  simp only [Slot.trail, List.append_assoc]
  rw [lookups_gap _ _ _ _ hafter]
  cases sl.comma with
  | false => rfl
  | true => exact lookups_mark trail key (ch ',') s (.inl rfl)

theorem lookups_string (trail : List Bytes) (key raw s : Bytes) (h : IsStringBody raw)
    (hs : (skipGap .normal s).head? ≠ some (ch ':')) :
    lookups trail key (ch '"' :: (raw ++ ch '"' :: s)) =
      ⟨trail, key, false, raw, true⟩ :: lookups trail [] s := by
  rw [lookups_token _ _ _ _ (by decide) (by decide), readToken, if_neg (by decide),
    if_neg (by decide), if_neg (by decide), if_neg (by decide), if_pos rfl, scanString_body raw _ h]
  simp only [List.drop_one, List.tail_cons]
  rw [if_neg hs]
  exact congrArg _ (lookups_skipGap trail [] s)

/-- A primitive value ends where a delimiter follows it. -/
theorem primitive_ends (raw s : Bytes) (h : IsPrimitive raw)
    (hs : ∀ c ∈ s.head?, isPrimitiveDelim c = true) :
    (raw ++ s).takeWhile (fun c => !isPrimitiveDelim c) = raw ∧
      (raw ++ s).dropWhile (fun c => !isPrimitiveDelim c) = s := by
  have hrun : ∀ c ∈ raw, (!isPrimitiveDelim c) = true := by
    intro c hc
    have := h.2 c hc
    simp only [List.mem_cons, List.not_mem_nil, or_false, not_or] at this
    simp [isPrimitiveDelim, isJsonWhitespace, this]
  rw [List.takeWhile_append_of_pos hrun, List.dropWhile_append_of_pos hrun]
  cases s with
  | nil => simp
  | cons c s => simp [hs c rfl]

theorem lookups_primitive (trail : List Bytes) (key raw s : Bytes) (h : IsPrimitive raw)
    (hs : ∀ c ∈ s.head?, isPrimitiveDelim c = true) :
    lookups trail key (raw ++ s) = ⟨trail, key, false, raw, false⟩ :: lookups trail [] s := by
  obtain ⟨htake, hdrop⟩ := primitive_ends raw s h hs
  obtain ⟨c, r, rfl⟩ := List.exists_cons_of_ne_nil h.1
  have hc := h.2 c (by simp)
  simp only [List.mem_cons, List.not_mem_nil, or_false, not_or] at hc
  have hdelim : isPrimitiveDelim c = false := by simp [isPrimitiveDelim, isJsonWhitespace, hc]
  simp only [List.cons_append, List.takeWhile_cons, List.dropWhile_cons, hdelim, Bool.not_false,
    if_true] at htake hdrop
  rw [List.cons_append, lookups_token _ _ _ _ (by simp [isJsonWhitespace, hc]) (by simp [hc]),
    readToken, if_neg (by simp [hc]), if_neg (by simp [hc]), if_neg (by simp [hc]),
    if_neg (by simp [hc]), if_neg (by simp [hc])]
  simp only [htake, hdrop]
  rfl

theorem lookups_closing (trail : List Bytes) (curly : Bool) (s : Bytes) :
    lookups trail [] (closing curly :: s) = lookups (if curly then trail.dropLast else trail) [] s := by
  cases curly with
  | false => exact lookups_mark trail [] (ch ']') s (.inr (.inr rfl))
  | true =>
    show lookups trail [] (ch '}' :: s) = _
    rw [lookups_token _ _ _ _ (by decide) (by decide), readToken, if_neg (by decide),
      if_neg (by decide), if_pos rfl]
    rfl

theorem lookups_opening (trail : List Bytes) (key : Bytes) (curly : Bool) (s : Bytes) :
    lookups trail key (opening curly :: s) =
      ⟨trail, key, true, blockOf 0 false (opening curly :: s), false⟩ ::
        lookups (enterTrail trail key curly) [] s := by
  cases curly with
  | false =>
    show lookups trail key (ch '[' :: s) = _
    rw [lookups_token _ _ _ _ (by decide) (by decide), readToken, if_neg (by decide), if_pos rfl]
    rfl
  | true =>
    show lookups trail key (ch '{' :: s) = _
    rw [lookups_token _ _ _ _ (by decide) (by decide), readToken, if_pos rfl]
    by_cases hk : key = [] <;> simp [enterTrail, hk, opening]

/-- Leaving a block. -/
theorem lookups_leave (trail : List Bytes) (key : Bytes) (curly : Bool) (items : List (Slot × Doc))
    (gap s : Bytes) :
    lookups (cutTrail (enterTrail trail key curly) (itemPops items)) [] (closing curly :: s) =
      lookups (cutTrail trail (docPops key (.block curly items gap))) [] s := by
  rw [lookups_closing, docPops]
  cases curly with
  | false => simp [enterTrail]
  | true => simp [dropLast_enterTrail]

end tokens

/-- What the parser can tell a value by: it is no key, and a primitive is delimited. -/
def EndsValue (d : Doc) (s : Bytes) : Prop :=
  (skipGap .normal s).head? ≠ some (ch ':') ∧
    (d.isPrimitive = true → ∀ c ∈ s.head?, isPrimitiveDelim c = true)

theorem closing_mark (curly : Bool) : isJsonWhitespace (closing curly) = false ∧
    isPrimitiveDelim (closing curly) = true ∧ closing curly ≠ ch '/' ∧ closing curly ≠ ch ':' := by
  cases curly <;> decide

/-- Every value in a container is ended by what follows it. -/
theorem endsValue_trail (curly : Bool) (sl : Slot) (d : Doc) (items : List (Slot × Doc)) (gap rest : Bytes)
    (hsl : sl.WFWith IsCommentGap curly) (hgap : IsCommentGap gap)
    (hcomma : items ≠ [] → sl.comma = true)
    (hspaced : d.isPrimitive = true → (sl.trail ++ gap).head? ≠ some (ch '/')) :
    EndsValue d (sl.trail ++ (Doc.itemsText items ++ (gap ++ closing curly :: rest))) := by
  obtain ⟨-, hafter, -, -⟩ := hsl
  obtain ⟨hws, hdelim, hslash, hcolon⟩ := closing_mark curly
  unfold Slot.trail at *
  cases hc : sl.comma with
  | true =>
    simp only [hc, if_true, List.append_assoc] at hspaced ⊢
    refine ⟨?_, ?_⟩
    · rw [skipGap_gap _ _ hafter, List.singleton_append, skipGap_cons _ _ (by decide) (by decide)]
      simp
      decide
    · intro hp c hhead
      cases ha : sl.after with
      | nil =>
        rw [ha] at hhead
        obtain rfl := Option.some.inj hhead
        decide
      | cons a after =>
        rw [ha] at hafter hhead
        refine commentGap_head hafter c hhead fun hs => hspaced hp ?_
        rw [ha]
        exact hs
  | false =>
    have hitems : items = [] := by
      by_contra hne
      rw [hcomma hne] at hc
      cases hc
    subst hitems
    simp only [hc, Bool.false_eq_true, if_false, List.append_nil] at hspaced ⊢
    rw [Doc.itemsText, List.nil_append]
    refine ⟨?_, ?_⟩
    · rw [skipGap_gap _ _ hafter, skipGap_gap _ _ hgap, skipGap_cons _ _ hws hslash]
      simpa using hcolon
    · intro hp c hhead
      have hspaced := hspaced hp
      cases ha : sl.after with
      | cons a after =>
        rw [ha] at hafter hhead hspaced
        exact commentGap_head hafter c hhead hspaced
      | nil =>
        rw [ha] at hhead hspaced
        cases hg : gap with
        | cons a gap =>
          rw [hg] at hgap hhead hspaced
          exact commentGap_head hgap c hhead hspaced
        | nil =>
          rw [hg] at hhead
          obtain rfl := Option.some.inj hhead
          exact hdelim

mutual
/-- The parser makes the lookups of a value, and goes on behind it. -/
theorem lookups_doc (d : Doc) (hd : d.WFWith IsCommentGap) (hspaced : d.Spaced) (trail : List Bytes)
    (key s : Bytes) (hs : EndsValue d s) :
    lookups trail key (d.text ++ s) =
      docReads trail key d s ++ lookups (cutTrail trail (docPops key d)) [] s := by
  cases d with
  | scalar isString raw =>
    rw [Doc.WFWith] at hd
    rw [Doc.text, docReads, docPops, cutTrail_zero]
    cases isString with
    | false => exact lookups_primitive trail key raw s hd (hs.2 rfl)
    | true => simpa using lookups_string trail key raw s hd hs.1
  | block curly items gap =>
    rw [Doc.WFWith] at hd
    rw [docReads, ← lookups_leave trail key curly items gap s, Doc.text]
    simp only [List.cons_append, List.append_assoc, List.nil_append]
    rw [lookups_opening, lookups_items items curly gap hd.1 hd.2 hspaced (enterTrail trail key curly) s,
      lookups_gap _ _ _ _ hd.2]

theorem lookups_items (items : List (Slot × Doc)) (curly : Bool) (gap : Bytes)
    (hi : Doc.ItemsWFWith IsCommentGap curly items) (hgap : IsCommentGap gap)
    (hspaced : Doc.ItemsSpaced gap items) (trail : List Bytes) (rest : Bytes) :
    lookups trail [] (Doc.itemsText items ++ (gap ++ closing curly :: rest)) =
      itemReads trail items (gap ++ closing curly :: rest) ++
        lookups (cutTrail trail (itemPops items)) [] (gap ++ closing curly :: rest) := by
  match items with
  | [] => simp [Doc.itemsText, itemReads, itemPops]
  | (sl, d) :: items =>
    rw [Doc.ItemsWFWith] at hi
    rw [Doc.ItemsSpaced] at hspaced
    obtain ⟨hsl, hd, hcomma, hrest⟩ := hi
    obtain ⟨hprim, hdspaced, hrestSpaced⟩ := hspaced
    rw [Doc.itemsText, itemReads, itemPops]
    simp only [List.append_assoc]
    rw [lookups_lead trail curly sl _ hsl,
      lookups_doc d hd hdspaced trail sl.key _ (endsValue_trail curly sl d items gap rest hsl hgap hcomma hprim),
      lookups_trail _ _ curly sl _ hsl, lookups_items items curly gap hrest hgap hrestSpaced _ rest,
      cutTrail_cutTrail]
end

/-- The lookups of a JSON text with comments. -/
theorem lookups_commentText (j : CommentText) (hspaced : j.Spaced) :
    lookups [] [] j.text = docReads [] [] j.root j.tail := by
  have hend : skipGap .normal j.tail = [] := by
    rw [CommentText.tail, skipGap_gap _ _ j.after_gap]
    cases hl : j.lastLine with
    | none => rfl
    | some body =>
      have hline (body : Bytes) (h : 0x0a ∉ body) : skipGap .line body = [] := by
        induction body with
        | nil => rfl
        | cons c body ih =>
          rw [List.mem_cons, not_or] at h
          rw [skipGap, if_neg (Ne.symm h.1), ih h.2]
      show skipGap .normal (ch '/' :: ch '/' :: body) = []
      rw [skipGap, if_neg (by decide), if_pos ⟨rfl, rfl⟩, hline body (j.lastLine_body body hl)]
  have hends : EndsValue j.root j.tail := by
    refine ⟨by rw [hend]; simp, ?_⟩
    intro hp c hc
    have hslash := hspaced.1 hp
    have hafter := j.after_gap
    unfold CommentText.tail at hc hslash
    cases ha : j.after with
    | cons a after =>
      rw [ha] at hc hslash hafter
      exact commentGap_head hafter c hc hslash
    | nil =>
      rw [ha] at hc hslash
      cases hl : j.lastLine with
      | none =>
        rw [hl] at hc
        cases hc
      | some body =>
        rw [hl] at hslash
        exact absurd rfl hslash
  rw [CommentText.text, lookups_gap _ _ _ _ j.before_gap, lookups_doc j.root j.root_wf hspaced.2 [] [] _ hends,
    lookups_nil _ _ _ hend, List.append_nil]

section plain

theorem gap_head_ne_slash (g : Bytes) (h : IsGap g) : g.head? ≠ some (ch '/') := fun he =>
  absurd rfl (isGap_ne_slash fun c hc => h c (List.mem_singleton.mp hc ▸ List.mem_of_head? he))

mutual
theorem spaced_of_wf (d : Doc) (h : d.WF) : d.Spaced := by
  cases d with
  | scalar isString raw => trivial
  | block curly items gap => exact itemsSpaced_of_wf items curly gap h.1 h.2

theorem itemsSpaced_of_wf (items : List (Slot × Doc)) (curly : Bool) (gap : Bytes)
    (h : Doc.ItemsWF curly items) (hgap : IsGap gap) : Doc.ItemsSpaced gap items := by
  match items with
  | [] => trivial
  | (s, d) :: items =>
    obtain ⟨⟨-, hafter, -, -⟩, hd, -, hrest⟩ := h
    refine ⟨?_, spaced_of_wf d hd, itemsSpaced_of_wf items curly gap hrest hgap⟩
    intro _
    rw [Slot.trail, List.append_assoc]
    cases ha : s.after with
    | cons a after => exact gap_head_ne_slash (a :: after) (ha ▸ hafter)
    | nil =>
      cases s.comma with
      | true => exact fun h => absurd (Option.some.inj h) (by decide)
      | false => exact gap_head_ne_slash gap hgap
end

mutual
/-- Without comments every block is taken whole. -/
theorem docReads_eq (d : Doc) (hd : d.WF) (trail : List Bytes) (key rest : Bytes) :
    docReads trail key d rest = docLookups trail key d := by
  cases d with
  | scalar isString raw => rfl
  | block curly items gap =>
    rw [docReads, docLookups, blockOf_block curly items gap rest hd, itemReads_eq items curly hd.1]

theorem itemReads_eq (items : List (Slot × Doc)) (curly : Bool) (hi : Doc.ItemsWF curly items)
    (trail : List Bytes) (rest : Bytes) : itemReads trail items rest = itemLookups trail items := by
  match items with
  | [] => rfl
  | (s, d) :: items =>
    rw [itemReads, itemLookups, docReads_eq d hi.2.1, itemReads_eq items curly hi.2.2.2]
end

/-- The lookups of a JSON text are those of its document. -/
theorem lookups_jsonText (j : JsonText) : lookups [] [] j.text = docLookups [] [] j.root := by
  have hspaced : j.commented.Spaced := by
    refine ⟨?_, spaced_of_wf j.root j.root_wf⟩
    intro _
    rw [j.commented_tail]
    exact gap_head_ne_slash j.after j.after_gap
  rw [← j.commented_text, lookups_commentText j.commented hspaced]
  exact docReads_eq j.root j.root_wf [] [] _

end plain

end Espbase.StackJson
