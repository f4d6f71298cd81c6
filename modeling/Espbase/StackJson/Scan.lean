import Espbase.StackJson.Parser

namespace Espbase.StackJson

open Espbase.Lib

/-- Where a gap between tokens is being read: outside of comments or inside one of either kind. -/
inductive Gap | normal | line | comment

/-- The text that is left after a gap of whitespace and comments. -/
def skipGap : Gap → Bytes → Bytes
  | _, [] => []
  | .line, c :: s => if c = 0x0a then skipGap .normal s else skipGap .line s
  | .comment, [_] => []
  | .comment, c :: d :: s =>
    if c = ch '*' ∧ d = ch '/' then skipGap .normal s else skipGap .comment (d :: s)
  | .normal, [c] => if isJsonWhitespace c then [] else [c]
  | .normal, c :: d :: s =>
    if isJsonWhitespace c then skipGap .normal (d :: s)
    else if c = ch '/' ∧ d = ch '/' then skipGap .line s
    else if c = ch '/' ∧ d = ch '*' then skipGap .comment s
    else c :: d :: s

/-- The content of a string up to its closing quote, and the text from that quote on. -/
def scanString : Bytes → Bytes × Bytes
  | [] => ([], [])
  | [c] => if c = ch '"' then ([], [c]) else ([c], [])
  | c :: d :: s =>
    if c = ch '"' then ([], c :: d :: s)
    else if c = ch '\\' then (c :: d :: (scanString s).1, (scanString s).2)
    else (c :: (scanString (d :: s)).1, (scanString (d :: s)).2)

/-- The block that a text starts with, inside `braceDepth` open brackets and possibly a string. -/
def blockOf : Int → Bool → Bytes → Bytes
  | _, _, [] => []
  | _, true, [c] => [c]
  | braceDepth, true, c :: d :: s =>
    if c = ch '\\' then c :: d :: blockOf braceDepth true s
    else c :: blockOf braceDepth (c != ch '"') (d :: s)
  | braceDepth, false, c :: s =>
    if c = ch '"' then c :: blockOf braceDepth true s
    else if c = ch '{' ∨ c = ch '[' then c :: blockOf (braceDepth + 1) false s
    else if c = ch '}' ∨ c = ch ']' then
      if braceDepth - 1 = 0 then [c] else c :: blockOf (braceDepth - 1) false s
    else c :: blockOf braceDepth false s

@[simp] theorem skipGap_nil (g : Gap) : skipGap g [] = [] := by cases g <;> rfl

theorem skipGap_ws (c : UInt8) (s : Bytes) (h : isJsonWhitespace c = true) :
    skipGap .normal (c :: s) = skipGap .normal s := by
  cases s <;> simp [skipGap, h]

section loops
variable (json : Bytes)

theorem read_lt (i : Nat) (h : i < json.length) :
    ∃ c, json[i]? = some c ∧ json.drop i = c :: json.drop (i + 1) :=
  ⟨json[i], List.getElem?_eq_getElem h, List.drop_eq_getElem_cons h⟩

theorem drop_ge (i : Nat) (h : ¬ i < json.length) : json.drop i = [] :=
  List.drop_eq_nil_of_le (Nat.le_of_not_lt h)

/-- The variant rule for a loop over an index that stays below the size. -/
theorem index_loop (turn : Nat → Option (Turn Nat Nat)) (post : Nat → Nat → Prop)
    (h : ∀ i, (∃ r, turn i = some (.done r) ∧ post i r) ∨
      ∃ j, turn i = some (.next j) ∧ i < json.length ∧ i < j ∧ ∀ r, post j r → post i r) (i : Nat) :
    ∃ r, iterate turn (scanFuel json) i = some r ∧ post i r := by
  apply iterate_spec turn (fun i => json.length - i) (fun _ => True) post
  · intro i _
    rcases h i with hdone | ⟨j, ht, hi, hj, hp⟩
    · exact .inl hdone
    · refine .inr ⟨j, ht, ?_, trivial, hp⟩
      change json.length - j < json.length - i
      omega
  · trivial
  · unfold scanFuel
    omega

theorem line_spec (i : Nat) :
    ∃ r, iterate (lineTurn json) (scanFuel json) i = some r ∧ i ≤ r ∧
      skipGap .line (json.drop i) = skipGap .normal (json.drop r) := by
  apply index_loop json (lineTurn json)
    (fun i r => i ≤ r ∧ skipGap .line (json.drop i) = skipGap .normal (json.drop r))
  intro i
  unfold lineTurn
  by_cases hi : i < json.length
  · obtain ⟨c, hc, hd⟩ := read_lt json i hi
    rw [if_pos hi, hc, hd]
    by_cases hn : c = 0x0a
    · refine .inl ⟨i, by simp [hn], Nat.le_refl i, ?_⟩
      rw [hd, hn, skipGap_ws _ _ (by decide), skipGap, if_pos rfl]
    · refine .inr ⟨i + 1, by simp [hn], hi, by omega, ?_⟩
      rintro r ⟨hr, h⟩
      exact ⟨by omega, by rw [skipGap, if_neg hn, h]⟩
  · rw [if_neg hi]
    exact .inl ⟨i, rfl, Nat.le_refl i, by rw [drop_ge json i hi]; simp⟩

theorem comment_spec (i : Nat) :
    ∃ r, iterate (commentTurn json) (scanFuel json) i = some r ∧ i ≤ r ∧
      skipGap .comment (json.drop i) = skipGap .normal (json.drop (r + 2)) := by
  apply index_loop json (commentTurn json)
    (fun i r => i ≤ r ∧ skipGap .comment (json.drop i) = skipGap .normal (json.drop (r + 2)))
  intro i
  unfold commentTurn
  by_cases hi : i + 1 < json.length
  · obtain ⟨c, hc, hd⟩ := read_lt json i (by omega)
    obtain ⟨d, hd1, hd2⟩ := read_lt json (i + 1) hi
    rw [if_pos hi, hc, hd, hd2]
    by_cases hend : c = ch '*' ∧ d = ch '/'
    · refine .inl ⟨i, by simp [hend, hd1], Nat.le_refl i, ?_⟩
      rw [skipGap, if_pos hend]
    · refine .inr ⟨i + 1, ?_, by omega, by omega, ?_⟩
      · by_cases hs : c = ch '*'
        · have hsl : d ≠ ch '/' := fun h => hend ⟨hs, h⟩
          simp [hs, hd1, hsl]
        · simp [hs]
      · rintro r ⟨hr, h⟩
        refine ⟨by omega, ?_⟩
        rw [skipGap, if_neg hend, ← hd2, h]
  · rw [if_neg hi]
    refine .inl ⟨i, rfl, Nat.le_refl i, ?_⟩
    rw [drop_ge json (i + 2) (by omega)]
    by_cases hlast : i < json.length
    · obtain ⟨c, -, hd⟩ := read_lt json i hlast
      rw [hd, drop_ge json (i + 1) hi]
      simp [skipGap]
    · rw [drop_ge json i hlast]
      simp

/-- Skipping a gap never faults, ends, and leaves the text that `skipGap` leaves. -/
theorem skip_spec (i : Nat) :
    ∃ r, skipWsAndComments json i = some r ∧ i ≤ r ∧ skipGap .normal (json.drop i) = json.drop r := by
  apply index_loop json (skipTurn json)
    (fun i r => i ≤ r ∧ skipGap .normal (json.drop i) = json.drop r)
  intro i
  unfold skipTurn
  by_cases hi : i < json.length
  · obtain ⟨c, hc, hd⟩ := read_lt json i hi
    rw [if_pos hi, hc, hd]
    by_cases hws : isJsonWhitespace c
    · refine .inr ⟨i + 1, by simp [hws], hi, by omega, ?_⟩
      rintro r ⟨hr, h⟩
      exact ⟨by omega, by rw [skipGap_ws c _ hws, h]⟩
    · by_cases hsl : c = ch '/' ∧ i + 1 < json.length
      · obtain ⟨d, hd1, hd2⟩ := read_lt json (i + 1) hsl.2
        rw [hd2]
        by_cases hline : d = ch '/'
        · obtain ⟨j, hj, hle, heq⟩ := line_spec json (i + 2)
          refine .inr ⟨j, ?_, hi, by omega, ?_⟩
          · simp only [Option.bind_eq_bind, Option.bind_some, if_neg hws, if_pos hsl, hd1,
              if_pos hline, hj]
          · rintro r ⟨hr, h⟩
            refine ⟨by omega, ?_⟩
            rw [skipGap, if_neg hws, if_pos ⟨hsl.1, hline⟩, heq, h]
        · by_cases hcom : d = ch '*'
          · obtain ⟨j, hj, hle, heq⟩ := comment_spec json (i + 2)
            refine .inr ⟨j + 2, ?_, hi, by omega, ?_⟩
            · simp only [Option.bind_eq_bind, Option.bind_some, if_neg hws, if_pos hsl, hd1,
                if_neg hline, if_pos hcom, hj]
            · rintro r ⟨hr, h⟩
              refine ⟨by omega, ?_⟩
              rw [skipGap, if_neg hws, if_neg fun h => hline h.2, if_pos ⟨hsl.1, hcom⟩, heq, h]
          · refine .inl ⟨i, ?_, Nat.le_refl i, ?_⟩
            · simp only [Option.bind_eq_bind, Option.bind_some, if_neg hws, if_pos hsl, hd1,
                if_neg hline, if_neg hcom]
            · rw [hd, hd2, skipGap, if_neg hws, if_neg fun h => hline h.2,
                if_neg fun h => hcom h.2]
      · refine .inl ⟨i, by simp [hws, hsl], Nat.le_refl i, ?_⟩
        rw [hd]
        by_cases hlast : i + 1 < json.length
        · obtain ⟨d, -, hd2⟩ := read_lt json (i + 1) hlast
          have hc' : c ≠ ch '/' := fun h => hsl ⟨h, hlast⟩
          rw [hd2, skipGap, if_neg hws, if_neg fun h => hc' h.1, if_neg fun h => hc' h.1]
        · rw [drop_ge json (i + 1) hlast, skipGap, if_neg hws]
  · rw [if_neg hi]
    exact .inl ⟨i, rfl, Nat.le_refl i, by rw [drop_ge json i hi]; simp⟩

theorem string_spec (i : Nat) :
    ∃ r, iterate (stringTurn json) (scanFuel json) i = some r ∧ i ≤ r ∧
      scanString (json.drop i) = ((json.drop i).take (r - i), json.drop r) := by
  apply index_loop json (stringTurn json)
    (fun i r => i ≤ r ∧ scanString (json.drop i) = ((json.drop i).take (r - i), json.drop r))
  intro i
  unfold stringTurn
  by_cases hi : i < json.length
  · obtain ⟨c, hc, hd⟩ := read_lt json i hi
    rw [if_pos hi, hc, hd]
    by_cases hquote : c = ch '"'
    · refine .inl ⟨i, by simp [hquote], Nat.le_refl i, ?_⟩
      rw [hd, Nat.sub_self, List.take_zero]
      cases json.drop (i + 1) <;> simp [scanString, hquote]
    · by_cases hslash : c = ch '\\'
      · refine .inr ⟨i + 2, by simp [hslash, show ch '\\' ≠ ch '"' by decide], hi, by omega, ?_⟩
        rintro r ⟨hr, h⟩
        refine ⟨by omega, ?_⟩
        by_cases hlast : i + 1 < json.length
        · obtain ⟨d, -, hd2⟩ := read_lt json (i + 1) hlast
          have hsub : r - i = r - (i + 2) + 1 + 1 := by omega
          rw [hd2, scanString, if_neg hquote, if_pos hslash, h, hsub]
          simp
        · have hsub : r - i = r - (i + 2) + 1 + 1 := by omega
          rw [drop_ge json (i + 1) hlast, drop_ge json r (by omega), scanString, if_neg hquote, hsub]
          simp
      · refine .inr ⟨i + 1, by simp [hquote, hslash], hi, by omega, ?_⟩
        rintro r ⟨hr, h⟩
        have hsub : r - i = r - (i + 1) + 1 := by omega
        refine ⟨by omega, ?_⟩
        by_cases hlast : i + 1 < json.length
        · obtain ⟨d, -, hd2⟩ := read_lt json (i + 1) hlast
          rw [hd2] at h ⊢
          rw [scanString, if_neg hquote, if_neg hslash, h, hsub, List.take_succ_cons]
        · rw [drop_ge json (i + 1) hlast, drop_ge json r (by omega), scanString, if_neg hquote, hsub]
          simp
  · rw [if_neg hi]
    exact .inl ⟨i, rfl, Nat.le_refl i, by rw [drop_ge json i hi, List.take_nil, scanString]⟩

theorem primitive_spec (i : Nat) :
    ∃ r, iterate (primitiveTurn json) (scanFuel json) i = some r ∧ i ≤ r ∧
      (i ≤ json.length → r ≤ json.length) ∧
      (json.drop i).take (r - i) = (json.drop i).takeWhile (fun c => !isPrimitiveDelim c) ∧
      json.drop r = (json.drop i).dropWhile fun c => !isPrimitiveDelim c := by
  apply index_loop json (primitiveTurn json) (fun i r => i ≤ r ∧ (i ≤ json.length → r ≤ json.length) ∧
    (json.drop i).take (r - i) = (json.drop i).takeWhile (fun c => !isPrimitiveDelim c) ∧
      json.drop r = (json.drop i).dropWhile fun c => !isPrimitiveDelim c)
  intro i
  unfold primitiveTurn
  by_cases hi : i < json.length
  · obtain ⟨c, hc, hd⟩ := read_lt json i hi
    rw [if_pos hi, hc, hd]
    by_cases hdelim : isPrimitiveDelim c
    · exact .inl ⟨i, by simp [hdelim], Nat.le_refl i, id, by simp [hdelim], by simp [hd, hdelim]⟩
    · refine .inr ⟨i + 1, by simp [hdelim], hi, by omega, ?_⟩
      rintro r ⟨hr, hlen, ht, hrest⟩
      have hsub : r - i = r - (i + 1) + 1 := by omega
      exact ⟨by omega, fun _ => hlen hi, by simp [hsub, hdelim, ht], by simp [hdelim, hrest]⟩
  · rw [if_neg hi]
    exact .inl ⟨i, rfl, Nat.le_refl i, id, by simp [drop_ge json i hi], by simp [drop_ge json i hi]⟩

theorem blockOf_inStr (braceDepth : Int) (c : UInt8) (s : Bytes) (h : c ≠ ch '\\') :
    blockOf braceDepth true (c :: s) = c :: blockOf braceDepth (c != ch '"') s := by
  cases s with
  | nil => simp [blockOf]
  | cons d s => rw [blockOf, if_neg h]

theorem blockOf_escape (braceDepth : Int) (s : Bytes) :
    blockOf braceDepth true (ch '\\' :: s) =
      ch '\\' :: (s.take 1 ++ blockOf braceDepth true (s.drop 1)) := by
  cases s <;> simp [blockOf]

/-- What the loop that looks for the end of a block still has to do. -/
def BlockPost (s : BlockScan) (r : Nat) : Prop :=
  s.endPos ≤ r ∧ (json.drop s.endPos).take (r - s.endPos) =
    blockOf s.braceDepth s.inStr (json.drop s.endPos)

/-- Going on after one more byte of the block. -/
theorem BlockPost.cons {i : Nat} {c : UInt8} {b b' : Int} {q q' : Bool}
    (hd : json.drop i = c :: json.drop (i + 1))
    (hb : blockOf b q (c :: json.drop (i + 1)) = c :: blockOf b' q' (json.drop (i + 1))) (r : Nat)
    (h : BlockPost json ⟨i + 1, b', q'⟩ r) : BlockPost json ⟨i, b, q⟩ r := by
  obtain ⟨hr, h⟩ := h
  simp only at hr h
  have hsub : r - i = r - (i + 1) + 1 := by omega
  refine ⟨by simp only; omega, ?_⟩
  simp only
  rw [hd, hb, hsub, List.take_succ_cons, h]

theorem BlockPost.escape {i : Nat} {b : Int} (hd : json.drop i = ch '\\' :: json.drop (i + 1))
    (r : Nat) (h : BlockPost json ⟨i + 2, b, true⟩ r) : BlockPost json ⟨i, b, true⟩ r := by
  obtain ⟨hr, h⟩ := h
  simp only at hr h
  have hsub : r - i = 1 + (r - (i + 2)) + 1 := by omega
  refine ⟨by simp only; omega, ?_⟩
  simp only
  rw [hd, blockOf_escape, hsub, List.take_succ_cons, List.take_add, List.drop_drop, ← h]

theorem block_spec (s : BlockScan) :
    ∃ r, iterate (blockTurn json) (scanFuel json) s = some r ∧ BlockPost json s r := by
  apply iterate_spec (blockTurn json) (fun s => json.length - s.endPos) (fun _ => True)
  · rintro ⟨i, b, q⟩ _
    unfold Advances blockTurn
    by_cases hi : i < json.length
    · obtain ⟨c, hc, hd⟩ := read_lt json i hi
      have hmeasure (k : Nat) (hk : i < k) : json.length - k < json.length - i := by omega
      simp only [if_pos hi, hc, Option.bind_eq_bind, Option.bind_some]
      cases q with
      | true =>
        by_cases hslash : c = ch '\\'
        · refine .inr ⟨⟨i + 2, b, true⟩, by simp [hslash], hmeasure _ (by simp), trivial, ?_⟩
          exact BlockPost.escape json (hslash ▸ hd)
        · refine .inr ⟨⟨i + 1, b, c != ch '"'⟩, by simp [hslash], hmeasure _ (by simp), trivial, ?_⟩
          exact BlockPost.cons json hd (blockOf_inStr b c _ hslash)
      | false =>
        by_cases hquote : c = ch '"'
        · refine .inr ⟨⟨i + 1, b, true⟩, by simp [hquote], hmeasure _ (by simp), trivial, ?_⟩
          exact BlockPost.cons json hd (by rw [blockOf, if_pos hquote])
        by_cases hopen : c = ch '{' ∨ c = ch '['
        · refine .inr ⟨⟨i + 1, b + 1, false⟩, ?_, hmeasure _ (by simp), trivial, ?_⟩
          · simp only [Bool.false_eq_true, if_false, if_neg hquote, if_pos hopen]
          · exact BlockPost.cons json hd (by rw [blockOf, if_neg hquote, if_pos hopen])
        by_cases hclose : c = ch '}' ∨ c = ch ']'
        · by_cases hz : b - 1 = 0
          · refine .inl ⟨i + 1, ?_, by simp, ?_⟩
            · simp only [Bool.false_eq_true, if_false, if_neg hquote, if_neg hopen, if_pos hclose,
                if_pos hz]
            · simp only [Nat.add_sub_cancel_left]
              rw [hd, blockOf, if_neg hquote, if_neg hopen, if_pos hclose, if_pos hz]
              rfl
          · refine .inr ⟨⟨i + 1, b - 1, false⟩, ?_, hmeasure _ (by simp), trivial, ?_⟩
            · simp only [Bool.false_eq_true, if_false, if_neg hquote, if_neg hopen, if_pos hclose,
                if_neg hz]
            · refine BlockPost.cons json hd ?_
              rw [blockOf, if_neg hquote, if_neg hopen, if_pos hclose, if_neg hz]
        · refine .inr ⟨⟨i + 1, b, false⟩, ?_, hmeasure _ (by simp), trivial, ?_⟩
          · simp only [Bool.false_eq_true, if_false, if_neg hquote, if_neg hopen, if_neg hclose]
          · refine BlockPost.cons json hd ?_
            rw [blockOf, if_neg hquote, if_neg hopen, if_neg hclose]
    · refine .inl ⟨i, by simp [hi], Nat.le_refl i, ?_⟩
      simp only [drop_ge json i hi, List.take_nil, blockOf]
  · trivial
  · unfold scanFuel
    omega

theorem scanBlock_eq (i : Nat) (h : i ≤ json.length) :
    scanBlock json i = some (blockOf 0 false (json.drop i)) := by
  obtain ⟨r, hr, -, hp⟩ := block_spec json ⟨i, 0, false⟩
  simp only [scanBlock, hr, Option.bind_eq_bind, Option.bind_some, substr, if_pos h]
  exact congrArg some hp

end loops

end Espbase.StackJson
