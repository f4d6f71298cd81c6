import Espbase.StackJson.StackBuffer

namespace Espbase.StackJson

open Espbase.Lib

theorem needsEscaping_iff (c : UInt8) : needsEscaping c = true ↔ Special c := by
  simp [needsEscaping, Special, or_assoc]

/-- The switch of `write_escaped` produces the JSON escape of the byte. -/
theorem escapeSequence_eq (c : UInt8) (h : Special c) : escapeSequence c = escapeByte c := by
  revert c
  decide +kernel

theorem escapeSequence_ne_nil (c : UInt8) : escapeSequence c ≠ [] := by
  revert c
  decide +kernel

def runChunk (run : Bytes) : List Bytes := if run = [] then [] else [run]

/-- The writes of the escape loop, in order. -/
def bodyChunks (run : Bytes) : Bytes → List Bytes
  | [] => runChunk run
  | c :: str =>
    if needsEscaping c then runChunk run ++ ([escapeSequence c] ++ bodyChunks [] str)
    else bodyChunks (run ++ [c]) str

/-- The writes of the chunked path of `write_escaped`, in order. -/
def stringChunks (str : Bytes) : List Bytes := [[ch '"']] ++ (bodyChunks [] str ++ [[ch '"']])

@[simp] theorem runChunk_flatten (run : Bytes) : (runChunk run).flatten = run := by
  unfold runChunk
  split_ifs with h <;> simp [h]

theorem bodyChunks_flatten (run str : Bytes) : (bodyChunks run str).flatten = run ++ escape str := by
  induction str generalizing run with
  | nil => simp [bodyChunks]
  | cons c str ih =>
    rw [bodyChunks]
    split_ifs with h
    · have hs := (needsEscaping_iff c).mp h
      simp [ih, escapeSequence_eq c hs]
    · have hs : ¬ Special c := fun hs => h ((needsEscaping_iff c).mpr hs)
      simp [ih, escapeByte_plain c hs]

theorem stringChunks_flatten (str : Bytes) : (stringChunks str).flatten = stringLiteral str := by
  simp [stringChunks, bodyChunks_flatten, stringLiteral]

namespace StackBuffer
variable {maxSize : Nat}

/-- `b'` holds the writes of `ws` up to the first that did not fit, and has failed. -/
structure Truncated (b : StackBuffer maxSize) (ws : List Bytes) (b' : StackBuffer maxSize) :
    Prop where
  within : b'.Within
  view : b'.view = b.view ++ fitted (maxSize - b.head) ws
  bad : b'.bad = true

theorem Truncated.grows {b b' : StackBuffer maxSize} {ws : List Bytes} (h : Truncated b ws b') :
    Grows b b' :=
  ⟨h.within, by rw [h.view]; exact List.prefix_append _ _, fun _ => h.bad⟩

/-- Outcome of a sequence of checked writes: all of them fit, or they stop at the first that does
not. -/
inductive Sent (b : StackBuffer maxSize) (ws : List Bytes) : StackBuffer maxSize → Bool → Prop
  | all {b' : StackBuffer maxSize} (fits : b.head + ws.flatten.length ≤ maxSize)
      (h : Appended b ws.flatten b') : Sent b ws b' true
  | cut {b' : StackBuffer maxSize} (misfit : maxSize < b.head + ws.flatten.length)
      (h : Truncated b ws b') : Sent b ws b' false

theorem Sent.next {b b1 b2 : StackBuffer maxSize} {as bs : List Bytes} {ok : Bool}
    (hw : b.Within) (h : Sent b as b1 true) (k : Sent b1 bs b2 ok) : Sent b (as ++ bs) b2 ok := by
  cases h with
  | all fits ha =>
    have hh := ha.head hw
    cases k with
    | all fits2 hb =>
      refine .all ?_ ?_
      · rw [List.flatten_append, List.length_append]
        omega
      · rw [List.flatten_append]
        exact ha.trans hb
    | cut misfit hb =>
      refine .cut ?_ ⟨hb.within, ?_, hb.bad⟩
      · rw [List.flatten_append, List.length_append]
        omega
      · rw [hb.view, ha.view, fitted_append_of_fits _ _ _ (by omega), List.append_assoc, hh,
          Nat.sub_add_eq]

theorem Sent.stop {b b1 : StackBuffer maxSize} {as : List Bytes} (bs : List Bytes)
    (hw : b.Within) (h : Sent b as b1 false) : Sent b (as ++ bs) b1 false := by
  cases h with
  | cut misfit ha =>
    simp only [Within] at hw
    refine .cut ?_ ⟨ha.within, ?_, ha.bad⟩
    · rw [List.flatten_append, List.length_append]
      omega
    · rw [ha.view, fitted_append_of_misfit _ _ _ (by omega)]

theorem Sent.grows {b b' : StackBuffer maxSize} {ws : List Bytes} {ok : Bool}
    (h : Sent b ws b' ok) : Grows b b' := by
  cases h with
  | all _ h => exact h.grows
  | cut _ h => exact h.grows

theorem Sent.good {b b' : StackBuffer maxSize} {ws : List Bytes} (hg : b.bad = false)
    (h : Sent b ws b' true) : b'.Within ∧ b'.bad = false := by
  cases h with
  | all _ h => exact ⟨h.within, h.bad.trans hg⟩

theorem write_sent (b : StackBuffer maxSize) (w : Bytes) (hw : b.Within) (hne : w ≠ []) :
    ∃ b' n, Buffer.write b w = some (b', n) ∧ Sent b [w] b' (n != 0) := by
  have hpos : 0 < w.length := List.length_pos_iff.mpr hne
  have hfl : [w].flatten = w := by simp
  by_cases h : b.head + w.length ≤ maxSize
  · obtain ⟨b', he, ha⟩ := write_fits b w h
    have hn : (w.length != 0) = true := by simp [hne]
    refine ⟨b', w.length, he, ?_⟩
    rw [hn]
    exact .all (by rw [hfl]; exact h) (by rw [hfl]; exact ha)
  · refine ⟨b.fail, 0, write_misfit b w (by omega), .cut (by rw [hfl]; omega) ⟨hw, ?_, rfl⟩⟩
    rw [fitted, if_neg (by omega), List.append_nil, fail_view]

theorem flush_sent (b : StackBuffer maxSize) (run : Bytes) (hw : b.Within) :
    ∃ b' ok, flush b run = some (b', ok) ∧ Sent b (runChunk run) b' ok := by
  unfold flush runChunk
  split_ifs with h
  · exact ⟨b, true, rfl, .all (by simpa [Within] using hw) (Appended.nil b hw)⟩
  · obtain ⟨b', n, he, hs⟩ := write_sent b run hw h
    exact ⟨b', n != 0, by simp [he], hs⟩

theorem escapeLoop_sent (str : Bytes) (b : StackBuffer maxSize) (run : Bytes) (hw : b.Within)
    (hg : b.bad = false) :
    ∃ b' ok, escapeLoop b run str = some (b', ok) ∧ Sent b (bodyChunks run str) b' ok := by
  induction str generalizing b run with
  | nil => exact flush_sent b run hw
  | cons c str ih =>
    rw [escapeLoop, bodyChunks]
    split_ifs with hc
    · obtain ⟨b1, ok1, he1, hs1⟩ := flush_sent b run hw
      cases ok1 with
      | false => exact ⟨b1, false, by simp [he1], hs1.stop _ hw⟩
      | true =>
        obtain ⟨hw1, hg1⟩ := hs1.good hg
        obtain ⟨b2, n2, he2, hs2⟩ := write_sent b1 _ hw1 (escapeSequence_ne_nil c)
        by_cases hn : n2 = 0
        · subst hn
          exact ⟨b2, false, by simp [he1, he2], hs1.next hw (hs2.stop _ hw1)⟩
        · rw [show (n2 != 0) = true by simp [hn]] at hs2
          obtain ⟨hw2, hg2⟩ := hs2.good hg1
          obtain ⟨b3, ok3, he3, hs3⟩ := ih b2 [] hw2 hg2
          exact ⟨b3, ok3, by simp [he1, he2, hn, he3], hs1.next hw (hs2.next hw1 hs3)⟩
    · exact ih b (run ++ [c]) hw hg

theorem writeQuoted_sent (b : StackBuffer maxSize) (str : Bytes) (hw : b.Within)
    (hg : b.bad = false) :
    ∃ b' n, writeQuoted b str b.head = some (b', n) ∧ Sent b (stringChunks str) b' (n != 0) := by
  obtain ⟨b1, n1, he1, hs1⟩ := write_sent b [ch '"'] hw (by simp)
  unfold writeQuoted stringChunks
  by_cases hn1 : n1 = 0
  · subst hn1
    exact ⟨b1, 0, by simp [he1], hs1.stop _ hw⟩
  · rw [show (n1 != 0) = true by simp [hn1]] at hs1
    obtain ⟨hw1, hg1⟩ := hs1.good hg
    obtain ⟨b2, ok2, he2, hs2⟩ := escapeLoop_sent str b1 [] hw1 hg1
    cases ok2 with
    | false => exact ⟨b2, 0, by simp [he1, hn1, he2], hs1.next hw (hs2.stop _ hw1)⟩
    | true =>
      obtain ⟨hw2, hg2⟩ := hs2.good hg1
      obtain ⟨b3, n3, he3, hs3⟩ := write_sent b2 [ch '"'] hw2 (by simp)
      have hs := hs1.next hw (hs2.next hw1 hs3)
      by_cases hn3 : n3 = 0
      · subst hn3
        exact ⟨b3, 0, by simp [he1, hn1, he2, he3], hs⟩
      · rw [show (n3 != 0) = true by simp [hn3]] at hs
        have hlen : b3.head - b.head ≠ 0 := by
          cases hs with
          | all _ ha =>
            rw [ha.head hw]
            simp
        refine ⟨b3, b3.head - b.head, ?_, ?_⟩
        · simp only [he1, he2, he3, Option.bind_eq_bind, Option.bind_some, hn1, hn3, if_true,
            if_false]
          rfl
        · rw [show (b3.head - b.head != 0) = true by simp only [bne_iff_ne]; exact hlen]
          exact hs

/-- The one-shot path fills the span from the left and commits it once. -/
theorem writeOneShot_appended (b : StackBuffer maxSize) (str : Bytes)
    (h : b.head + str.length + 2 ≤ maxSize) :
    ∃ b', writeOneShot b str = some (b', str.length + 2) ∧
      Appended b ([ch '"'] ++ str ++ [ch '"']) b' := by
  have hcl := b.cells_length
  obtain ⟨b1, e1, h1, g1, v1, c1⟩ := store_spec b 0 [ch '"'] (by simp; omega)
  obtain ⟨b2, e2, h2, g2, v2, c2⟩ : ∃ b2, copyContent b1 str = some b2 ∧
      b2.head = b.head ∧ b2.bad = b.bad ∧ b2.view = b.view ∧
      b2.cells = overwrite b.cells 0 ([ch '"'] ++ str) := by
    unfold copyContent
    split_ifs with hs
    · exact ⟨b1, rfl, h1, g1, v1, by simpa [hs] using c1⟩
    · obtain ⟨b2, e2, h2, g2, v2, c2⟩ := store_spec b1 1 str (by omega)
      refine ⟨b2, e2, h2.trans h1, g2.trans g1, v2.trans v1, ?_⟩
      rw [c2, c1]
      exact overwrite_overwrite b.cells [ch '"'] str 0 (by simp; omega)
  obtain ⟨b3, e3, h3, g3, v3, c3⟩ := store_spec b2 (str.length + 1) [ch '"'] (by simp; omega)
  have hc : b3.cells = ([ch '"'] ++ str ++ [ch '"']) ++ b.cells.drop (str.length + 2) := by
    have hl : 0 + ([ch '"'] ++ str).length = str.length + 1 := by simp
    rw [c3, c2, ← hl, overwrite_overwrite _ _ _ _ (by simp; omega), overwrite]
    simp
  have hlen : ([ch '"'] ++ str ++ [ch '"']).length = str.length + 2 := by simp
  obtain ⟨b4, e4, h4⟩ := commit_filled b b3 _ _ (by omega) (h3.trans h2) (g3.trans g2)
    (v3.trans v2) hc
  refine ⟨b4, ?_, h4⟩
  rw [hlen] at e4
  simp [writeOneShot, e1, e2, e3, e4]

theorem writeEscaped_sent (b : StackBuffer maxSize) (str : Bytes) (hw : b.Within)
    (hg : b.bad = false) :
    ∃ b' n, writeEscaped b str = some (b', n) ∧ Sent b (stringChunks str) b' (n != 0) := by
  have hbad : Buffer.bad b = false := hg
  unfold writeEscaped
  simp only [hbad, Bool.false_eq_true, if_false]
  by_cases hs : str.any needsEscaping
  · rw [if_pos hs]
    exact writeQuoted_sent b str hw hg
  · rw [if_neg hs]
    change ∃ b' n, (if str.length + 2 ≤ b.getWriteSpan then writeOneShot b str
      else writeQuoted b str b.head) = some (b', n) ∧ _
    rw [getWriteSpan_eq]
    simp only [Within] at hw
    split_ifs with hf
    · have hplain : escape str = str := by
        apply escape_plain
        intro c hc hsp
        exact hs (List.any_eq_true.mpr ⟨c, hc, (needsEscaping_iff c).mpr hsp⟩)
      have htext : (stringChunks str).flatten = [ch '"'] ++ str ++ [ch '"'] := by
        rw [stringChunks_flatten, stringLiteral, hplain]
        rfl
      obtain ⟨b', he, ha⟩ := writeOneShot_appended b str (by omega)
      refine ⟨b', str.length + 2, he, ?_⟩
      exact .all (by rw [htext]; simp; omega) (by rw [htext]; exact ha)
    · exact writeQuoted_sent b str hw hg

/-- A failed buffer is left alone. -/
theorem writeEscaped_bad (b : StackBuffer maxSize) (str : Bytes) (hg : b.bad = true) :
    writeEscaped b str = some (b, 0) := if_pos hg

end StackBuffer

end Espbase.StackJson
