import Espbase.StackJson.Number
import Espbase.StackJson.EscapedWrite
import Espbase.StackJson.PrinterWrite

namespace Espbase.StackJson

open Espbase.Lib SpanBuffer

section digits
variable {σ : Type} [Buffer σ]

/-- The digit loop stores the decimal text backwards from `p`. -/
theorem writeDigits_eq (b : σ) (p value : Nat) (hp : (decimal value).length ≤ p) :
    writeDigits b p value = storeBack b p (decimal value).reverse := by
  induction p generalizing value b with
  | zero =>
    have := decimal_length_pos value
    omega
  | succ p ih =>
    rw [writeDigits]
    by_cases hv : value < 10
    · rw [decimal_of_lt value hv, Nat.mod_eq_of_lt hv]
      simp [storeBack, show ¬ value / 10 > 0 by omega]
    · have hd := decimal_step value (by omega)
      have hl : (decimal value).length = (decimal (value / 10)).length + 1 := by simp [hd]
      rw [hd, List.reverse_append, List.reverse_singleton, List.singleton_append, storeBack,
        if_neg (Nat.succ_ne_zero p), Nat.add_sub_cancel]
      have hnext (b1 : σ) := ih b1 (value / 10) (by omega)
      simp only [hnext, show value / 10 > 0 by omega, if_true]

/-- A value of the given magnitude and sign goes into a span of `span` cells. -/
def putDecimal (buf : σ) (span value : Nat) (neg : Bool) : Option σ :=
  let len := (decimal value).length + (if neg then 1 else 0)
  if len > span then some (Buffer.fail buf)
  else do
    let buf ← writeDigits buf len value
    let buf ← writeSign buf neg
    Buffer.commit buf len

theorem writeUnsigned_eq (b : σ) (w : Width) (value : Nat) (hg : Buffer.bad b = false)
    (hv : value < 2 ^ w.bits) :
    writeUnsigned b w value =
      putDecimal (Buffer.getWriteSpan b).1 (Buffer.getWriteSpan b).2 value false := by
  simp [writeUnsigned, putDecimal, writeSign, hg, numDigits_eq w value hv]

/-- At every width the magnitude is the absolute value, and its digits are counted right. -/
theorem writeSigned_eq (b : σ) (w : Width) (value : Int) (hg : Buffer.bad b = false)
    (hlo : -2 ^ (w.bits - 1) ≤ value) (hhi : value ≤ 2 ^ (w.bits - 1) - 1) :
    writeSigned b w value =
      putDecimal (Buffer.getWriteSpan b).1 (Buffer.getWriteSpan b).2 value.natAbs (decide (value < 0)) := by
  have hp : (2 : Int) ^ w.bits = 2 * 2 ^ (w.bits - 1) := by
    cases w <;> decide
  have hpos : (0 : Int) < 2 ^ (w.bits - 1) := by positivity
  have hcast : ((2 ^ w.bits : Nat) : Int) = 2 ^ w.bits := by simp
  have hnum := numDigits_eq w value.natAbs (by omega)
  by_cases hneg : value < 0
  · have hval := negate_toUnsigned w value hlo hneg
    simp [writeSigned, putDecimal, hg, hneg, hval, hnum]
  · have hval := toUnsigned_nonneg w value (by omega) (by omega)
    simp [writeSigned, putDecimal, hg, hneg, hval, hnum]

/-- Every overload writes the magnitude and the sign of its value, the minimum included. -/
theorem writeInteger_eq (b : σ) (n : Integer) (hg : Buffer.bad b = false) :
    writeInteger b n =
      putDecimal (Buffer.getWriteSpan b).1 (Buffer.getWriteSpan b).2 n.val.natAbs
        (decide (n.val < 0)) := by
  obtain ⟨⟨width, signed⟩, val, ge, le⟩ := n
  cases signed with
  | true =>
    simp only [IntType.min, IntType.max, if_true] at ge le
    simp only [writeInteger, if_true]
    split_ifs with h8
    · subst h8
      exact writeSigned_eq b .w32 val hg (le_trans (by decide) ge) (le_trans le (by decide))
    · exact writeSigned_eq b width val hg ge le
  | false =>
    simp only [IntType.min, IntType.max, Bool.false_eq_true, if_false] at ge le
    have hcast : ((2 ^ width.bits : Nat) : Int) = 2 ^ width.bits := by simp
    have hlt : val.natAbs < 2 ^ width.bits := by omega
    have hnat : val.toNat = val.natAbs := by omega
    have hsign : decide (val < 0) = false := decide_eq_false (by omega)
    simp only [writeInteger, Bool.false_eq_true, if_false, hnat, hsign]
    split_ifs with h8
    · subst h8
      exact writeUnsigned_eq b .w32 val.natAbs hg (hlt.trans (by decide))
    · exact writeUnsigned_eq b width val.natAbs hg hlt

theorem writeInteger_bad (b : σ) (n : Integer) (hg : Buffer.bad b = true) :
    writeInteger b n = some b := by
  unfold writeInteger writeSigned writeUnsigned
  simp [hg]

theorem signedDecimal_length (z : Int) : (signedDecimal z).length =
    (decimal z.natAbs).length + (if decide (z < 0) = true then 1 else 0) := by
  unfold signedDecimal
  split_ifs with h1 h2 h2
  · rfl
  · exact absurd (decide_eq_true h1) h2
  · exact absurd (of_decide_eq_true h2) h1
  · rfl

theorem signedDecimal_eq (z : Int) :
    signedDecimal z = (if decide (z < 0) = true then [ch '-'] else []) ++ decimal z.natAbs := by
  unfold signedDecimal
  by_cases hz : z < 0
  · rw [if_pos hz, if_pos (decide_eq_true hz)]
    rfl
  · rw [if_neg hz, if_neg (by simpa using hz)]
    rfl

theorem watched_span (b : σ) (limit : Nat) (written : List Nat) :
    Buffer.getWriteSpan (Watched.mk b limit written) =
      (⟨(Buffer.getWriteSpan b).1, limit, written⟩, (Buffer.getWriteSpan b).2) := rfl

theorem writeDigits_unwatched (b b' : Watched σ) (p value : Nat) (hp : (decimal value).length ≤ p)
    (h : writeDigits b p value = some b') : writeDigits b.buf p value = some b'.buf := by
  rw [writeDigits_eq _ _ _ hp] at h ⊢
  exact storeBack_unwatched _ b b' p h

theorem putDecimal_unwatched (b b' : Watched σ) (span value : Nat) (neg : Bool)
    (h : putDecimal b span value neg = some b') : putDecimal b.buf span value neg = some b'.buf := by
  unfold putDecimal at h ⊢
  by_cases hl : (decimal value).length + (if neg then 1 else 0) > span
  · simp only [if_pos hl] at h ⊢
    exact congrArg (Option.map Watched.buf) h
  · simp only [if_neg hl] at h ⊢
    obtain ⟨b1, h1, h⟩ := Option.bind_eq_some_iff.mp h
    obtain ⟨b2, h2, h⟩ := Option.bind_eq_some_iff.mp h
    have hd := writeDigits_unwatched b b1 _ value (Nat.le_add_right _ _) h1
    have hs : writeSign b1.buf neg = some b2.buf := by
      cases neg with
      | true => exact store_unwatched b1 b2 0 _ h2
      | false => exact congrArg (Option.map Watched.buf) h2
    obtain ⟨buf, hbuf, rfl⟩ := Option.map_eq_some_iff.mp h
    simp only [hd, hs, Option.bind_eq_bind, Option.bind_some]
    exact hbuf

end digits

section spans
variable {σ : Type} [Buffer σ] [SpanBuffer σ]

/-- `b'` is `b` with the start of the span filled and committed, and the rest of the span left alone. -/
structure Filled (b : σ) (w : Bytes) (b' : σ) : Prop extends Added b w b' where
  rest : cells b' = (cells b).drop w.length

/-- The sign goes into the cell that the digits leave free. -/
theorem writeSign_spec (b : σ) (limit : Nat) (written : List Nat) (neg : Bool) (hb : Valid b)
    (hlim : (if neg then 1 else 0) ≤ limit) (hl : limit ≤ (cells b).length) :
    ∃ b' written', writeSign (Watched.mk b limit written) neg = some ⟨b', limit, written'⟩ ∧
      Kept b (overwrite (cells b) 0 (if neg then [ch '-'] else [])) b' ∧
      ∀ i, i ∈ written' ↔ (neg = true ∧ i = 0) ∨ i ∈ written := by
  cases neg with
  | false => exact ⟨b, written, rfl, ⟨hb, rfl, rfl, by simp [overwrite]⟩, fun i => by simp⟩
  | true =>
    simp only [if_true] at hlim
    obtain ⟨b1, e1, v1, g1, t1, c1⟩ := store_ok b 0 [ch '-'] hb (by simp; omega)
    refine ⟨b1, List.range' 0 1 ++ written, ?_, ⟨v1, g1, t1, c1⟩, fun i => by simp⟩
    show (if 0 + 1 ≤ limit then _ else none) = _
    rw [if_pos (by omega), e1]
    rfl

/-- A number whose text fits is written cell by cell over the start of the span, and nowhere else. -/
theorem putDecimal_fits (z : Int) (b : σ) (span : Nat) (hb : Valid b) (hspan : (cells b).length = span)
    (hfit : (signedDecimal z).length ≤ span) :
    ∃ b' written, putDecimal (Watched.mk b (signedDecimal z).length []) span z.natAbs (decide (z < 0)) =
        some ⟨b', (signedDecimal z).length, written⟩ ∧
      Filled b (signedDecimal z) b' ∧ ∀ i, i ∈ written ↔ i < (signedDecimal z).length := by
  have htext := signedDecimal_eq z
  have hlen := signedDecimal_length z
  generalize decide (z < 0) = neg at htext hlen
  have hpos := decimal_length_pos z.natAbs
  obtain ⟨b1, w1, e1, k1, hw1⟩ := storeBack_spec (decimal z.natAbs).reverse b (signedDecimal z).length []
    (signedDecimal z).length hb (by rw [List.length_reverse]; omega) (Nat.le_refl _) (by omega)
  rw [← writeDigits_eq _ _ _ (by omega)] at e1
  rw [List.length_reverse, List.reverse_reverse] at k1
  have hl1 : (cells b1).length = span := by
    rw [k1.cells, overwrite_length _ _ _ (by omega), hspan]
  obtain ⟨b2, w2, e2, k2, hw2⟩ := writeSign_spec b1 (signedDecimal z).length w1 neg k1.valid
    (by omega) (by omega)
  have hcells : cells b2 = signedDecimal z ++ (cells b).drop (signedDecimal z).length := by
    have hblock := overwrite_overwrite_before (cells b) (if neg then [ch '-'] else []) (decimal z.natAbs) 0
      (by rw [htext, List.length_append] at hfit; omega)
    have hstart : (signedDecimal z).length - (decimal z.natAbs).length =
        0 + (if neg then [ch '-'] else []).length := by
      rw [htext, List.length_append, Nat.add_sub_cancel, Nat.zero_add]
    rw [k2.cells, k1.cells, hstart, hblock, ← htext, overwrite, List.take_zero, List.nil_append,
      Nat.zero_add]
  obtain ⟨b3, e3, v3, g3, t3, c3⟩ := commit_ok b2 (signedDecimal z).length k2.valid
    (by rw [hcells, List.length_append]; omega)
  refine ⟨b3, w2, ?_, ⟨⟨v3, ?_, ?_⟩, ?_⟩, ?_⟩
  · have hcommit : Buffer.commit (Watched.mk b2 (signedDecimal z).length w2) (signedDecimal z).length =
        some ⟨b3, (signedDecimal z).length, w2⟩ := by
      show (Buffer.commit b2 _).map _ = _
      rw [e3]
      rfl
    simp only [putDecimal, ← hlen, if_neg (Nat.not_lt.mpr hfit), e1, e2, hcommit, Option.bind_eq_bind,
      Option.bind_some]
  · exact g3.trans (k2.bad.trans k1.bad)
  · rw [t3, hcells, List.take_left, k2.view, k1.view]
  · rw [c3, hcells, List.drop_left]
  · intro i
    rw [hw2 i, hw1 i, List.length_reverse]
    cases neg with
    | false => simp at hlen ⊢; omega
    | true => simp at hlen ⊢; omega

/-- An integer whose text fits the span is written cell by cell over its start, and nowhere else. -/
theorem writeInteger_fits (b : σ) (n : Integer) (hb : Valid b) (hg : Buffer.bad b = false)
    (hfit : (signedDecimal n.val).length ≤ (Buffer.getWriteSpan b).2) :
    ∃ b' written, writeInteger (Watched.mk b (signedDecimal n.val).length []) n =
        some ⟨b', (signedDecimal n.val).length, written⟩ ∧
      writeInteger b n = some b' ∧ Added b (signedDecimal n.val) b' ∧
      cells b' = (cells (Buffer.getWriteSpan b).1).drop (signedDecimal n.val).length ∧
      ∀ i, i ∈ written ↔ i < (signedDecimal n.val).length := by
  obtain ⟨hv, hg0, ht, hl, -⟩ := span_ok b hb
  obtain ⟨b', written, he, ha, hw⟩ := putDecimal_fits n.val (Buffer.getWriteSpan b).1 _ hv hl hfit
  have hgood : Buffer.bad (Watched.mk b (signedDecimal n.val).length []) = false := hg
  have hun := putDecimal_unwatched _ _ _ _ _ he
  refine ⟨b', written, ?_, ?_, ⟨ha.valid, ha.bad.trans hg0, ?_⟩, ha.rest, hw⟩
  · rw [writeInteger_eq _ n hgood, watched_span]
    exact he
  · rw [writeInteger_eq b n hg]
    exact hun
  · rw [ha.view, ht]

/-- An integer whose text is longer than the span is refused, and no cell is written. -/
theorem writeInteger_misfit (b : σ) (n : Integer) (hb : Valid b) (hg : Buffer.bad b = false)
    (hmis : (Buffer.getWriteSpan b).2 < (signedDecimal n.val).length) :
    ∃ b', writeInteger (Watched.mk b 0 []) n = some ⟨b', 0, []⟩ ∧ writeInteger b n = some b' ∧
      Refused b b' := by
  obtain ⟨hv, -, ht, -, -⟩ := span_ok b hb
  obtain ⟨hv', hf, ht'⟩ := fail_ok (Buffer.getWriteSpan b).1 hv
  have hgood : Buffer.bad (Watched.mk b 0 []) = false := hg
  rw [signedDecimal_length] at hmis
  refine ⟨Buffer.fail (Buffer.getWriteSpan b).1, ?_, ?_, ⟨hv', hf, ht'.trans ht⟩⟩
  · rw [writeInteger_eq _ n hgood, watched_span, putDecimal, if_pos hmis]
    rfl
  · rw [writeInteger_eq b n hg, putDecimal, if_pos hmis]

end spans

namespace StackBuffer
variable {maxSize : Nat}

/-- Every integer is written as its canonical decimal text, or not at all. -/
theorem writeInteger_sent (b : StackBuffer maxSize) (n : Integer) (hw : b.Within)
    (hg : b.bad = false) :
    ∃ b' ok, writeInteger b n = some b' ∧ Sent b [signedDecimal n.val] b' ok := by
  have hspan : (Buffer.getWriteSpan b).2 = maxSize - b.head := b.getWriteSpan_eq
  have hfl : [signedDecimal n.val].flatten = signedDecimal n.val := by simp
  have hin := hw
  simp only [Within] at hin
  by_cases hfit : (signedDecimal n.val).length ≤ maxSize - b.head
  · obtain ⟨b', -, -, he, ha, -, -⟩ := writeInteger_fits b n hw hg (by rw [hspan]; exact hfit)
    refine ⟨b', true, he, .all (by rw [hfl]; omega) ?_⟩
    rw [hfl]
    exact ⟨ha.valid, ha.view, ha.bad⟩
  · obtain ⟨b', -, he, hr⟩ := writeInteger_misfit b n hw hg (by rw [hspan]; omega)
    refine ⟨b', false, he, .cut (by rw [hfl]; omega) ⟨hr.valid, ?_, hr.bad⟩⟩
    rw [fitted, if_neg (by omega), List.append_nil]
    exact hr.view

end StackBuffer

end Espbase.StackJson
