import Espbase.StackJson.NumberWrite
import Espbase.StackJson.PrettyBuffer
import Espbase.StackJson.RoundTrip

namespace Espbase.StackJson

open Espbase.Lib SpanBuffer

/-- A decorated buffer shows the text of the buffer behind it; what is committed goes there as it is. -/
instance {σ : Type} [Buffer σ] [SpanBuffer σ] : SpanBuffer (PrettyBuffer σ) where
  Valid pb := Valid pb.dest
  view pb := view pb.dest
  cells pb := cells pb.dest
  load_eq pb i h := load_eq pb.dest i h
  store_ok pb i w h hfit := by
    obtain ⟨dest, e, hv, -, ht, hc⟩ := store_ok pb.dest i w h hfit
    refine ⟨{ pb with dest := dest }, ?_, hv, rfl, ht, hc⟩
    show (Buffer.store pb.dest i w).map _ = _
    rw [e]
    rfl
  commit_ok pb k h hfit := by
    obtain ⟨dest, e, hv, -, ht, hc⟩ := commit_ok pb.dest k h hfit
    refine ⟨{ pb with dest := dest }, ?_, hv, rfl, ht, hc⟩
    show (Buffer.commit pb.dest k).map _ = _
    rw [e]
    rfl
  span_ok pb h := by
    obtain ⟨hv, -, ht, hl, hle⟩ := span_ok pb.dest h
    exact ⟨hv, rfl, ht, hl, hle⟩
  fail_ok _ h := ⟨h, rfl, rfl⟩

/-- A minus sign for negatives only, then the digits of the absolute value without leading zeros. -/
def CanonicalInteger (s : Bytes) (z : Int) : Prop :=
  ∃ digits, Canonical digits z.natAbs ∧ s = (if z < 0 then [ch '-'] else []) ++ digits

theorem signedDecimal_canonical (z : Int) : CanonicalInteger (signedDecimal z) z := by
  refine ⟨decimal z.natAbs, decimal_canonical _, ?_⟩
  unfold signedDecimal
  split_ifs
  · rfl
  · rfl

section integers
variable {σ : Type} [Buffer σ] [SpanBuffer σ]

/-- What writing an integer into a buffer that has not failed comes to: its text, cell by cell at the start
of the span, when it fits, and a failure otherwise. -/
structure WritesInteger (b : σ) (n : Integer) (text : Bytes) : Prop where
  fits : text.length ≤ (Buffer.getWriteSpan b).2 →
    ∃ b' written, writeInteger (Watched.mk b text.length []) n = some ⟨b', text.length, written⟩ ∧
      writeInteger b n = some b' ∧ Added b text b' ∧
      cells b' = (cells (Buffer.getWriteSpan b).1).drop text.length ∧
      ∀ i, i ∈ written ↔ i < text.length
  misfit : (Buffer.getWriteSpan b).2 < text.length →
    ∃ b', writeInteger (Watched.mk b 0 []) n = some ⟨b', 0, []⟩ ∧ writeInteger b n = some b' ∧
      Refused b b'

variable [FloatChars]

/-- Every integer of every type is written as its canonical text, which reads back as the integer. -/
theorem writeInteger_reversible (b : σ) (n m : Integer) (hb : Valid b) (hg : Buffer.bad b = false)
    (hm : m.type = n.type) :
    CanonicalInteger (signedDecimal n.val) n.val ∧ WritesInteger b n (signedDecimal n.val) ∧
      coerceValue (signedDecimal n.val) (signedDecimal n.val == bytes "null") (.int m) =
        some (.int n) := by
  refine ⟨signedDecimal_canonical n.val, ⟨?_, ?_⟩, ?_⟩
  · exact writeInteger_fits b n hb hg
  · exact writeInteger_misfit b n hb hg
  · rw [signedDecimal_ne_null]
    show some (Target.int (fromChars (signedDecimal n.val) m)) = _
    rw [fromChars_signedDecimal m n hm]

end integers

/-- The smallest value of a 32-bit type. -/
def int32Min : Integer := ⟨⟨.w32, true⟩, -2147483648, by decide, by decide⟩

/-- It takes eleven bytes: one less is refused, and in eleven it arrives whole. -/
theorem int32Min_reversible :
    (∃ b', writeInteger (StackBuffer.empty 11) int32Min = some b' ∧ b'.view = bytes "-2147483648") ∧
      (∃ b', writeInteger (StackBuffer.empty 10) int32Min = some b' ∧ b'.view = [] ∧ b'.bad = true) ∧
      @coerceValue keepFloats (bytes "-2147483648") false (.int (.zero int32Min.type)) =
        some (.int int32Min) := by
  let _ := keepFloats
  have h11 := writeInteger_reversible (StackBuffer.empty 11) int32Min (.zero int32Min.type)
    (Nat.zero_le _) rfl rfl
  have h10 := writeInteger_reversible (StackBuffer.empty 10) int32Min (.zero int32Min.type)
    (Nat.zero_le _) rfl rfl
  have htext : signedDecimal int32Min.val = bytes "-2147483648" := by decide
  rw [htext] at h11 h10
  obtain ⟨b', -, -, he, ha, -, -⟩ := h11.2.1.fits (by decide)
  obtain ⟨c', -, hf, hr⟩ := h10.2.1.misfit (by decide)
  refine ⟨⟨b', he, ha.view⟩, ⟨c', hf, hr.view, hr.bad⟩, ?_⟩
  exact h11.2.2

end Espbase.StackJson
