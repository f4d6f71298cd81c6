import Espbase.StackJson.DecodeResults

namespace Espbase.StackJson

open Espbase.Lib

/-- Decoding into a span of that size only cuts the string off: it stays inside the span, and writes the
first results whole, which an unlimited span starts with, and none of the later ones. -/
def Truncates (input : Bytes) (outSize : Nat) : Prop :=
  ∃ out whole, decodeJsonString input outSize = some out ∧
    (∀ size, input.length ≤ size → decodeJsonString input size = some whole) ∧
    out.length ≤ outSize ∧ out <+: whole ∧ ∃ kept, kept <+: decodeResults input ∧ out = kept.flatten

/-- A span cuts a string off exactly when nothing behind the first result that does not fit is short
enough for the room that is left. -/
theorem truncates_iff (input : Bytes) (outSize : Nat) :
    Truncates input outSize ↔
      ∀ before w after, Misfit outSize (decodeResults input) before w after →
        ∀ x ∈ after, outSize - before.flatten.length < x.length := by
  rw [← packed_initial_iff _ (nil_notMem_decodeResults input)]
  constructor
  · intro h
    obtain ⟨out, whole, hout, -, -, -, kept, hkept, heq⟩ := h
    rw [decodeJsonString_eq, Option.some.injEq] at hout
    exact ⟨kept, hkept, hout.trans heq⟩
  · intro h
    obtain ⟨kept, hkept, heq⟩ := h
    refine ⟨kept.flatten, (decodeResults input).flatten, ?_, ?_, ?_, ?_, kept, hkept, rfl⟩
    · rw [decodeJsonString_eq, heq]
    · intro size hsize
      exact decodeJsonString_whole input size hsize
    · rw [← heq]
      exact packed_length_le _ _
    · obtain ⟨rest, hrest⟩ := hkept
      rw [← hrest, List.flatten_append]
      exact List.prefix_append _ _

/-- The sign is dropped and the letter behind it kept. -/
theorem truncates_euro :
    decodeJsonString (bytes "\\u20aca") 2 = some (bytes "a") ∧
      decodeJsonString (bytes "\\u20aca") 7 = some [0xe2, 0x82, 0xac, ch 'a'] ∧
      ¬ Truncates (bytes "\\u20aca") 2 := by
  have hshort : decodeJsonString (bytes "\\u20aca") 2 = some (bytes "a") := by decide
  have hwhole : decodeJsonString (bytes "\\u20aca") 7 = some [0xe2, 0x82, 0xac, ch 'a'] := by
    decide
  refine ⟨hshort, hwhole, ?_⟩
  intro h
  obtain ⟨out, whole, hout, hall, -, hprefix, -⟩ := h
  rw [hshort, Option.some.injEq] at hout
  rw [← hout, Option.some.inj ((hall 7 (by decide)).symm.trans hwhole)] at hprefix
  exact absurd hprefix (by decide)

end Espbase.StackJson
