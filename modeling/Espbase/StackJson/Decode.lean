import Espbase.StackJson.Coerce

namespace Espbase.StackJson

open Espbase.Lib

section total
variable (input : Bytes) (outSize : Nat)

theorem putOut_lt (out : Bytes) (c : UInt8) (h : out.length < outSize) :
    putOut outSize out c = some (out ++ [c]) := if_pos h

theorem putAll_spec (cs out : Bytes) (h : out.length + cs.length ≤ outSize) :
    putAll outSize out cs = some (out ++ cs) := by
  induction cs generalizing out with
  | nil => simp [putAll]
  | cons c cs ih =>
    simp only [List.length_cons] at h
    rw [putAll, putOut_lt outSize out c (by omega)]
    simp only [Option.bind_eq_bind, Option.bind_some]
    rw [ih (out ++ [c]) (by simp; omega)]
    simp

theorem codepointBytes_length_pos (codepoint : Nat) : 0 < (codepointBytes codepoint).length := by
  unfold codepointBytes
  split_ifs <;> simp

theorem putCodepoint_spec (out : Bytes) (codepoint : Nat) (h : out.length ≤ outSize) :
    ∃ out', putCodepoint outSize out codepoint = some out' ∧ out'.length ≤ outSize := by
  have hpos := codepointBytes_length_pos codepoint
  unfold putCodepoint
  simp only
  split_ifs with hroom
  · refine ⟨_, putAll_spec outSize _ out (by omega), ?_⟩
    rw [List.length_append]
    omega
  · exact ⟨out, rfl, h⟩

theorem hexLoop_total (i n j codepoint : Nat) (h : i + j + n ≤ input.length) :
    ∃ r, hexLoop input i n j codepoint = some r := by
  induction n generalizing j codepoint with
  | zero => exact ⟨some codepoint, rfl⟩
  | succ n ih =>
    have hread : input[i + j]? = some input[i + j] := List.getElem?_eq_getElem (by omega)
    simp only [hexLoop, hread, Option.bind_eq_bind, Option.bind_some]
    cases hexValue input[i + j] with
    | none => exact ⟨none, rfl⟩
    | some d => exact ih (j + 1) _ (by omega)

theorem putUnicode_spec (i : Nat) (out : Bytes) (h : out.length < outSize) :
    ∃ i' out', putUnicode input outSize i out = some (i', out') ∧ i < i' ∧ out'.length ≤ outSize := by
  have hfall : (out ++ [ch 'u']).length ≤ outSize := by
    rw [List.length_append, List.length_singleton]
    omega
  unfold putUnicode
  split_ifs with hfour
  · obtain ⟨r, hr⟩ := hexLoop_total input i 4 1 0 (by omega)
    simp only [hr, Option.bind_eq_bind, Option.bind_some]
    cases r with
    | none => exact ⟨i + 1, _, by rw [putOut_lt outSize out _ h]; rfl, by omega, hfall⟩
    | some codepoint =>
      obtain ⟨out', ho, hl⟩ := putCodepoint_spec outSize out codepoint (Nat.le_of_lt h)
      exact ⟨i + 5, out', by simp [ho], by omega, hl⟩
  · exact ⟨i + 1, _, by rw [putOut_lt outSize out _ h]; rfl, by omega, hfall⟩

/-- Decoding ends on every input, reads inside it and stays inside the output span. -/
theorem decodeJsonString_total :
    ∃ out, decodeJsonString input outSize = some out ∧ out.length ≤ outSize := by
  apply iterate_spec (decodeTurn input outSize) (fun st => input.length - st.1)
    (fun st => st.2.length ≤ outSize) (fun _ out => out.length ≤ outSize)
  · rintro ⟨i, out⟩ hout
    unfold Advances decodeTurn
    simp only at hout ⊢
    by_cases hgo : i < input.length ∧ out.length < outSize
    · have hread : input[i]? = some input[i] := List.getElem?_eq_getElem hgo.1
      have hput (c : UInt8) : (out ++ [c]).length ≤ outSize := by
        rw [List.length_append, List.length_singleton]
        omega
      simp only [if_pos hgo, hread, Option.bind_eq_bind, Option.bind_some]
      by_cases hesc : input[i] = ch '\\' ∧ i + 1 < input.length
      · have hread2 : input[i + 1]? = some input[i + 1] := List.getElem?_eq_getElem hesc.2
        simp only [if_pos hesc, hread2, Option.bind_some]
        by_cases hu : input[i + 1] = ch 'u'
        · obtain ⟨i', out', hp, hi, ho⟩ := putUnicode_spec input outSize (i + 1) out hgo.2
          refine .inr ⟨(i', out'), by simp only [if_pos hu, hp, Option.bind_some], ?_, ho, ?_⟩
          · simp only
            omega
          · exact fun r hr => hr
        · refine .inr ⟨(i + 2, out ++ [unescaped input[i + 1]]), ?_, ?_, hput _, fun r hr => hr⟩
          · simp only [if_neg hu, putOut_lt outSize out _ hgo.2, Option.bind_some]
          · simp only
            omega
      · refine .inr ⟨(i + 1, out ++ [input[i]]), ?_, ?_, hput _, fun r hr => hr⟩
        · simp only [if_neg hesc, putOut_lt outSize out _ hgo.2, Option.bind_some]
        · simp only
          omega
    · exact .inl ⟨out, by simp only [if_neg hgo], hout⟩
  · exact Nat.zero_le _
  · simp only
    omega

end total

end Espbase.StackJson
