import Espbase.Lib.Chunks
import Espbase.Lib.JsonString
import Espbase.StackJson.Decode

namespace Espbase.StackJson

open Espbase.Lib

section results

/-- The number that the four hex digits at the start of a text make. -/
def hexPrefix : Bytes → Option Nat
  | a :: b :: c :: d :: _ => do
    let a ← hexValue a
    let b ← hexValue b
    let c ← hexValue c
    let d ← hexValue d
    some (((a * 16 + b) * 16 + c) * 16 + d)
  | _ => none

/-- What the turns of the decoding loop write, one after the other, where there is room for everything. -/
def decodeResults : Bytes → List Bytes
  | [] => []
  | [c] => [[c]]
  | c :: d :: s =>
    if c = ch '\\' then
      if d = ch 'u' then
        match hexPrefix s with
        | some codepoint => codepointBytes codepoint :: decodeResults (s.drop 4)
        | none => [ch 'u'] :: decodeResults s
      else [unescaped d] :: decodeResults s
    else [c] :: decodeResults (d :: s)
termination_by s => s.length
decreasing_by all_goals simp only [List.length_cons, List.length_drop]; omega

@[simp] theorem decodeResults_nil : decodeResults [] = [] := by rw [decodeResults]

theorem decodeResults_unicode (s : Bytes) (v : Nat) (h : hexPrefix s = some v) :
    decodeResults (ch '\\' :: ch 'u' :: s) = codepointBytes v :: decodeResults (s.drop 4) := by
  rw [decodeResults, if_pos rfl, if_pos rfl, h]

theorem decodeResults_noUnicode (s : Bytes) (h : hexPrefix s = none) :
    decodeResults (ch '\\' :: ch 'u' :: s) = [ch 'u'] :: decodeResults s := by
  rw [decodeResults, if_pos rfl, if_pos rfl, h]

theorem decodeResults_short (d : UInt8) (s : Bytes) (h : d ≠ ch 'u') :
    decodeResults (ch '\\' :: d :: s) = [unescaped d] :: decodeResults s := by
  rw [decodeResults, if_pos rfl, if_neg h]

theorem decodeResults_raw (c : UInt8) (s : Bytes) (h : c ≠ ch '\\' ∨ s = []) :
    decodeResults (c :: s) = [c] :: decodeResults s := by
  cases s with
  | nil => simp [decodeResults]
  | cons d s =>
    have hc : c ≠ ch '\\' := h.resolve_right (List.cons_ne_nil d s)
    rw [decodeResults, if_neg hc]

/-- Every turn writes something. -/
theorem nil_notMem_decodeResults (s : Bytes) : [] ∉ decodeResults s := by
  fun_induction decodeResults s with
  | case1 => simp
  | case2 c => simp
  | case3 s v h ih =>
    have hpos := codepointBytes_length_pos v
    rw [List.mem_cons, not_or]
    exact ⟨(List.ne_nil_of_length_pos hpos).symm, ih⟩
  | case4 s h ih => simpa using ih
  | case5 d s hd ih => simpa using ih
  | case6 c d s hc ih => simpa using ih

theorem decodeResults_length_le (s : Bytes) : (decodeResults s).flatten.length ≤ s.length := by
  have hthree (v : Nat) : (codepointBytes v).length ≤ 3 := by
    unfold codepointBytes
    split_ifs <;> simp
  fun_induction decodeResults s with
  | case1 => simp
  | case2 c => simp
  | case3 s v h ih =>
    have hfour : 4 ≤ s.length := by
      match s with
      | _ :: _ :: _ :: _ :: s => simp
      | [] | [_] | [_, _] | [_, _, _] => simp [hexPrefix] at h
    have hv := hthree v
    simp only [List.flatten_cons, List.length_append, List.length_cons, List.length_drop] at ih ⊢
    omega
  | case4 s h ih =>
    simp only [List.flatten_cons, List.length_append, List.length_cons, List.length_nil]
    omega
  | case5 d s hd ih =>
    simp only [List.flatten_cons, List.length_append, List.length_cons, List.length_nil]
    omega
  | case6 c d s hc ih =>
    simp only [List.flatten_cons, List.length_append, List.length_cons, List.length_nil] at ih ⊢
    omega

end results

section turns
variable (input : Bytes) (outSize : Nat)

theorem hexValue_lt (c : UInt8) : ∀ v ∈ hexValue c, v < 16 := by
  intro v hv
  have h9 : (ch '9').toNat = 57 := rfl
  have hf : (ch 'f').toNat = 102 := rfl
  have hF : (ch 'F').toNat = 70 := rfl
  simp only [hexValue, UInt8.le_iff_toNat_le, Option.mem_def, h9, hf, hF] at hv
  split_ifs at hv with h h h
  all_goals
    have hval := Option.some.inj hv
    omega

theorem get_of_drop (input s : Bytes) (i k : Nat) (h : input.drop i = s) :
    input[i + k]? = s[k]? := by rw [← h, List.getElem?_drop]

/-- The loop over the hex digits reads the number in front of it. -/
theorem hexLoop_eq (i : Nat) (s : Bytes) (hd : input.drop (i + 1) = s) (hlen : 4 ≤ s.length) :
    hexLoop input i 4 1 0 = some (hexPrefix s) := by
  match s with
  | a :: b :: c :: d :: s =>
    have get (k : Nat) := get_of_drop input _ (i + 1) k hd
    have h1 : input[i + 1]? = some a := get 0
    have h2 : input[i + (1 + 1)]? = some b := get 1
    have h3 : input[i + (1 + 1 + 1)]? = some c := get 2
    have h4 : input[i + (1 + 1 + 1 + 1)]? = some d := get 3
    simp only [hexLoop, hexPrefix, h1, h2, h3, h4, Option.bind_eq_bind, Option.bind_some]
    cases ha : hexValue a with
    | none => rfl
    | some va =>
    cases hb : hexValue b with
    | none => rfl
    | some vb =>
    cases hc : hexValue c with
    | none => rfl
    | some vc =>
    cases hd : hexValue d with
    | none => rfl
    | some vd =>
      have := hexValue_lt a va ha
      have := hexValue_lt b vb hb
      have := hexValue_lt c vc hc
      have := hexValue_lt d vd hd
      simp only [Option.bind_some, Option.some.injEq]
      omega

theorem putCodepoint_eq (out : Bytes) (v : Nat) :
    putCodepoint outSize out v =
      some (if out.length + (codepointBytes v).length ≤ outSize then out ++ codepointBytes v else out) := by
  have hpos := codepointBytes_length_pos v
  unfold putCodepoint
  dsimp only
  by_cases h : out.length + (codepointBytes v).length ≤ outSize
  · rw [if_pos h, if_pos (by omega), putAll_spec outSize _ out h]
  · rw [if_neg h, if_neg (by omega)]

theorem hexPrefix_short (s : Bytes) (h : s.length < 4) : hexPrefix s = none := by
  match s with
  | _ :: _ :: _ :: _ :: s =>
    simp only [List.length_cons] at h
    omega
  | [] | [_] | [_, _] | [_, _, _] => rfl

/-- Each turn writes the next result if there is room for it, and leaves it out if there is not. -/
theorem decodeTurn_step (i : Nat) (out : Bytes) (hi : i < input.length) (hout : out.length < outSize) :
    ∃ i' w, decodeTurn input outSize (i, out) =
        some (.next (i', if out.length + w.length ≤ outSize then out ++ w else out)) ∧ i < i' ∧
      decodeResults (input.drop i) = w :: decodeResults (input.drop i') := by
  have hone (c : UInt8) : (if out.length + [c].length ≤ outSize then out ++ [c] else out) = out ++ [c] :=
    if_pos hout
  have hread : input[i]? = some input[i] := List.getElem?_eq_getElem hi
  have hdrop : input.drop i = input[i] :: input.drop (i + 1) := List.drop_eq_getElem_cons hi
  unfold decodeTurn
  simp only [if_pos (And.intro hi hout), hread, Option.bind_eq_bind, Option.bind_some]
  by_cases hesc : input[i] = ch '\\' ∧ i + 1 < input.length
  · have hread2 : input[i + 1]? = some input[i + 1] := List.getElem?_eq_getElem hesc.2
    have hdrop2 : input.drop i = ch '\\' :: input[i + 1] :: input.drop (i + 2) := by
      rw [hdrop, hesc.1, List.drop_eq_getElem_cons hesc.2]
    simp only [if_pos hesc, hread2, Option.bind_some]
    by_cases hu : input[i + 1] = ch 'u'
    · rw [hu] at hdrop2
      have hfall (hnone : hexPrefix (input.drop (i + 2)) = none) :
          decodeResults (input.drop i) = [ch 'u'] :: decodeResults (input.drop (i + 2)) := by
        rw [hdrop2, decodeResults_noUnicode _ hnone]
      have hrest : (input.drop (i + 2)).length = input.length - (i + 2) := List.length_drop
      unfold putUnicode
      simp only [if_pos hu]
      by_cases hfour : i + 1 + 4 < input.length
      · rw [if_pos hfour, hexLoop_eq input (i + 1) (input.drop (i + 2)) rfl (by omega)]
        cases hv : hexPrefix (input.drop (i + 2)) with
        | some v =>
          refine ⟨i + 6, codepointBytes v, ?_, by omega, ?_⟩
          · simp only [Option.bind_eq_bind, Option.bind_some, putCodepoint_eq]
          · rw [hdrop2, decodeResults_unicode _ v hv, List.drop_drop]
        | none =>
          refine ⟨i + 2, [ch 'u'], ?_, by omega, hfall hv⟩
          rw [hone]
          simp only [Option.bind_eq_bind, Option.bind_some, putOut_lt outSize out _ hout]
      · have hnone := hexPrefix_short (input.drop (i + 2)) (by omega)
        refine ⟨i + 2, [ch 'u'], ?_, by omega, hfall hnone⟩
        rw [hone, if_neg hfour]
        simp only [Option.bind_eq_bind, Option.bind_some, putOut_lt outSize out _ hout]
    · refine ⟨i + 2, [unescaped input[i + 1]], ?_, by omega, ?_⟩
      · simp only [if_neg hu, putOut_lt outSize out _ hout, Option.bind_some, hone]
      · rw [hdrop2, decodeResults_short _ _ hu]
  · refine ⟨i + 1, [input[i]], ?_, by omega, ?_⟩
    · simp only [if_neg hesc, putOut_lt outSize out _ hout, Option.bind_some, hone]
    · rw [hdrop, decodeResults_raw]
      rcases not_and_or.mp hesc with hc | hlast
      · exact .inl hc
      · exact .inr (List.drop_eq_nil_of_le (Nat.le_of_not_lt hlast))

/-- Decoding writes the results that fit, one after the other, and leaves out the others. -/
theorem decodeJsonString_eq :
    decodeJsonString input outSize = some (packed outSize (decodeResults input)) := by
  have hturn (st : Nat × Bytes) (hst : st.2.length ≤ outSize) : Advances (decodeTurn input outSize)
      (fun st => input.length - st.1) (fun st => st.2.length ≤ outSize)
      (fun st r => r = st.2 ++ packed (outSize - st.2.length) (decodeResults (input.drop st.1))) st := by
    obtain ⟨i, out⟩ := st
    unfold Advances
    by_cases hgo : i < input.length ∧ out.length < outSize
    · obtain ⟨i', w, ht, hlt, hresults⟩ := decodeTurn_step input outSize i out hgo.1 hgo.2
      refine .inr ⟨_, ht, ?_, ?_, ?_⟩
      · show input.length - i' < input.length - i
        omega
      · show List.length _ ≤ outSize
        split_ifs with hfits
        · rwa [List.length_append]
        · exact hst
      · rintro r rfl
        dsimp only at hst ⊢
        rw [hresults, packed]
        by_cases hfits : out.length + w.length ≤ outSize
        · rw [if_pos hfits, if_pos (by omega), List.length_append, List.append_assoc, Nat.sub_add_eq]
        · rw [if_neg hfits, if_neg (by omega)]
    · refine .inl ⟨out, ?_, ?_⟩
      · simp only [decodeTurn, if_neg hgo]
      · -- either nothing is left of the input, or no room for any result
        dsimp only at hst ⊢
        rw [eq_comm, List.append_right_eq_self, packed_eq_nil_iff _ (nil_notMem_decodeResults _)]
        intro w hw
        by_cases hi : i < input.length
        · have hfull : outSize - out.length = 0 := by omega
          have hne : w ≠ [] := fun h => nil_notMem_decodeResults _ (h ▸ hw)
          rw [hfull]
          exact List.length_pos_iff.mpr hne
        · rw [List.drop_eq_nil_of_le (Nat.le_of_not_lt hi), decodeResults_nil] at hw
          cases hw
  obtain ⟨r, hr, rfl⟩ := iterate_spec _ _ _ _ hturn (input.length + 1) (0, []) (Nat.zero_le _)
    (Nat.lt_succ_self _)
  rw [decodeJsonString, hr]
  simp

/-- A span as large as the input has room for everything. -/
theorem decodeJsonString_whole (h : input.length ≤ outSize) :
    decodeJsonString input outSize = some (decodeResults input).flatten := by
  have hlen := decodeResults_length_le input
  rw [decodeJsonString_eq, packed_eq_flatten _ _ (by omega)]

end turns

section escape

/-- The escape of a special byte is a letter escape or the four hex digits of its code. -/
theorem escapeByte_special (c : UInt8) (h : Special c) :
    (escapeByte c = [ch '\\', (escapeByte c).getD 1 0] ∧ (escapeByte c).getD 1 0 ≠ ch 'u' ∧
        unescaped ((escapeByte c).getD 1 0) = c) ∨
      (escapeByte c = [ch '\\', ch 'u', ch '0', ch '0', hexDigit (c.toNat / 16),
          hexDigit (c.toNat % 16)] ∧
        hexValue (hexDigit (c.toNat / 16)) = some (c.toNat / 16) ∧
        hexValue (hexDigit (c.toNat % 16)) = some (c.toNat % 16)) := by
  revert c
  decide +kernel

theorem codepointBytes_byte (c : UInt8) (h : c.toNat ≤ 0x7f) :
    codepointBytes c.toNat = [c] := by
  rw [codepointBytes, if_pos h]
  simp

theorem decodeResults_escapeByte (c : UInt8) (s : Bytes) :
    decodeResults (escapeByte c ++ s) = [c] :: decodeResults s := by
  by_cases hs : Special c
  · obtain ⟨he, hnu, hun⟩ | ⟨he, hx, hy⟩ := escapeByte_special c hs
    · rw [he]
      show decodeResults (ch '\\' :: (escapeByte c).getD 1 0 :: s) = [c] :: decodeResults s
      rw [decodeResults_short _ _ hnu, hun]
    · have hz : hexValue (ch '0') = some 0 := by decide
      have hcode : ((0 * 16 + 0) * 16 + c.toNat / 16) * 16 + c.toNat % 16 = c.toNat := by omega
      have hhex : hexPrefix (ch '0' :: ch '0' :: hexDigit (c.toNat / 16) :: hexDigit (c.toNat % 16) :: s) =
          some c.toNat := by
        simp only [hexPrefix, hz, hx, hy, Option.bind_eq_bind, Option.bind_some, hcode]
      rw [he, ← codepointBytes_byte c (special_le c hs)]
      exact decodeResults_unicode _ _ hhex
  · rw [escapeByte_plain c hs, List.singleton_append, decodeResults_raw]
    exact .inl fun h => hs (.inr (.inl h))

theorem decodeResults_escaped (s : Bytes) : (decodeResults (escape s)).flatten = s := by
  induction s with
  | nil => simp
  | cons c s ih =>
    rw [escape_cons, decodeResults_escapeByte, List.flatten_cons, ih]
    rfl

/-- Decoding undoes escaping. -/
theorem decodeJsonString_escape (s : Bytes) (outSize : Nat) (h : s.length ≤ outSize) :
    decodeJsonString (escape s) outSize = some s := by
  have hs := decodeResults_escaped s
  rw [decodeJsonString_eq, packed_eq_flatten _ _ (by rwa [hs]), hs]

end escape

end Espbase.StackJson
