import Espbase.Lib.TreeDoc
import Espbase.StackJson.DecodeResults
import Espbase.StackJson.Escapers
import Espbase.StackJson.TextLookups

namespace Espbase.StackJson

open Espbase.Lib

section scan

/-- The scan for the end of a string stops at its closing quote. -/
theorem string_body (json : Bytes) (i : Nat) (raw s : Bytes) (hraw : IsStringBody raw)
    (hd : json.drop i = raw ++ ch '"' :: s) :
    iterate (stringTurn json) (scanFuel json) i = some (i + raw.length) := by
  obtain ⟨r, hr, hle, hscan⟩ := string_spec json i
  rw [hd, scanString_body raw s hraw, Prod.mk.injEq] at hscan
  obtain ⟨htake, hrest⟩ := hscan
  have hlen := congrArg List.length hd
  have hlenRest := congrArg List.length hrest
  simp only [List.length_drop, List.length_append, List.length_cons] at hlen hlenRest
  have hend : i + raw.length = r := by omega
  rw [hr, hend]

end scan

/-- The text between the quotes of a literal is read as the string. -/
structure ReadsBack (s text : Bytes) : Prop where
  decoded : ∀ outSize, s.length ≤ outSize → decodeJsonString text outSize = some s
  /-- in any text, the scan that starts behind the opening quote stops at the closing one -/
  scanned : ∀ before after json, json = before ++ ch '"' :: (text ++ ch '"' :: after) →
    iterate (stringTurn json) (scanFuel json) (before.length + 1) =
      some (before.length + 1 + text.length)

theorem escape_readsBack (s : Bytes) : ReadsBack s (escape s) := by
  refine ⟨?_, ?_⟩
  · intro outSize hroom
    exact decodeJsonString_escape s outSize hroom
  · rintro before after json rfl
    apply string_body _ _ (escape s) after (escape_body s)
    rw [← List.drop_drop, List.drop_left, List.drop_succ_cons, List.drop_zero]

/-- What `write_escaped` puts between its quotes is read as the string that it was given, on either
buffer. -/
theorem writeEscaped_readsBack (s : Bytes) :
    (∀ (maxSize : Nat) (b b' : StackBuffer maxSize) (n : Nat), b.Within →
      writeEscaped b s = some (b', n) → n ≠ 0 →
        ∃ text, b'.view = b.view ++ ch '"' :: (text ++ [ch '"']) ∧ ReadsBack s text) ∧
    (∀ (expandSize : Nat) (b b' : DynamicBuffer expandSize) (n : Nat), b.Within →
      writeEscaped b s = some (b', n) → n ≠ 0 →
        ∃ text, b'.view = b.view ++ ch '"' :: (text ++ [ch '"']) ∧ ReadsBack s text) := by
  refine ⟨?_, ?_⟩
  · intro maxSize b b' n hw he hn
    have hg : b.bad = false := by
      by_contra hbad
      rw [Bool.not_eq_false] at hbad
      rw [StackBuffer.writeEscaped_bad b s hbad] at he
      exact hn (Prod.mk.inj (Option.some.inj he)).2.symm
    obtain ⟨b₁, n₁, he₁, hs⟩ := StackBuffer.writeEscaped_sent b s hw hg
    obtain ⟨rfl, rfl⟩ := Prod.mk.inj (Option.some.inj (he.symm.trans he₁))
    rw [bne_iff_ne.mpr hn] at hs
    cases hs with
    | all _ ha =>
      refine ⟨escape s, ?_, escape_readsBack s⟩
      rw [ha.view, stringChunks_flatten]
      rfl
  · intro expandSize b b' n hw he hn
    have hg : b.bad = false := by
      by_contra hbad
      rw [Bool.not_eq_false] at hbad
      have hstop : writeEscaped b s = some (b, 0) := if_pos hbad
      rw [hstop] at he
      exact hn (Prod.mk.inj (Option.some.inj he)).2.symm
    obtain ⟨b₁, n₁, he₁, -, ha⟩ := DynamicBuffer.writeEscaped_appends b s hw hg
    obtain ⟨rfl, rfl⟩ := Prod.mk.inj (Option.some.inj (he.symm.trans he₁))
    refine ⟨escape s, ?_, escape_readsBack s⟩
    rw [ha.view]
    rfl

theorem writeEscaped_readsBack_line :
    ∃ b' text, writeEscaped (StackBuffer.empty 8) (bytes "\\\n") = some (b', 6) ∧
      b'.view = ch '"' :: (text ++ [ch '"']) ∧ ReadsBack (bytes "\\\n") text := by
  have hwrite : ∃ b', writeEscaped (StackBuffer.empty 8) (bytes "\\\n") = some (b', 6) := ⟨_, rfl⟩
  obtain ⟨b', he⟩ := hwrite
  obtain ⟨hstack, -⟩ := writeEscaped_readsBack (bytes "\\\n")
  obtain ⟨text, hview, hreads⟩ := hstack 8 (StackBuffer.empty 8) b' 6 (Nat.zero_le 8) he (by decide)
  exact ⟨b', text, he, hview, hreads⟩

end Espbase.StackJson
