import Espbase.StackJson.NumberWrite

namespace Espbase.StackJson

open Espbase.Lib

/-- A property of a buffer that each of its operations keeps. -/
structure Stable {σ : Type} [Buffer σ] (P : σ → Prop) : Prop where
  write : ∀ b str b' n, P b → Buffer.write b str = some (b', n) → P b'
  span : ∀ b, P b → P (Buffer.getWriteSpan b).1
  store : ∀ b i str b', P b → Buffer.store b i str = some b' → P b'
  commit : ∀ b n b', P b → Buffer.commit b n = some b' → P b'
  fail : ∀ b, P b → P (Buffer.fail b)

namespace Stable
variable {σ : Type} [Buffer σ] {P : σ → Prop} (hP : Stable P)
include hP

theorem flush (b : σ) (run : Bytes) (b' : σ) (ok : Bool) (h : P b)
    (he : StackJson.flush b run = some (b', ok)) : P b' := by
  unfold StackJson.flush at he
  split_ifs at he
  · cases he
    exact h
  · obtain ⟨⟨b1, n⟩, h1, h2⟩ := Option.bind_eq_some_iff.mp he
    cases h2
    exact hP.write b run _ n h h1

theorem escapeLoop (str : Bytes) (b : σ) (run : Bytes) (b' : σ) (ok : Bool) (h : P b)
    (he : StackJson.escapeLoop b run str = some (b', ok)) : P b' := by
  induction str generalizing b run with
  | nil => exact hP.flush b run b' ok h he
  | cons c str ih =>
    rw [StackJson.escapeLoop] at he
    split_ifs at he
    · obtain ⟨⟨b1, ok1⟩, h1, he⟩ := Option.bind_eq_some_iff.mp he
      have hb1 := hP.flush b run b1 ok1 h h1
      cases ok1 with
      | false =>
        cases he
        exact hb1
      | true =>
        obtain ⟨⟨b2, n2⟩, h2, he⟩ := Option.bind_eq_some_iff.mp he
        have hb2 := hP.write b1 _ b2 n2 hb1 h2
        dsimp only at he
        split_ifs at he
        · cases he
          exact hb2
        · exact ih b2 [] hb2 he
    · exact ih b (run ++ [c]) h he

theorem writeQuoted (b : σ) (str : Bytes) (before : Nat) (b' : σ) (n : Nat) (h : P b)
    (he : StackJson.writeQuoted b str before = some (b', n)) : P b' := by
  obtain ⟨⟨b1, n1⟩, h1, he⟩ := Option.bind_eq_some_iff.mp he
  have hb1 := hP.write b _ b1 n1 h h1
  dsimp only at he
  split_ifs at he
  · cases he
    exact hb1
  · obtain ⟨⟨b2, ok⟩, h2, he⟩ := Option.bind_eq_some_iff.mp he
    have hb2 := hP.escapeLoop str b1 [] b2 ok hb1 h2
    cases ok with
    | false =>
      cases he
      exact hb2
    | true =>
      obtain ⟨⟨b3, n3⟩, h3, he⟩ := Option.bind_eq_some_iff.mp he
      have hb3 := hP.write b2 _ b3 n3 hb2 h3
      dsimp only at he
      split_ifs at he <;> cases he <;> exact hb3

theorem writeOneShot (b : σ) (str : Bytes) (b' : σ) (n : Nat) (h : P b)
    (he : StackJson.writeOneShot b str = some (b', n)) : P b' := by
  obtain ⟨b1, h1, he⟩ := Option.bind_eq_some_iff.mp he
  obtain ⟨b2, h2, he⟩ := Option.bind_eq_some_iff.mp he
  obtain ⟨b3, h3, he⟩ := Option.bind_eq_some_iff.mp he
  obtain ⟨b4, h4, he⟩ := Option.bind_eq_some_iff.mp he
  cases he
  have hb1 := hP.store b _ _ b1 h h1
  have hb2 : P b2 := by
    unfold copyContent at h2
    split_ifs at h2
    · cases h2
      exact hb1
    · exact hP.store b1 _ _ b2 hb1 h2
  exact hP.commit b3 _ _ (hP.store b2 _ _ b3 hb2 h3) h4

theorem writeEscaped (b : σ) (str : Bytes) (b' : σ) (n : Nat) (h : P b)
    (he : StackJson.writeEscaped b str = some (b', n)) : P b' := by
  unfold StackJson.writeEscaped at he
  dsimp only at he
  split_ifs at he
  · cases he
    exact h
  · exact hP.writeQuoted b str _ b' n h he
  · exact hP.writeOneShot _ str b' n (hP.span b h) he
  · exact hP.writeQuoted _ str _ b' n (hP.span b h) he

theorem writeDigits (p : Nat) (b : σ) (value : Nat) (b' : σ) (h : P b)
    (he : StackJson.writeDigits b p value = some b') : P b' := by
  induction p generalizing b value with
  | zero => cases he
  | succ p ih =>
    obtain ⟨b1, h1, he⟩ := Option.bind_eq_some_iff.mp he
    have hb1 := hP.store b _ _ b1 h h1
    split_ifs at he
    · exact ih b1 _ hb1 he
    · cases he
      exact hb1

theorem putDecimal (b : σ) (span value : Nat) (neg : Bool) (b' : σ) (h : P b)
    (he : StackJson.putDecimal b span value neg = some b') : P b' := by
  unfold StackJson.putDecimal at he
  generalize (decimal value).length + (if neg then 1 else 0) = len at he
  dsimp only at he
  split_ifs at he
  · cases he
    exact hP.fail b h
  · obtain ⟨b1, h1, he⟩ := Option.bind_eq_some_iff.mp he
    obtain ⟨b2, h2, he⟩ := Option.bind_eq_some_iff.mp he
    have hb1 := hP.writeDigits _ b value b1 h h1
    have hb2 : P b2 := by
      unfold writeSign at h2
      split_ifs at h2
      · exact hP.store b1 _ _ b2 hb1 h2
      · cases h2
        exact hb1
    exact hP.commit b2 _ b' hb2 he

theorem writeInteger (b : σ) (n : Integer) (b' : σ) (h : P b) (hg : Buffer.bad b = false)
    (he : StackJson.writeInteger b n = some b') : P b' := by
  rw [writeInteger_eq b n hg] at he
  exact hP.putDecimal _ _ _ _ b' (hP.span b h) he

end Stable

end Espbase.StackJson
