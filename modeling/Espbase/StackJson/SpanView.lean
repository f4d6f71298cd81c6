import Espbase.StackJson.Number
import Espbase.StackJson.Printer

namespace Espbase.StackJson

open Espbase.Lib

/-- The span, the failure flag and the commits of a buffer are those of another one inside it. -/
structure SpanView {σ τ : Type} [Buffer σ] [Buffer τ] (get : σ → τ) (set : σ → τ → σ) : Prop where
  get_set : ∀ s t, get (set s t) = t
  set_get : ∀ s, set s (get s) = s
  set_set : ∀ s t u, set (set s t) u = set s u
  bad : ∀ s, Buffer.bad s = Buffer.bad (get s)
  fail : ∀ s, Buffer.fail s = set s (Buffer.fail (get s))
  span : ∀ s, Buffer.getWriteSpan s =
    (set s (Buffer.getWriteSpan (get s)).1, (Buffer.getWriteSpan (get s)).2)
  load : ∀ s i, Buffer.load s i = Buffer.load (get s) i
  store : ∀ s i str, Buffer.store s i str = (Buffer.store (get s) i str).map (set s)
  commit : ∀ s n, Buffer.commit s n = (Buffer.commit (get s) n).map (set s)

namespace SpanView
variable {σ τ : Type} [Buffer σ] [Buffer τ] {get : σ → τ} {set : σ → τ → σ}

omit [Buffer σ] [Buffer τ] in
/-- Going on after a step that was made on the inner buffer. -/
theorem bind_map {α β : Type} (r : Option τ) (put : τ → σ) (f : σ → Option α) (g : τ → Option β)
    (m : β → α) (hfg : ∀ t, f (put t) = (g t).map m) :
    (r.map put).bind f = (r.bind g).map m := by
  cases r with
  | none => rfl
  | some t => exact hfg t

theorem set_funext (h : SpanView get set) (s : σ) (t : τ) : set (set s t) = set s :=
  funext fun u => h.set_set s t u

theorem store_set (h : SpanView get set) (s : σ) (t : τ) (i : Nat) (str : Bytes) :
    Buffer.store (set s t) i str = (Buffer.store t i str).map (set s) := by
  rw [h.store, h.get_set, h.set_funext]

theorem commit_set (h : SpanView get set) (s : σ) (t : τ) (n : Nat) :
    Buffer.commit (set s t) n = (Buffer.commit t n).map (set s) := by
  rw [h.commit, h.get_set, h.set_funext]

theorem writeDigits_set (h : SpanView get set) (s : σ) (t : τ) (p value : Nat) :
    writeDigits (set s t) p value = (writeDigits t p value).map (set s) := by
  induction p generalizing t value with
  | zero => rfl
  | succ p ih =>
    rw [writeDigits, writeDigits, h.store_set]
    apply bind_map _ _ _ _ _
    intro u
    split_ifs
    · exact ih u (value / 10)
    · rfl

theorem writeSign_set (h : SpanView get set) (s : σ) (t : τ) (neg : Bool) :
    writeSign (set s t) neg = (writeSign t neg).map (set s) := by
  cases neg with
  | true => exact h.store_set s t 0 _
  | false => rfl

theorem writeUnsigned_eq (h : SpanView get set) (s : σ) (w : Width) (value : Nat) :
    writeUnsigned s w value = (writeUnsigned (get s) w value).map (set s) := by
  unfold writeUnsigned
  simp only [h.bad, h.span, h.fail, h.get_set, h.set_set]
  by_cases hb : Buffer.bad (get s) = true
  · rw [if_pos hb, if_pos hb, Option.map_some, h.set_get]
  rw [if_neg hb, if_neg hb]
  split_ifs
  · rfl
  · rw [h.writeDigits_set]
    exact bind_map _ _ _ _ _ fun t => h.commit_set s t _

theorem writeSigned_eq (h : SpanView get set) (s : σ) (w : Width) (value : Int) :
    writeSigned s w value = (writeSigned (get s) w value).map (set s) := by
  unfold writeSigned
  simp only [h.bad, h.span, h.fail, h.get_set, h.set_set]
  by_cases hb : Buffer.bad (get s) = true
  · rw [if_pos hb, if_pos hb, Option.map_some, h.set_get]
  rw [if_neg hb, if_neg hb]
  by_cases hl : numDigits w (if decide (value < 0) = true
      then (2 ^ w.bits - toUnsigned w value) % 2 ^ w.bits else toUnsigned w value) +
      (if decide (value < 0) = true then 1 else 0) > (Buffer.getWriteSpan (get s)).2
  · rw [if_pos hl, if_pos hl]
    rfl
  · rw [if_neg hl, if_neg hl, h.writeDigits_set]
    apply bind_map _ _ _ _ _
    intro t
    rw [h.writeSign_set]
    exact bind_map _ _ _ _ _ fun t => h.commit_set s t _

/-- Integers are written into the inner buffer. -/
theorem writeInteger_eq (h : SpanView get set) (s : σ) (n : Integer) :
    writeInteger s n = (writeInteger (get s) n).map (set s) := by
  unfold writeInteger
  by_cases hs : n.type.signed = true
  · simp only [hs, if_true]
    exact h.writeSigned_eq s _ _
  · simp only [hs, if_false, Bool.false_eq_true]
    exact h.writeUnsigned_eq s _ _

theorem copyContent_set (h : SpanView get set) (s : σ) (t : τ) (str : Bytes) :
    copyContent (set s t) str = (copyContent t str).map (set s) := by
  unfold copyContent
  split_ifs
  · rfl
  · exact h.store_set s t 1 str

/-- A quoted string goes in one piece into the inner buffer. -/
theorem writeOneShot_set (h : SpanView get set) (s : σ) (t : τ) (str : Bytes) :
    writeOneShot (set s t) str = (writeOneShot t str).map fun r => (set s r.1, r.2) := by
  unfold writeOneShot
  simp only [h.store_set]
  apply bind_map _ _ _ _ _
  intro t
  rw [h.copyContent_set]
  apply bind_map _ _ _ _ _
  intro t
  rw [h.store_set]
  apply bind_map _ _ _ _ _
  intro t
  rw [h.commit_set]
  exact bind_map _ _ _ _ _ fun t => rfl

theorem vsnprintf_set (h : SpanView get set) (s : σ) (t : τ) (span : Nat) (text : Bytes) :
    vsnprintf (set s t) span text = (vsnprintf t span text).map (set s) := by
  unfold vsnprintf
  simp only [h.store_set]
  exact bind_map _ _ _ _ _ fun t => h.store_set s t _ _

theorem countExtra_set (h : SpanView get set) (s : σ) (t : τ) (i n : Nat) :
    countExtra (set s t) i n = countExtra t i n := by
  induction n generalizing i with
  | zero => rfl
  | succ n ih => rw [countExtra, countExtra, h.load, h.get_set, ih]

theorem storeBack_set (h : SpanView get set) (s : σ) (t : τ) (w : Nat) (rev : Bytes) :
    storeBack (set s t) w rev = (storeBack t w rev).map (set s) := by
  induction rev generalizing t w with
  | nil => rfl
  | cons c rev ih =>
    rw [storeBack, storeBack]
    split_ifs
    · rfl
    · rw [h.store_set]
      exact bind_map _ _ _ _ _ fun u => ih u (w - 1)

theorem expand_set (h : SpanView get set) (s : σ) (t : τ) (r w : Nat) :
    expand (set s t) r w = (expand t r w).map (set s) := by
  induction r generalizing t w with
  | zero => rfl
  | succ r ih =>
    rw [expand, expand, h.load, h.get_set]
    cases Buffer.load t r with
    | none => rfl
    | some c =>
      simp only [Option.bind_eq_bind, Option.bind_some]
      rw [h.storeBack_set]
      exact bind_map _ _ _ _ _ fun u => ih u _

/-- Text is printed into the inner buffer. -/
theorem vprint_eq (h : SpanView get set) (escaped : Bool) (text : Option Bytes) (s : σ) :
    vprint escaped text s = (vprint escaped text (get s)).map fun r => (set s r.1, r.2) := by
  unfold vprint
  simp only [h.bad, h.span, h.fail, h.get_set, h.set_set]
  by_cases hb : Buffer.bad (get s) = true
  · rw [if_pos hb, if_pos hb, Option.map_some, h.set_get]
  rw [if_neg hb, if_neg hb]
  by_cases hspan : (Buffer.getWriteSpan (get s)).2 = 0
  · rw [if_pos hspan, if_pos hspan]
    rfl
  rw [if_neg hspan, if_neg hspan]
  cases text with
  | none => rfl
  | some text =>
    simp only [h.vsnprintf_set]
    apply bind_map _ _ _ _ _
    intro t
    simp only [h.get_set, h.set_set]
    have hcommit (n : Nat) (t : τ) :
        ((Buffer.commit (set s t) n).bind fun buf => some (buf, n)) =
          ((Buffer.commit t n).bind fun buf => some (buf, n)).map fun r => (set s r.1, r.2) := by
      rw [h.commit_set]
      exact bind_map _ _ _ _ _ fun t => rfl
    by_cases hlen : text.length ≥ (Buffer.getWriteSpan (get s)).2
    · rw [if_pos hlen, if_pos hlen]
      rfl
    rw [if_neg hlen, if_neg hlen]
    by_cases hesc : escaped = true
    · rw [if_pos hesc, if_pos hesc, h.countExtra_set]
      cases countExtra t 0 text.length with
      | none => rfl
      | some e =>
        simp only [Option.bind_eq_bind, Option.bind_some]
        split_ifs
        · exact hcommit text.length t
        · rfl
        · rw [h.expand_set]
          exact bind_map _ _ _ _ _ fun t => hcommit (text.length + e) t
    · rw [if_neg hesc, if_neg hesc]
      exact hcommit text.length t

end SpanView

end Espbase.StackJson
