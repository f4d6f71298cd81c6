import Espbase.StackJson.DynamicBuffer
import Espbase.StackJson.PrinterWrite

namespace Espbase.StackJson

open Espbase.Lib SpanBuffer

namespace DynamicBuffer
variable {expandSize : Nat} (b : DynamicBuffer expandSize)

theorem load_cells (i : Nat) : Buffer.load b i = (b.buffer.drop b.head)[i]? := by
  show b.buffer[b.head + i]? = _
  rw [List.getElem?_drop]

theorem store_cells (i : Nat) (w : Bytes) (h : b.Within) (hfit : i + w.length ≤ (b.buffer.drop b.head).length) :
    ∃ b', Buffer.store b i w = some b' ∧ b'.Within ∧ b'.bad = b.bad ∧ b'.view = b.view ∧
      b'.buffer.drop b'.head = overwrite (b.buffer.drop b.head) i w := by
  simp only [Within] at h
  rw [List.length_drop] at hfit
  obtain ⟨b', e, hh, hg, hv, hl, hc⟩ := store_spec b i w (by omega)
  refine ⟨b', e, ?_, hg, hv, ?_⟩
  · rw [Within, hh, hl]
    exact h
  · rw [hh]
    exact hc

theorem commit_cells (k : Nat) (h : b.Within) (hfit : k ≤ (b.buffer.drop b.head).length) :
    ∃ b', Buffer.commit b k = some b' ∧ b'.Within ∧ b'.bad = b.bad ∧
      b'.view = b.view ++ (b.buffer.drop b.head).take k ∧
      b'.buffer.drop b'.head = (b.buffer.drop b.head).drop k := by
  simp only [Within] at h
  rw [List.length_drop] at hfit
  have hk : b.head + k ≤ b.buffer.length := by omega
  refine ⟨{ b with head := b.head + k }, if_pos hk, hk, rfl, List.take_add, ?_⟩
  show b.buffer.drop (b.head + k) = _
  rw [List.drop_drop]

theorem span_cells (h : b.Within) : b.getWriteSpan.Within ∧ b.getWriteSpan.bad = b.bad ∧
    b.getWriteSpan.view = b.view ∧
    (b.getWriteSpan.buffer.drop b.getWriteSpan.head).length = (Buffer.getWriteSpan b).2 ∧
    (b.buffer.drop b.head).length ≤ (Buffer.getWriteSpan b).2 := by
  obtain ⟨hh, hg, hv, hw, -⟩ := b.getWriteSpan_spec h
  refine ⟨hw, hg, hv, List.length_drop, ?_⟩
  show _ ≤ b.getWriteSpan.buffer.length - b.getWriteSpan.head
  rw [List.length_drop, hh, getWriteSpan]
  split_ifs with hroom
  · rw [resize_length]
    omega
  · exact Nat.le_refl _

end DynamicBuffer

instance (expandSize : Nat) : SpanBuffer (DynamicBuffer expandSize) where
  Valid := DynamicBuffer.Within
  view := DynamicBuffer.view
  cells b := b.buffer.drop b.head
  load_eq b i _ := DynamicBuffer.load_cells b i
  store_ok := DynamicBuffer.store_cells
  commit_ok := DynamicBuffer.commit_cells
  span_ok := DynamicBuffer.span_cells
  fail_ok _ h := ⟨h, rfl, rfl⟩

section twice
variable {σ : Type} [Buffer σ]

/-- Two prints, one after the other. -/
def vprintTwice (s1 s2 : Bytes) (b : σ) : Option (σ × Nat) := do
  let (b, n1) ← vprint true (some s1) b
  let (b, n2) ← vprint true (some s2) b
  some (b, n1 + n2)

variable [SpanBuffer σ]

/-- The same text, the same count and the same state of failure. -/
def SamePrint (r r' : Option (σ × Nat)) : Prop :=
  ∃ b b' n, r = some (b, n) ∧ r' = some (b', n) ∧ view b = view b' ∧ Buffer.bad b = Buffer.bad b'

/-- In a span that takes the print of both, the second print has room or its terminator has none. -/
theorem vprintTwice_iff (s1 s2 : Bytes) (b : σ) (hb : Valid b) (hg : Buffer.bad b = false)
    (hlt : (s1 ++ s2).length < (Buffer.getWriteSpan b).2)
    (hle : (escape (s1 ++ s2)).length ≤ (Buffer.getWriteSpan b).2) :
    ∃ b1, vprint true (some s1) b = some (b1, (escape s1).length) ∧
      (SamePrint (vprintTwice s1 s2 b) (vprint true (some (s1 ++ s2)) b) ↔
        s2.length < (Buffer.getWriteSpan b1).2) := by
  obtain ⟨b', e', ha', -⟩ := vprint_fits (s1 ++ s2) b hb hg hlt hle
  rw [List.length_append] at hlt
  rw [escape_append, List.length_append] at hle
  obtain ⟨b1, e1, ha1, hspan⟩ := vprint_fits s1 b hb hg (by omega) (by omega)
  have hg1 := ha1.bad.trans hg
  refine ⟨b1, e1, ?_⟩
  constructor
  · intro htwice
    obtain ⟨x, y, n, hx, hy, -, hbad⟩ := htwice
    by_contra hmis
    obtain ⟨b2, e2, hr⟩ := vprint_misfit s2 b1 ha1.valid hg1 fun h => hmis h.1
    simp only [vprintTwice, e1, e2, Option.bind_eq_bind, Option.bind_some, Option.some.injEq,
      Prod.mk.injEq] at hx
    obtain ⟨rfl, -⟩ := Prod.mk.inj (Option.some.inj (e'.symm.trans hy))
    rw [← hx.1, hr.bad, ha'.bad, hg] at hbad
    cases hbad
  · intro hlt2
    obtain ⟨b2, e2, ha2, -⟩ := vprint_fits s2 b1 ha1.valid hg1 hlt2 (by omega)
    refine ⟨b2, b', (escape s1).length + (escape s2).length, ?_, ?_, ?_, ?_⟩
    · simp only [vprintTwice, e1, e2, Option.bind_eq_bind, Option.bind_some]
    · rw [e', escape_append, List.length_append]
    · rw [ha2.view, ha1.view, ha'.view, escape_append, List.append_assoc]
    · rw [ha2.bad, ha1.bad, ha'.bad]

end twice

/-- What `write_escaped` does on a buffer with room, on either path and as a whole. -/
structure Quotes {σ : Type} [Buffer σ] [SpanBuffer σ] (b : σ) (s : Bytes) : Prop where
  chunked : ∃ b' n, writeQuoted b s (Buffer.length b) = some (b', n) ∧ n ≠ 0 ∧ Added b (stringLiteral s) b'
  oneShot : s.any needsEscaping = false → s.length + 2 ≤ (Buffer.getWriteSpan b).2 →
    ∃ b', writeOneShot (Buffer.getWriteSpan b).1 s = some (b', s.length + 2) ∧ Added b (stringLiteral s) b'
  whole : ∃ b' n, writeEscaped b s = some (b', n) ∧ n ≠ 0 ∧ Added b (stringLiteral s) b'

/-- What `vprint` does in a write span, by its size. -/
structure PrintsEscape {σ : Type} [Buffer σ] [SpanBuffer σ] (b : σ) (s : Bytes) : Prop where
  fits : s.length < (Buffer.getWriteSpan b).2 → (escape s).length ≤ (Buffer.getWriteSpan b).2 →
    ∃ b', vprint true (some s) b = some (b', (escape s).length) ∧ Added b (escape s) b'
  misfit : ¬ (s.length < (Buffer.getWriteSpan b).2 ∧ (escape s).length ≤ (Buffer.getWriteSpan b).2) →
    ∃ b', vprint true (some s) b = some (b', 0) ∧ Refused b b'
  /-- the expansion reads no cell that it has written, and stays below the length of the escape -/
  inPlace : s <+: cells b → (escape s).length ≤ (cells b).length →
    ∃ b' written, expand (Watched.mk b (escape s).length []) s.length (escape s).length =
        some ⟨b', (escape s).length, written⟩ ∧
      Kept b (escape s ++ (cells b).drop (escape s).length) b'
  twice : ∀ s', (s ++ s').length < (Buffer.getWriteSpan b).2 →
    (escape (s ++ s')).length ≤ (Buffer.getWriteSpan b).2 →
    ∃ b1, vprint true (some s) b = some (b1, (escape s).length) ∧
      (SamePrint (vprintTwice s s' b) (vprint true (some (s ++ s')) b) ↔
        s'.length < (Buffer.getWriteSpan b1).2)

section spans
variable {σ : Type} [Buffer σ] [SpanBuffer σ] (s : Bytes) (b : σ)

theorem plain_of_unescaped (h : s.any needsEscaping = false) : stringLiteral s = [ch '"'] ++ s ++ [ch '"'] := by
  have hplain : escape s = s := by
    apply escape_plain
    intro c hc hsp
    rw [List.any_eq_false] at h
    exact h c hc ((needsEscaping_iff c).mpr hsp)
  rw [stringLiteral, hplain]
  rfl

theorem prints_escape (hb : Valid b) (hg : Buffer.bad b = false) : PrintsEscape b s := by
  refine ⟨?_, vprint_misfit s b hb hg, ?_, fun s' => vprintTwice_iff s s' b hb hg⟩
  · intro hlt hle
    obtain ⟨b', he, ha, -⟩ := vprint_fits s b hb hg hlt hle
    exact ⟨b', he, ha⟩
  · intro hcells hle
    obtain ⟨rest, hrest⟩ := hcells
    have hall : s.take s.length = s := List.take_of_length_le (Nat.le_refl _)
    have h := expand_spec s ((cells b).drop (escape s).length) s.length (escape s).length b [] hb
      (Nat.le_refl _) (Nat.le_of_eq (by rw [hall])) hle (by rw [← hrest]; simp) (by rw [hall]; simp) nofun
    rwa [hall] at h

end spans

section stack
variable {maxSize : Nat} (s : Bytes) (b : StackBuffer maxSize)

theorem stack_added (b b' : StackBuffer maxSize) (w : Bytes) (h : StackBuffer.Appended b w b') : Added b w b' :=
  ⟨h.within, h.bad, h.view⟩

/-- With room for the literal no write of it is refused. -/
theorem stack_sent (b' : StackBuffer maxSize) (n : Nat) (hroom : b.head + (stringLiteral s).length ≤ maxSize)
    (h : StackBuffer.Sent b (stringChunks s) b' (n != 0)) : n ≠ 0 ∧ Added b (stringLiteral s) b' := by
  rw [← stringChunks_flatten] at hroom ⊢
  generalize hok : (n != 0) = ok at h
  cases h with
  | all _ ha => exact ⟨bne_iff_ne.mp hok, stack_added b b' _ ha⟩
  | cut misfit _ => omega

theorem stack_quotes (hw : b.Within) (hg : b.bad = false) (hroom : b.head + (stringLiteral s).length ≤ maxSize) :
    Quotes b s := by
  refine ⟨?_, ?_, ?_⟩
  · obtain ⟨b', n, he, hs⟩ := StackBuffer.writeQuoted_sent b s hw hg
    exact ⟨b', n, he, stack_sent s b b' n hroom hs⟩
  · intro hplain hfit
    have hspan : (Buffer.getWriteSpan b).2 = maxSize - b.head := b.getWriteSpan_eq
    simp only [StackBuffer.Within] at hw
    obtain ⟨b', he, ha⟩ := StackBuffer.writeOneShot_appended b s (by omega)
    rw [plain_of_unescaped s hplain]
    exact ⟨b', he, stack_added b b' _ ha⟩
  · obtain ⟨b', n, he, hs⟩ := StackBuffer.writeEscaped_sent b s hw hg
    exact ⟨b', n, he, stack_sent s b b' n hroom hs⟩

end stack

section dynamic
variable {expandSize : Nat} (s : Bytes) (b : DynamicBuffer expandSize)

theorem dynamic_added (b b' : DynamicBuffer expandSize) (w : Bytes) (h : DynamicBuffer.Appended b w b') :
    Added b w b' :=
  ⟨h.within, h.bad, h.view⟩

theorem dynamic_quotes (hw : b.Within) (hg : b.bad = false) : Quotes b s := by
  refine ⟨?_, ?_, ?_⟩
  · obtain ⟨b', n, he, hn, ha⟩ := DynamicBuffer.writeQuoted_appends b s hw
    exact ⟨b', n, he, hn, dynamic_added b b' _ ha⟩
  · intro hplain hfit
    obtain ⟨hh, hg', hv, hws, -⟩ := b.getWriteSpan_spec hw
    have hroom : b.getWriteSpan.head + s.length + 2 ≤ b.getWriteSpan.buffer.length := by
      have : s.length + 2 ≤ b.getWriteSpan.buffer.length - b.getWriteSpan.head := hfit
      simp only [DynamicBuffer.Within] at hws
      omega
    obtain ⟨b', he, ha⟩ := DynamicBuffer.writeOneShot_appends b.getWriteSpan s hws hroom
    rw [plain_of_unescaped s hplain]
    exact ⟨b', he, ha.within, ha.bad.trans hg', ha.view.trans (congrArg (· ++ _) hv)⟩
  · obtain ⟨b', n, he, hn, ha⟩ := DynamicBuffer.writeEscaped_appends b s hw hg
    exact ⟨b', n, he, hn, dynamic_added b b' _ ha⟩

end dynamic

/-- The escapers agree on every byte string. -/
theorem escapers_agree (s : Bytes) :
    (∀ (maxSize : Nat) (b : StackBuffer maxSize), b.Within → b.bad = false →
      (b.head + (stringLiteral s).length ≤ maxSize → Quotes b s) ∧ PrintsEscape b s) ∧
    (∀ (expandSize : Nat) (b : DynamicBuffer expandSize), b.Within → b.bad = false →
      Quotes b s ∧ PrintsEscape b s) := by
  constructor
  · intro maxSize b hw hg
    exact ⟨stack_quotes s b hw hg, prints_escape s b hw hg⟩
  · intro expandSize b hw hg
    exact ⟨dynamic_quotes s b hw hg, prints_escape s b hw hg⟩

theorem escapers_agree_line :
    Quotes (StackBuffer.empty 16) (bytes "a\n") ∧ PrintsEscape (StackBuffer.empty 16) (bytes "a\n") := by
  obtain ⟨hstack, -⟩ := escapers_agree (bytes "a\n")
  obtain ⟨hquotes, hprints⟩ := hstack 16 (StackBuffer.empty 16) (Nat.zero_le 16) rfl
  exact ⟨hquotes (by decide), hprints⟩

/-- A span that the escape of two texts fills leaves the second print no cell for its terminator. -/
theorem vprintTwice_full :
    ∃ b b', vprint true (some (bytes "\"a")) (StackBuffer.empty 3) = some (b, 3) ∧ b.bad = false ∧
      b.view = bytes "\\\"a" ∧
      vprintTwice (bytes "\"") (bytes "a") (StackBuffer.empty 3) = some (b', 2) ∧ b'.bad = true ∧
      b'.view = bytes "\\\"" :=
  ⟨_, _, rfl, rfl, rfl, rfl, rfl, rfl⟩

end Espbase.StackJson
