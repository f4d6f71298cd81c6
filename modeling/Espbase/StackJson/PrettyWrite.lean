import Espbase.StackJson.EscapedWrite
import Espbase.StackJson.PrettyText

namespace Espbase.StackJson

open Espbase.Lib StackBuffer

/-- Outcome of writes that go on after a failed one. -/
structure Wrote {maxSize : Nat} (b : StackBuffer maxSize) (w : Bytes) (b' : StackBuffer maxSize) :
    Prop where
  grows : Grows b b'
  fits : b.head + w.length ≤ maxSize → Appended b w b'
  misfit : maxSize < b.head + w.length → b'.bad = true

section Wrote
variable {maxSize : Nat} {b b1 b2 : StackBuffer maxSize} {u w : Bytes}

theorem Wrote.nil (hw : b.Within) : Wrote b [] b :=
  ⟨Grows.refl b hw, fun _ => Appended.nil b hw, fun hm => by
    simp only [List.length_nil, Within] at hm hw
    omega⟩

theorem Wrote.trans (hw : b.Within) (h : Wrote b u b1) (k : Wrote b1 w b2) : Wrote b (u ++ w) b2 := by
  refine ⟨h.grows.trans k.grows, ?_, ?_⟩
  · intro hf
    rw [List.length_append] at hf
    have ha := h.fits (by omega)
    have hh := ha.head hw
    exact ha.trans (k.fits (by omega))
  · intro hm
    rw [List.length_append] at hm
    by_cases hu : b.head + u.length ≤ maxSize
    · have hh := (h.fits hu).head hw
      exact k.misfit (by omega)
    · exact k.grows.bad (h.misfit (by omega))

theorem Wrote.of_sent {ws : List Bytes} {ok : Bool} (h : Sent b ws b1 ok) : Wrote b ws.flatten b1 := by
  cases h with
  | all fits ha => exact ⟨ha.grows, fun _ => ha, fun hm => by omega⟩
  | cut misfit ht => exact ⟨ht.grows, fun hf => by omega, fun _ => ht.bad⟩

end Wrote

/-- A decorated stack buffer. -/
abbrev PrettyStack (maxSize : Nat) := PrettyBuffer (StackBuffer maxSize)

namespace PrettyBuffer

section cursor
variable {σ : Type}

/-- The scanner's place in the text that was written. -/
def cursor (pb : PrettyBuffer σ) : Cursor :=
  ⟨if pb.inString then if pb.escapeNext then .escaped else .inside else .outside, pb.depth⟩

/-- The escape state is only set inside strings. -/
def Tidy (pb : PrettyBuffer σ) : Prop := pb.escapeNext = true → pb.inString = true

theorem scanString_cursor (pb : PrettyBuffer σ) (c : UInt8) (h : pb.inString = true) :
    (pb.scanString c).cursor = pb.cursor.next c ∧ (pb.scanString c).Tidy ∧
      (pb.scanString c).dest = pb.dest ∧ (pb.scanString c).indentSize = pb.indentSize ∧
      (pb.scanString c).bad = pb.bad := by
  have hkeep : pb.cursor.nextDepth c = pb.depth := by
    simp only [Cursor.nextDepth, cursor, h, if_true]
    split <;> rfl
  unfold scanString
  split_ifs with h1 h2 h3 <;> simp_all [cursor, Cursor.next, Quote.next, Tidy]

end cursor

variable {maxSize : Nat}

theorem put_wrote (pb : PrettyStack maxSize) (str : Bytes) (hw : pb.dest.Within) (hne : str ≠ []) :
    ∃ b', pb.put str = some { pb with dest := b' } ∧ Wrote pb.dest str b' := by
  obtain ⟨b', n, he, hs⟩ := write_sent pb.dest str hw hne
  refine ⟨b', by simp [put, he], ?_⟩
  have h := Wrote.of_sent hs
  rwa [List.flatten_singleton] at h

/-- A counter that can reach the count writes that many spaces. -/
theorem indentLoop_wrote (fuel : Nat) (pb : PrettyStack maxSize) (count : Nat) (i : UInt8)
    (hw : pb.dest.Within) (hcount : count ≤ 255) (hi : i.toNat ≤ count)
    (hfuel : count - i.toNat < fuel) :
    ∃ b', pb.indentLoop count i fuel = some { pb with dest := b' } ∧
      Wrote pb.dest (List.replicate (count - i.toNat) (ch ' ')) b' := by
  induction fuel generalizing pb i with
  | zero => omega
  | succ fuel ih =>
    rw [indentLoop]
    split_ifs with hlt
    · obtain ⟨b1, h1, w1⟩ := put_wrote pb [ch ' '] hw (by simp)
      have hnext : (i + 1).toNat = i.toNat + 1 := by
        rw [UInt8.toNat_add]
        exact Nat.mod_eq_of_lt (by change i.toNat + 1 < 256; omega)
      obtain ⟨b2, h2, w2⟩ := ih { pb with dest := b1 } (i + 1) w1.grows.within (by omega) (by omega)
      refine ⟨b2, by simp [h1, h2], ?_⟩
      have hrep : List.replicate (count - i.toNat) (ch ' ') =
          [ch ' '] ++ List.replicate (count - (i + 1).toNat) (ch ' ') := by
        rw [hnext, show count - i.toNat = count - (i.toNat + 1) + 1 by omega, List.replicate_succ]
        rfl
      rw [hrep]
      exact w1.trans hw w2
    · have hz : count - i.toNat = 0 := by omega
      rw [hz]
      exact ⟨pb.dest, rfl, Wrote.nil hw⟩

/-- A counter of one byte never reaches a larger count. -/
theorem indentLoop_stuck (fuel : Nat) (pb : PrettyStack maxSize) (count : Nat) (i : UInt8)
    (hw : pb.dest.Within) (hcount : 255 < count) : pb.indentLoop count i fuel = none := by
  induction fuel generalizing pb i with
  | zero => rfl
  | succ fuel ih =>
    have hlt : i.toNat < count := by
      have := i.toNat_lt
      omega
    obtain ⟨b1, h1, w1⟩ := put_wrote pb [ch ' '] hw (by simp)
    rw [indentLoop, if_pos hlt]
    simp [h1, ih { pb with dest := b1 } (i + 1) w1.grows.within]

/-- Either the indentation is written or the loop never ends. -/
theorem writeIndent_wrote (pb : PrettyStack maxSize) (hw : pb.dest.Within) :
    (pb.depth.toNat * pb.indentSize.toNat ≤ 255 →
      ∃ b', pb.writeIndent = some { pb with dest := b' } ∧
        Wrote pb.dest (indentation pb.indentSize pb.depth) b') ∧
    (255 < pb.depth.toNat * pb.indentSize.toNat → pb.writeIndent = none) := by
  refine ⟨?_, indentLoop_stuck 256 pb _ 0 hw⟩
  intro h
  exact indentLoop_wrote 256 pb _ 0 hw h (Nat.zero_le _) (by change _ - 0 < 256; omega)

/-- What is left in the state after a structural character. -/
structure Formatted (pb : PrettyStack maxSize) (c : UInt8) (pb' : PrettyStack maxSize) : Prop where
  wrote : Wrote pb.dest (prettyByte pb.indentSize pb.cursor c) pb'.dest
  cursor : pb'.cursor = pb.cursor.next c
  tidy : pb'.Tidy
  indentSize : pb'.indentSize = pb.indentSize
  bad : pb'.bad = pb.bad

/-- A line break with the indentation of the next line, at a new depth. -/
theorem line_wrote (pb : PrettyStack maxSize) (w : Bytes) (f : UInt8 → UInt8) (hw : pb.dest.Within)
    (hne : w ≠ []) :
    ((f pb.depth).toNat * pb.indentSize.toNat ≤ 255 →
      ∃ b', ((pb.put w).bind fun pb => { pb with depth := f pb.depth }.writeIndent) =
          some { pb with dest := b', depth := f pb.depth } ∧
        Wrote pb.dest (w ++ indentation pb.indentSize (f pb.depth)) b') ∧
    (255 < (f pb.depth).toNat * pb.indentSize.toNat →
      ((pb.put w).bind fun pb => { pb with depth := f pb.depth }.writeIndent) = none) := by
  obtain ⟨b1, h1, w1⟩ := put_wrote pb w hw hne
  obtain ⟨hends, hstuck⟩ := writeIndent_wrote { pb with dest := b1, depth := f pb.depth } w1.grows.within
  rw [h1, Option.bind_some]
  refine ⟨?_, hstuck⟩
  intro h
  obtain ⟨b2, h2, w2⟩ := hends h
  exact ⟨b2, h2, w1.trans hw w2⟩

/-- The loop for the indentation of a byte ends. -/
def Ends (pb : PrettyStack maxSize) (c : UInt8) : Prop :=
  indents pb.cursor c = true → (pb.cursor.nextDepth c).toNat * pb.indentSize.toNat ≤ 255

/-- The byte is laid out, unless its indentation never ends. -/
def Formats (pb : PrettyStack maxSize) (c : UInt8) : Prop :=
  (pb.Ends c → ∃ pb', pb.format c = some pb' ∧ Formatted pb c pb') ∧
    (¬ pb.Ends c → pb.format c = none)

theorem cursor_outside (pb : PrettyStack maxSize) (hout : pb.inString = false) :
    pb.cursor = ⟨.outside, pb.depth⟩ := by simp [cursor, hout]

section formats
variable {pb : PrettyStack maxSize} {c : UInt8} (hw : pb.dest.Within) (ht : pb.Tidy)
  (hout : pb.inString = false)
include hw ht hout

omit hw in
theorem formatted_at {b' : StackBuffer maxSize} {d : UInt8} (hq : c ≠ ch '"')
    (hd : pb.cursor.nextDepth c = d)
    (hwrote : Wrote pb.dest (prettyByte pb.indentSize pb.cursor c) b') :
    Formatted pb c { pb with dest := b', depth := d } := by
  refine ⟨hwrote, ?_, ht, rfl, rfl⟩
  simp [cursor, hout, Cursor.next, ← hd, Quote.next, hq]

/-- An opening bracket or a comma. -/
theorem formats_line (w : Bytes) (f : UInt8 → UInt8) (hne : w ≠ []) (hq : c ≠ ch '"')
    (hformat : pb.format c = (pb.put w).bind fun pb => { pb with depth := f pb.depth }.writeIndent)
    (hbyte : prettyByte pb.indentSize pb.cursor c = w ++ indentation pb.indentSize (f pb.depth))
    (hd : pb.cursor.nextDepth c = f pb.depth) (hind : indents pb.cursor c = true) : Formats pb c := by
  obtain ⟨hends, hstuck⟩ := line_wrote pb w f hw hne
  rw [Formats, hformat, Ends, hd]
  refine ⟨?_, fun h => hstuck ?_⟩
  · intro h
    obtain ⟨b', he, hwr⟩ := hends (h hind)
    exact ⟨_, he, formatted_at ht hout hq hd (hbyte ▸ hwr)⟩
  · exact Nat.lt_of_not_le fun hle => h fun _ => hle

/-- A closing bracket, on a line of its own. -/
theorem formats_close (f : UInt8 → UInt8) (hq : c ≠ ch '"')
    (hformat : pb.format c = ((pb.put [0x0a]).bind
      fun pb => { pb with depth := f pb.depth }.writeIndent).bind fun pb => pb.put [c])
    (hbyte : prettyByte pb.indentSize pb.cursor c =
      ([0x0a] ++ indentation pb.indentSize (f pb.depth)) ++ [c])
    (hd : pb.cursor.nextDepth c = f pb.depth) (hind : indents pb.cursor c = true) : Formats pb c := by
  obtain ⟨hends, hstuck⟩ := line_wrote pb [0x0a] f hw (by simp)
  rw [Formats, hformat, Ends, hd]
  refine ⟨?_, ?_⟩
  · intro h
    obtain ⟨b1, h1, w1⟩ := hends (h hind)
    obtain ⟨b2, h2, w2⟩ := put_wrote { pb with dest := b1, depth := f pb.depth } [c] w1.grows.within
      (by simp)
    exact ⟨_, by rw [h1, Option.bind_some, h2],
      formatted_at ht hout hq hd (hbyte ▸ w1.trans hw w2)⟩
  · intro h
    rw [hstuck (Nat.lt_of_not_le fun hle => h fun _ => hle)]
    rfl

/-- A character without a line break. -/
theorem formats_flat (w : Bytes) (hne : w ≠ []) (hq : c ≠ ch '"') (hformat : pb.format c = pb.put w)
    (hbyte : prettyByte pb.indentSize pb.cursor c = w) (hd : pb.cursor.nextDepth c = pb.depth)
    (hind : indents pb.cursor c = false) : Formats pb c := by
  refine ⟨?_, fun h => absurd ?_ h⟩
  · intro _
    obtain ⟨b', he, hwr⟩ := put_wrote pb w hw hne
    exact ⟨_, hformat.trans he, formatted_at ht hout hq hd (hbyte ▸ hwr)⟩
  · intro hi
    rw [hind] at hi
    cases hi

theorem formats_quote : Formats pb (ch '"') := by
  have hesc : pb.escapeNext = false := by
    cases he : pb.escapeNext with
    | false => rfl
    | true => exact absurd (ht he) (by simp [hout])
  have hcur := cursor_outside pb hout
  refine ⟨?_, fun h => absurd ?_ h⟩
  · intro _
    obtain ⟨b', he, hwr⟩ := put_wrote { pb with inString := true } [ch '"'] hw (by simp)
    refine ⟨_, he, ?_, ?_, fun _ => rfl, rfl, rfl⟩
    · rw [hcur]
      exact hwr
    · rw [hcur]
      simp only [cursor, hesc]
      rfl
  · intro hi
    rw [hcur] at hi
    cases hi

/-- Every structural character outside of strings is laid out. -/
theorem format_formats (hc : isStructural c = true) : Formats pb c := by
  have hmarks : (c = ch '{' ∨ c = ch '[') ∨ (c = ch '}' ∨ c = ch ']') ∨ c = ch ',' ∨ c = ch ':' ∨
      c = ch '"' := by simpa [isStructural, or_assoc] using hc
  have hcur := cursor_outside pb hout
  rcases hmarks with (rfl | rfl) | (rfl | rfl) | rfl | rfl | rfl
  case inl.inl | inl.inr =>
    exact formats_line hw ht hout [_, 0x0a] (· + 1) (by simp) (by decide) rfl (by rw [hcur]; rfl)
      (by rw [hcur]; rfl) (by rw [hcur]; rfl)
  case inr.inl.inl | inr.inl.inr =>
    exact formats_close hw ht hout (fun d => if d > 0 then d - 1 else d) (by decide)
      (by simp only [Option.bind_assoc]; rfl) (by rw [hcur]; rfl) (by rw [hcur]; rfl) (by rw [hcur]; rfl)
  · exact formats_line hw ht hout [ch ',', 0x0a] id (by simp) (by decide) rfl (by rw [hcur]; rfl)
      (by rw [hcur]; rfl) (by rw [hcur]; rfl)
  · exact formats_flat hw ht hout [ch ':', ch ' '] (by simp) (by decide) rfl (by rw [hcur]; rfl)
      (by rw [hcur]; rfl) (by rw [hcur]; rfl)
  · exact formats_quote hw ht hout

end formats

/-- Outcome of writing so that `w` reaches the buffer behind, with the scanner at `k` afterwards. -/
structure Laid (pb : PrettyStack maxSize) (w : Bytes) (k : Cursor) (pb' : PrettyStack maxSize)
    (ok : Bool) : Prop where
  grows : Grows pb.dest pb'.dest
  tidy : pb'.Tidy
  indentSize : pb'.indentSize = pb.indentSize
  bad : pb'.bad = pb.bad
  fits : pb.dest.head + w.length ≤ maxSize → ok = true ∧ Appended pb.dest w pb'.dest ∧ pb'.cursor = k
  misfit : maxSize < pb.dest.head + w.length → pb'.dest.bad = true

theorem Laid.after {pb pb1 pb' : PrettyStack maxSize} {u w : Bytes} {k : Cursor} {ok : Bool}
    (hw : pb.dest.Within) (h : Wrote pb.dest u pb1.dest) (hsize : pb1.indentSize = pb.indentSize)
    (hbad : pb1.bad = pb.bad) (hl : Laid pb1 w k pb' ok) : Laid pb (u ++ w) k pb' ok := by
  refine ⟨h.grows.trans hl.grows, hl.tidy, hl.indentSize.trans hsize, hl.bad.trans hbad, ?_, ?_⟩
  · intro hf
    rw [List.length_append] at hf
    have ha := h.fits (by omega)
    have hh := ha.head hw
    obtain ⟨hok, ha', hk⟩ := hl.fits (by omega)
    exact ⟨hok, ha.trans ha', hk⟩
  · intro hm
    rw [List.length_append] at hm
    by_cases hu : pb.dest.head + u.length ≤ maxSize
    · have hh := (h.fits hu).head hw
      exact hl.misfit (by omega)
    · exact hl.grows.bad (h.misfit (by omega))

/-- A failed flush ends the write. -/
theorem Laid.stop {pb pb1 : PrettyStack maxSize} {u w : Bytes} {k k' : Cursor}
    (h : Laid pb u k' pb1 false) : Laid pb (u ++ w) k pb1 false := by
  have hm : maxSize < pb.dest.head + u.length := by
    by_contra hf
    exact Bool.false_ne_true (h.fits (Nat.le_of_not_lt hf)).1
  refine ⟨h.grows, h.tidy, h.indentSize, h.bad, ?_, fun _ => h.misfit hm⟩
  intro hf
  rw [List.length_append] at hf
  omega

theorem flushRun_laid (pb : PrettyStack maxSize) (run : Bytes) (hw : pb.dest.Within) (ht : pb.Tidy) :
    ∃ pb' ok, pb.flushRun run = some (pb', ok) ∧ Laid pb run pb.cursor pb' ok ∧
      pb'.inString = pb.inString ∧ pb'.cursor = pb.cursor ∧ Wrote pb.dest run pb'.dest := by
  obtain ⟨b', ok, he, hs⟩ := flush_sent pb.dest run hw
  have hwr := Wrote.of_sent hs
  rw [runChunk_flatten] at hwr
  refine ⟨{ pb with dest := b' }, ok, by simp [flushRun, he],
    ⟨hwr.grows, ht, rfl, rfl, fun hf => ⟨?_, hwr.fits hf, rfl⟩, hwr.misfit⟩, rfl, rfl, hwr⟩
  cases hs with
  | all _ _ => rfl
  | cut hm _ =>
    rw [runChunk_flatten] at hm
    omega

/-- The scanning loop lays the rest of the text out behind the run that it has not yet sent. -/
def LoopLays (pb : PrettyStack maxSize) (run str : Bytes) : Prop :=
  (∀ pb' ok, pb.writeLoop run str = some (pb', ok) →
    Laid pb (run ++ pretty pb.indentSize pb.cursor str) (pb.cursor.after str) pb' ok) ∧
  (Settles pb.indentSize pb.cursor str → (pb.writeLoop run str).isSome = true)

theorem loopLays_string (pb : PrettyStack maxSize) (run str : Bytes) (c : UInt8)
    (hin : pb.inString = true) (h : LoopLays (pb.scanString c) (run ++ [c]) str) :
    LoopLays pb run (c :: str) := by
  obtain ⟨hcur, -, hdest, hsize, hbad⟩ := scanString_cursor pb c hin
  have hq : pb.cursor.quote ≠ .outside := by
    simp only [cursor, hin, if_true]
    split <;> simp
  obtain ⟨hret, hset⟩ := h
  rw [hcur, hsize] at hret hset
  have htext : run ++ pretty pb.indentSize pb.cursor (c :: str) =
      run ++ [c] ++ pretty pb.indentSize (pb.cursor.next c) str := by
    rw [pretty, prettyByte, if_pos hq, List.append_assoc]
  rw [LoopLays, writeLoop, if_pos hin]
  refine ⟨?_, fun hs => hset hs.2⟩
  intro pb' ok h
  obtain ⟨hg, ht', hsz, hb, hf, hm⟩ := hret pb' ok h
  rw [hdest] at hg hf hm
  rw [htext, Cursor.after_cons]
  exact ⟨hg, ht', hsz.trans hsize, hb.trans hbad, hf, hm⟩

theorem loopLays_plain (pb : PrettyStack maxSize) (run str : Bytes) (c : UInt8)
    (hout : pb.inString = false) (hc : isStructural c = false) (h : LoopLays pb (run ++ [c]) str) :
    LoopLays pb run (c :: str) := by
  have hv : Verbatim pb.indentSize pb.cursor [c] pb.cursor :=
    Verbatim.of_forall (by rw [cursor_outside pb hout]) (by simpa using hc)
  have hnext : pb.cursor.next c = pb.cursor := hv.cursor
  have hbyte : prettyByte pb.indentSize pb.cursor c = [c] := by simpa [pretty] using hv.text
  have hsettle (hs : Settles pb.indentSize pb.cursor (c :: str)) :
      Settles pb.indentSize pb.cursor str := by
    have := hs.2
    rwa [hnext] at this
  obtain ⟨hret, hset⟩ := h
  rw [LoopLays, writeLoop, if_neg (by simp [hout]), if_neg (by simp [hc]), pretty, hbyte, hnext,
    Cursor.after_cons, hnext, ← List.append_assoc]
  exact ⟨hret, fun hs => hset (hsettle hs)⟩

/-- Outside of strings the run is sent before a structural character. -/
theorem loopLays_structural (pb : PrettyStack maxSize) (run str : Bytes) (c : UInt8)
    (hw : pb.dest.Within) (ht : pb.Tidy) (hout : pb.inString = false) (hc : isStructural c = true)
    (h : ∀ pb : PrettyStack maxSize, pb.dest.Within → pb.Tidy → LoopLays pb [] str) :
    LoopLays pb run (c :: str) := by
  obtain ⟨pb1, ok1, h1, hl1, hstr1, hcur1, hwr1⟩ := flushRun_laid pb run hw ht
  have hw1 := hl1.grows.within
  rw [LoopLays, writeLoop, if_neg (by simp [hout]), if_pos hc, h1]
  simp only [Option.bind_eq_bind, Option.bind_some]
  cases ok1 with
  | false =>
    refine ⟨?_, fun _ => rfl⟩
    intro pb' ok h
    cases h
    exact hl1.stop
  | true =>
    obtain ⟨hends, hstuck⟩ := format_formats hw1 hl1.tidy (hstr1.trans hout) hc
    have hiff : pb1.Ends c ↔ (indents pb.cursor c = true →
        (pb.cursor.nextDepth c).toNat * pb.indentSize.toNat ≤ 255) := by
      rw [Ends, hcur1, hl1.indentSize]
    by_cases he : pb1.Ends c
    · obtain ⟨pb2, h2, hfm⟩ := hends he
      obtain ⟨hret, hset⟩ := h pb2 hfm.wrote.grows.within hfm.tidy
      have hcur2 : pb2.cursor = pb.cursor.next c := by rw [hfm.cursor, hcur1]
      have hsize2 : pb2.indentSize = pb.indentSize := hfm.indentSize.trans hl1.indentSize
      have hwr2 := hwr1.trans hw hfm.wrote
      rw [hl1.indentSize, hcur1] at hwr2
      rw [hcur2, hsize2] at hret hset
      simp only [if_true, h2, Option.bind_some]
      refine ⟨?_, fun hs => hset hs.2⟩
      intro pb' ok h
      rw [pretty, Cursor.after_cons, ← List.append_assoc]
      exact (hret pb' ok h).after hw hwr2 hsize2 (hfm.bad.trans hl1.bad)
    · simp only [if_true, hstuck he, Option.bind_none]
      refine ⟨?_, fun hs => absurd (hiff.mpr hs.1) he⟩
      intro pb' ok h
      cases h

theorem writeLoop_lays (str : Bytes) (pb : PrettyStack maxSize) (run : Bytes) (hw : pb.dest.Within)
    (ht : pb.Tidy) : LoopLays pb run str := by
  induction str generalizing pb run with
  | nil =>
    obtain ⟨pb1, ok1, h1, hl, -⟩ := flushRun_laid pb run hw ht
    rw [LoopLays, writeLoop, h1, pretty, List.append_nil]
    refine ⟨?_, fun _ => rfl⟩
    intro pb' ok h
    cases h
    exact hl
  | cons c str ih =>
    by_cases hin : pb.inString = true
    · obtain ⟨-, htidy, hdest, -⟩ := scanString_cursor pb c hin
      exact loopLays_string pb run str c hin (ih _ _ (hdest ▸ hw) htidy)
    · have hout : pb.inString = false := by simpa using hin
      by_cases hc : isStructural c = true
      · exact loopLays_structural pb run str c hw ht hout hc fun pb hw ht => ih pb [] hw ht
      · exact loopLays_plain pb run str c hout (by simpa using hc) (ih pb _ hw ht)

/-- With room for all of it, the loop returns only if the indentations end. -/
def LoopSettles (pb : PrettyStack maxSize) (run str : Bytes) : Prop :=
  pb.dest.head + (run ++ pretty pb.indentSize pb.cursor str).length ≤ maxSize →
    (pb.writeLoop run str).isSome = true → Settles pb.indentSize pb.cursor str

theorem loopSettles_string (pb : PrettyStack maxSize) (run str : Bytes) (c : UInt8)
    (hin : pb.inString = true) (h : LoopSettles (pb.scanString c) (run ++ [c]) str) :
    LoopSettles pb run (c :: str) := by
  obtain ⟨hcur, -, hdest, hsize, -⟩ := scanString_cursor pb c hin
  have hq : pb.cursor.quote ≠ .outside := by
    simp only [cursor, hin, if_true]
    split <;> simp
  intro hroom hs
  rw [writeLoop, if_pos hin] at hs
  rw [pretty, prettyByte, if_pos hq, ← List.append_assoc] at hroom
  have hrest := h (by rw [hdest, hcur, hsize]; exact hroom) hs
  rw [hcur, hsize] at hrest
  exact ⟨fun hi => by simp [indents, hq] at hi, hrest⟩

theorem loopSettles_plain (pb : PrettyStack maxSize) (run str : Bytes) (c : UInt8)
    (hout : pb.inString = false) (hc : isStructural c = false) (h : LoopSettles pb (run ++ [c]) str) :
    LoopSettles pb run (c :: str) := by
  have hv : Verbatim pb.indentSize pb.cursor [c] pb.cursor :=
    Verbatim.of_forall (by rw [cursor_outside pb hout]) (by simpa using hc)
  have hnext : pb.cursor.next c = pb.cursor := hv.cursor
  have hbyte : prettyByte pb.indentSize pb.cursor c = [c] := by simpa [pretty] using hv.text
  intro hroom hs
  rw [writeLoop, if_neg (by simp [hout]), if_neg (by simp [hc])] at hs
  rw [pretty, hbyte, hnext, ← List.append_assoc] at hroom
  have hrest := h hroom hs
  rw [Settles, hnext]
  exact ⟨hv.settles.1, hrest⟩

theorem loopSettles_structural (pb : PrettyStack maxSize) (run str : Bytes) (c : UInt8)
    (hw : pb.dest.Within) (ht : pb.Tidy) (hout : pb.inString = false) (hc : isStructural c = true)
    (h : ∀ pb : PrettyStack maxSize, pb.dest.Within → pb.Tidy → LoopSettles pb [] str) :
    LoopSettles pb run (c :: str) := by
  obtain ⟨pb1, ok1, h1, hl1, hstr1, hcur1, -⟩ := flushRun_laid pb run hw ht
  obtain ⟨hends, hstuck⟩ := format_formats hl1.grows.within hl1.tidy (hstr1.trans hout) hc
  intro hroom hs
  rw [writeLoop, if_neg (by simp [hout]), if_pos hc] at hs
  rw [List.length_append, pretty, List.length_append] at hroom
  obtain ⟨rfl, ha1, -⟩ := hl1.fits (by omega)
  have hhead := ha1.head hw
  by_cases he : pb1.Ends c
  · obtain ⟨pb2, h2, hfm⟩ := hends he
    have hcur2 : pb2.cursor = pb.cursor.next c := by rw [hfm.cursor, hcur1]
    have hsize2 : pb2.indentSize = pb.indentSize := hfm.indentSize.trans hl1.indentSize
    have ha2 := hfm.wrote.fits (by rw [hcur1, hl1.indentSize]; omega)
    have hhead2 := ha2.head hl1.grows.within
    rw [hcur1, hl1.indentSize] at hhead2
    have hrest := h pb2 hfm.wrote.grows.within hfm.tidy
      (by rw [hcur2, hsize2, List.nil_append]; omega) (by simpa [h1, h2] using hs)
    rw [hcur2, hsize2] at hrest
    rw [Ends, hcur1, hl1.indentSize] at he
    exact ⟨he, hrest⟩
  · simp [h1, hstuck he] at hs

theorem writeLoop_settles (str : Bytes) (pb : PrettyStack maxSize) (run : Bytes) (hw : pb.dest.Within)
    (ht : pb.Tidy) : LoopSettles pb run str := by
  induction str generalizing pb run with
  | nil => exact fun _ _ => trivial
  | cons c str ih =>
    by_cases hin : pb.inString = true
    · obtain ⟨-, htidy, hdest, -⟩ := scanString_cursor pb c hin
      exact loopSettles_string pb run str c hin (ih _ _ (hdest ▸ hw) htidy)
    · have hout : pb.inString = false := by simpa using hin
      by_cases hc : isStructural c = true
      · exact loopSettles_structural pb run str c hw ht hout hc fun pb hw ht => ih pb [] hw ht
      · exact loopSettles_plain pb run str c hout (by simpa using hc) (ih pb _ hw ht)

end PrettyBuffer

end Espbase.StackJson
