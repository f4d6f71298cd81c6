import Espbase.History.Replay

namespace Espbase.History

open Espbase.Lib CircularHistoryBuffer

/-- `vsnprintf(buf, sizeof(buf), fmt, args)` of a formatted text: what `buf` holds then, and the length of the
whole text, which is negative when it is no `int`. -/
def vsnprintf (buf text : Bytes) : Bytes × Int :=
  let written := text.take (buf.length - 1) ++ [0]
  (written ++ buf.drop written.length, if text.length < 2 ^ 31 then text.length else -1)

/-- `log_hook`, where `buf` is what the stack holds in its 256 bytes. There is no result where `write` reads
outside them. -/
def logHook (b : CircularHistoryBuffer) (buf text : Bytes) : Option (CircularHistoryBuffer × List Nat) :=
  let (buf, len) := vsnprintf buf text
  if 0 < len then
    if len.toNat ≤ buf.length then b.write (buf.take len.toNat) else none
  else some (b, [])

/-- The lines of a log, each with what the stack holds. -/
def logAll (b : CircularHistoryBuffer) : List (Bytes × Bytes) → Option CircularHistoryBuffer
  | [] => some b
  | (buf, text) :: lines => do
    let (b, _) ← logHook b buf text
    logAll b lines

/-- The bytes of a line that the history gets: a line that fills the buffer ends with the terminator. -/
def recorded (text : Bytes) : Bytes :=
  if text.length < 256 then text else if text.length = 256 then text.take 255 ++ [0] else []

/-- `vsnprintf` reports more than `buf` holds. -/
def Overlong (text : Bytes) : Prop := 256 < text.length ∧ text.length < 2 ^ 31

instance (text : Bytes) : Decidable (Overlong text) := inferInstanceAs (Decidable (_ ∧ _))

section hook
variable (b : CircularHistoryBuffer) (buf text : Bytes)

theorem vsnprintf_fst_length (hpos : 0 < buf.length) : (vsnprintf buf text).1.length = buf.length := by
  simp only [vsnprintf, List.length_append, List.length_take, List.length_drop, List.length_singleton]
  omega

/-- What is passed on of a line that fits. -/
theorem vsnprintf_take (hbuf : buf.length = 256) (h : text.length ≤ 256) :
    (vsnprintf buf text).1.take text.length = recorded text := by
  unfold vsnprintf recorded
  rw [hbuf]
  dsimp only
  split_ifs with hlt heq
  · rw [List.take_of_length_le (show text.length ≤ 256 - 1 by omega), List.append_assoc, List.take_left]
  · have hlen : (text.take (256 - 1) ++ [(0 : UInt8)]).length = text.length := by
      rw [List.length_append, List.length_take, heq]
      rfl
    rw [hlen, List.take_append_of_le_length (Nat.le_of_eq hlen.symm), List.take_of_length_le (Nat.le_of_eq hlen)]
  · omega

/-- Only a line of less than 256 bytes is recorded as it is, or one whose last byte is 0 anyway. -/
theorem recorded_eq_iff : recorded text = text ↔ text.length < 256 ∨ text = text.take 255 ++ [0] := by
  unfold recorded
  split_ifs with hlt heq
  · exact iff_of_true rfl (.inl hlt)
  · exact ⟨fun h => .inr h.symm, fun h => (h.resolve_left hlt).symm⟩
  · refine iff_of_false ?_ ?_
    · rintro h
      rw [← h] at hlt
      exact hlt (by decide)
    · rintro (h | h)
      · exact hlt h
      · have hlen := congrArg List.length h
        rw [List.length_append, List.length_take, List.length_singleton] at hlen
        omega

/-- A line as the history sees it. -/
theorem logHook_eq (hbuf : buf.length = 256) :
    logHook b buf text =
      if Overlong text then none
      else if recorded text = [] then some (b, []) else b.write (recorded text) := by
  have hlen : (vsnprintf buf text).1.length = 256 := by
    rw [vsnprintf_fst_length buf text (by omega), hbuf]
  have hhook : logHook b buf text =
      if 0 < (vsnprintf buf text).2 then
        if (vsnprintf buf text).2.toNat ≤ (vsnprintf buf text).1.length then
          b.write ((vsnprintf buf text).1.take (vsnprintf buf text).2.toNat)
        else none
      else some (b, []) := rfl
  rw [hhook, hlen]
  by_cases hint : text.length < 2 ^ 31
  · have hreturn : (vsnprintf buf text).2 = text.length := if_pos hint
    rw [hreturn, Int.toNat_natCast]
    by_cases hfits : text.length ≤ 256
    · have hover : ¬ Overlong text := fun h => absurd h.1 (by omega)
      have hnil : recorded text = [] ↔ ¬ (0 : Int) < text.length := by
        rw [← List.length_eq_zero_iff, ← vsnprintf_take buf text hbuf hfits, List.length_take, hlen]
        omega
      rw [if_neg hover, if_pos hfits, vsnprintf_take buf text hbuf hfits]
      by_cases hpos : (0 : Int) < text.length
      · rw [if_pos hpos, if_neg (fun h => hnil.mp h hpos)]
      · rw [if_neg hpos, if_pos (hnil.mpr hpos)]
    · have hover : Overlong text := ⟨by omega, hint⟩
      rw [if_pos hover, if_pos (by omega), if_neg hfits]
  · have hreturn : (vsnprintf buf text).2 = -1 := if_neg hint
    have hover : ¬ Overlong text := fun h => hint h.2
    have hnil : recorded text = [] := by
      rw [recorded, if_neg (by omega), if_neg (by omega)]
    rw [hreturn, if_neg hover, if_pos hnil]
    rfl

end hook

namespace CircularHistoryBuffer

/-- The log up to its first overlong line is a sequence of writes. -/
theorem logAll_eq (b : CircularHistoryBuffer) (lines : List (Bytes × Bytes))
    (hbuf : ∀ line ∈ lines, line.1.length = 256) (hfit : ∀ line ∈ lines, ¬ Overlong line.2) :
    logAll b lines = b.writeAll ((lines.map fun line => recorded line.2).filter fun data => data ≠ []) := by
  induction lines generalizing b with
  | nil => rfl
  | cons line lines ih =>
    obtain ⟨buf, text⟩ := line
    have hrest (b' : CircularHistoryBuffer) := ih b' (fun l hl => hbuf l (List.mem_cons_of_mem _ hl))
      fun l hl => hfit l (List.mem_cons_of_mem _ hl)
    have hhook := logHook_eq b buf text (hbuf (buf, text) List.mem_cons_self)
    rw [if_neg (hfit (buf, text) List.mem_cons_self)] at hhook
    rw [logAll, hhook, List.map_cons]
    by_cases hnil : recorded text = []
    · rw [if_pos hnil, List.filter_cons_of_neg (by simpa using hnil)]
      exact hrest b
    · rw [if_neg hnil, List.filter_cons_of_pos (by simpa using hnil), writeAll]
      cases b.write (recorded text) with
      | none => rfl
      | some written => exact hrest written.1

/-- An overlong line is where the log goes wrong. -/
theorem logAll_overlong (b : CircularHistoryBuffer) (lines : List (Bytes × Bytes))
    (hbuf : ∀ line ∈ lines, line.1.length = 256) (line : Bytes × Bytes) (hmem : line ∈ lines)
    (hover : Overlong line.2) : logAll b lines = none := by
  induction lines generalizing b with
  | nil => cases hmem
  | cons first lines ih =>
    obtain ⟨buf, text⟩ := first
    have hhook := logHook_eq b buf text (hbuf (buf, text) List.mem_cons_self)
    rw [logAll]
    rcases List.mem_cons.mp hmem with rfl | hmem
    · rw [hhook, if_pos hover]
      rfl
    · cases logHook b buf text with
      | none => rfl
      | some logged => exact ih logged.1 (fun l hl => hbuf l (List.mem_cons_of_mem _ hl)) hmem

end CircularHistoryBuffer

theorem flatten_filter_ne_nil (chunks : List Bytes) :
    (chunks.filter fun data => data ≠ []).flatten = chunks.flatten := by
  induction chunks with
  | nil => rfl
  | cons data chunks ih =>
    cases data with
    | nil => exact ih
    | cons c data => exact congrArg (c :: data ++ ·) ih

theorem flatMap_kept_length (size : Nat) (writes : List Bytes) :
    (writes.flatMap (kept size)).length ≤ writes.flatten.length := by
  induction writes with
  | nil => exact Nat.le_refl _
  | cons data writes ih =>
    have hdata : (kept size data).length ≤ data.length := by
      unfold kept
      split_ifs
      · rw [List.length_drop]
        omega
      · exact Nat.le_refl _
    rw [List.flatMap_cons, List.flatten_cons, List.length_append, List.length_append]
    omega

/-- The log reads outside its buffer exactly when a line is longer than it; otherwise a replay gives the end of
what the lines record. -/
theorem logger_history (mem : Bytes) (size : UInt32) (hmem : mem.length = size.toNat) (hs : 0 < size.toNat)
    (lines : List (Bytes × Bytes)) (hbuf : ∀ line ∈ lines, line.1.length = 256)
    (hb : (lines.flatMap fun line => recorded line.2).length < 2 ^ 64)
    (maxLen : Nat → UInt32) (hm : ∀ i, 0 < (maxLen i).toNat) :
    (logAll (init mem size hmem) lines = none ↔ ∃ line ∈ lines, Overlong line.2) ∧
      ∀ b, logAll (init mem size hmem) lines = some b →
        b.replay maxLen (size.toNat + 1) = some (latest size.toNat (lines.flatMap fun line => recorded line.2)) := by
  by_cases hover : ∃ line ∈ lines, Overlong line.2
  · obtain ⟨line, hline, ho⟩ := hover
    have hnone := logAll_overlong (init mem size hmem) lines hbuf line hline ho
    refine ⟨iff_of_true hnone ⟨line, hline, ho⟩, ?_⟩
    intro b hsome
    cases hnone.symm.trans hsome
  · have hfit : ∀ line ∈ lines, ¬ Overlong line.2 := fun line hline ho => hover ⟨line, hline, ho⟩
    have hwrites := logAll_eq (init mem size hmem) lines hbuf hfit
    generalize hw : (lines.map fun line => recorded line.2).filter (fun data => data ≠ []) = writes at hwrites
    have hflat : writes.flatten = lines.flatMap fun line => recorded line.2 := by
      rw [← hw, flatten_filter_ne_nil, ← List.flatMap_def]
    have hkept := flatMap_kept_length size.toNat writes
    rw [hflat] at hkept
    obtain ⟨b, hall, hsize, hholds⟩ := (init_holds mem size hmem hs).writeAll _ [] writes (hkept.trans_lt hb)
    have hreplay := hholds.replay b _ maxLen hm
    rw [hsize] at hreplay
    change b.replay maxLen (size.toNat + 1) = some (latest size.toNat (writes.flatMap (kept size.toNat)))
      at hreplay
    rw [latest_flatMap_kept, hflat] at hreplay
    refine ⟨iff_of_false ?_ hover, ?_⟩
    · rw [hwrites, hall]
      nofun
    · intro b' hsome
      rw [hwrites, hall] at hsome
      rw [← Option.some.inj hsome]
      exact hreplay

/-- A short line, one that fills the buffer, and one more. -/
def fullLog : List (Bytes × Bytes) :=
  [(List.replicate 256 0, [1, 2]), (List.replicate 256 0, List.replicate 256 7), (List.replicate 256 9, [5])]

set_option maxRecDepth 4000 in
theorem logger_history_full :
    ∃ b, logAll (init [0, 0, 0, 0] 4 rfl) fullLog = some b ∧ b.replay (fun _ => 2) 5 = some [7, 7, 0, 5] := by
  have hfit : ¬ ∃ line ∈ fullLog, Overlong line.2 := by decide
  have hlatest : latest 4 (fullLog.flatMap fun line => recorded line.2) = [7, 7, 0, 5] := by decide
  obtain ⟨hnone, hreplay⟩ := logger_history [0, 0, 0, 0] 4 rfl (by decide) fullLog (by decide) (by decide)
    (fun _ => 2) fun _ => by decide
  obtain ⟨b, hb⟩ := Option.ne_none_iff_exists'.mp (mt hnone.mp hfit)
  exact ⟨b, hb, (hreplay b hb).trans (congrArg some hlatest)⟩

end Espbase.History
