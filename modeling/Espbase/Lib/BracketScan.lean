import Espbase.Lib.QuoteScan

namespace Espbase.Lib

/-- How a byte changes the number of open brackets. -/
def Quote.bracket : Quote → UInt8 → Int
  | outside, c => if c = ch '{' ∨ c = ch '[' then 1 else if c = ch '}' ∨ c = ch ']' then -1 else 0
  | inside, _ => 0
  | escaped, _ => 0

/-- Whether the number of open brackets, which is `n` before the text, first is zero at its end. Only the
brackets outside of string literals count. -/
def Quote.closes : Quote → Int → Bytes → Bool
  | _, _, [] => false
  | q, n, [c] => n + q.bracket c == 0
  | q, n, c :: d :: s => n + q.bracket c != 0 && closes (q.next c) (n + q.bracket c) (d :: s)

/-- The brackets of the text first balance at its end. -/
def Framed (s : Bytes) : Prop := Quote.outside.closes 0 s = true

instance (s : Bytes) : Decidable (Framed s) := inferInstanceAs (Decidable (_ = true))

/-- The text up to the byte where no bracket is open. -/
def Quote.frame : Quote → Int → Bytes → Bytes
  | _, _, [] => []
  | q, n, c :: s => if n + q.bracket c = 0 then [c] else c :: frame (q.next c) (n + q.bracket c) s

theorem Quote.frame_ne_nil (q : Quote) (n : Int) (s : Bytes) (h : s ≠ []) : q.frame n s ≠ [] := by
  cases s with
  | nil => exact absurd rfl h
  | cons c s =>
    rw [frame]
    split_ifs <;> simp

/-- In a longer text the frame is the text that closes. -/
theorem Quote.frame_append_iff (q : Quote) (n : Int) (s rest : Bytes) (hs : s ≠ []) (hrest : rest ≠ []) :
    q.frame n (s ++ rest) = s ↔ q.closes n s = true := by
  induction s generalizing q n with
  | nil => exact absurd rfl hs
  | cons c s ih =>
    rw [List.cons_append, frame]
    cases s with
    | nil =>
      rw [closes, beq_iff_eq]
      split_ifs with h
      · simp [h]
      · simpa [h] using frame_ne_nil (q.next c) (n + q.bracket c) rest hrest
    | cons d s =>
      rw [closes, Bool.and_eq_true, bne_iff_ne, ← ih (q.next c) _ (by simp)]
      split_ifs with h
      · simp [h]
      · simp [h]

end Espbase.Lib
