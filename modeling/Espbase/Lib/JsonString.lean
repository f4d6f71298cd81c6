import Espbase.Lib.Bytes

namespace Espbase.Lib

/-- A lower-case hexadecimal digit. -/
def hexDigit (d : Nat) : UInt8 := (if d < 10 then 48 + d else 87 + d).toUInt8

/-- The letter of a two-character escape, for the bytes that have one. -/
def shortEscape (c : UInt8) : Option UInt8 :=
  if c = ch '"' then some (ch '"')
  else if c = ch '\\' then some (ch '\\')
  else if c = 0x08 then some (ch 'b')
  else if c = 0x0c then some (ch 'f')
  else if c = 0x0a then some (ch 'n')
  else if c = 0x0d then some (ch 'r')
  else if c = 0x09 then some (ch 't')
  else none

/-- JSON text of one byte of a string: only quotes, backslashes and control bytes are escaped. -/
def escapeByte (c : UInt8) : Bytes :=
  match shortEscape c with
  | some e => [ch '\\', e]
  | none =>
    if c ≤ 0x1f then
      [ch '\\', ch 'u', ch '0', ch '0', hexDigit (c.toNat / 16), hexDigit (c.toNat % 16)]
    else [c]

def escape (s : Bytes) : Bytes := s.flatMap escapeByte

def stringLiteral (s : Bytes) : Bytes := ch '"' :: escape s ++ [ch '"']

@[simp] theorem escape_nil : escape [] = [] := rfl

@[simp] theorem escape_cons (c : UInt8) (s : Bytes) :
    escape (c :: s) = escapeByte c ++ escape s := by simp [escape]

theorem escape_append (s t : Bytes) : escape (s ++ t) = escape s ++ escape t := by
  simp [escape]

theorem escapeByte_ne_nil (c : UInt8) : escapeByte c ≠ [] := by
  rw [escapeByte]
  split
  · exact List.cons_ne_nil _ _
  · split_ifs
    · exact List.cons_ne_nil _ _
    · exact List.cons_ne_nil _ _

theorem escape_length_ge (s : Bytes) : s.length ≤ (escape s).length := by
  induction s with
  | nil => simp
  | cons c s ih =>
    have hpos := List.length_pos_of_ne_nil (escapeByte_ne_nil c)
    rw [escape_cons, List.length_append, List.length_cons]
    omega

/-- A byte that a JSON string cannot hold as it is. -/
def Special (c : UInt8) : Prop := c = ch '"' ∨ c = ch '\\' ∨ c ≤ 0x1f

instance (c : UInt8) : Decidable (Special c) := inferInstanceAs (Decidable (_ ∨ _))

theorem special_le (c : UInt8) (h : Special c) : c.toNat ≤ 0x7f := by
  obtain rfl | rfl | h := h
  · decide
  · decide
  · exact Nat.le_trans (UInt8.le_iff_toNat_le.mp h) (by decide)

theorem escapeByte_plain (c : UInt8) (h : ¬ Special c) : escapeByte c = [c] := by
  simp only [Special, not_or] at h
  obtain ⟨h1, h2, h3⟩ := h
  have ne (k : UInt8) (hk : k ≤ 0x1f) : c ≠ k := fun he => h3 (he ▸ hk)
  simp [escapeByte, shortEscape, h1, h2, h3, ne 0x08 (by decide), ne 0x0c (by decide),
    ne 0x0a (by decide), ne 0x0d (by decide), ne 0x09 (by decide)]

theorem escape_plain (s : Bytes) (h : ∀ c ∈ s, ¬ Special c) : escape s = s := by
  induction s with
  | nil => rfl
  | cons c s ih =>
    rw [escape_cons, escapeByte_plain c (h c (by simp)), ih (fun d hd => h d (by simp [hd]))]
    rfl

end Espbase.Lib
