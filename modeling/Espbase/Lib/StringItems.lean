import Espbase.Lib.Bytes

namespace Espbase.Lib

/-- The value of a hexadecimal digit of either case. -/
def hexDigitValue (c : UInt8) : Option Nat :=
  (bytes "0123456789abcdef").idxOf? c <|> (bytes "0123456789ABCDEF").idxOf? c

/-- A hexadecimal digit and its value. -/
structure HexDigit where
  byte : UInt8
  value : Nat
  eq : hexDigitValue byte = some value

structure Hex4 where
  a : HexDigit
  b : HexDigit
  c : HexDigit
  d : HexDigit

namespace Hex4

def text (x : Hex4) : Bytes := [x.a.byte, x.b.byte, x.c.byte, x.d.byte]

def value (x : Hex4) : Nat := ((x.a.value * 16 + x.b.value) * 16 + x.c.value) * 16 + x.d.value

end Hex4

/-- The two-character escapes of JSON. -/
def shortEscapes : List (UInt8 × Char) :=
  [(ch '"', '"'), (ch '\\', '\\'), (ch '/', '/'), (ch 'b', Char.ofNat 8), (ch 'f', Char.ofNat 12),
    (ch 'n', '\n'), (ch 'r', '\r'), (ch 't', '\t')]

/-- How one character stands in a JSON string: as it is, as a short escape, as the escape of its number,
or, outside of the basic plane, as the escapes of two surrogates. -/
inductive StringItem where
  | plain (c : Char) (h : c ≠ '"' ∧ c ≠ '\\')
  | short (letter : UInt8) (c : Char) (h : (letter, c) ∈ shortEscapes)
  | basic (x : Hex4) (h : x.value < 0xd800 ∨ 0xdfff < x.value)
  | pair (hi lo : Hex4) (hhi : 0xd800 ≤ hi.value ∧ hi.value ≤ 0xdbff)
    (hlo : 0xdc00 ≤ lo.value ∧ lo.value ≤ 0xdfff)

def utf8 (cs : List Char) : Bytes := cs.flatMap String.utf8EncodeChar

theorem utf8_valid (cs : List Char) : (utf8 cs).toByteArray.IsValidUTF8 := ⟨cs, rfl⟩

namespace StringItem

/-- The character that the item stands for. -/
def char : StringItem → Char
  | plain c _ => c
  | short _ c _ => c
  | basic x _ => Char.ofNat x.value
  | pair hi lo _ _ => Char.ofNat (0x10000 + (hi.value - 0xd800) * 0x400 + (lo.value - 0xdc00))

def text : StringItem → Bytes
  | plain c _ => String.utf8EncodeChar c
  | short letter _ _ => [ch '\\', letter]
  | basic x _ => ch '\\' :: ch 'u' :: x.text
  | pair hi lo _ _ => ch '\\' :: ch 'u' :: (hi.text ++ ch '\\' :: ch 'u' :: lo.text)

def isPair : StringItem → Bool
  | pair _ _ _ _ => true
  | _ => false

/-- The text of the items between the quotes. -/
def body (items : List StringItem) : Bytes := items.flatMap text

end StringItem

theorem HexDigit.byte_at (x : HexDigit) :
    (bytes "0123456789abcdef")[x.value]? = some x.byte ∨
      (bytes "0123456789ABCDEF")[x.value]? = some x.byte := by
  have hat (l : Bytes) (h : l.idxOf? x.byte = some x.value) : l[x.value]? = some x.byte := by
    obtain ⟨hlt, heq, -⟩ := List.findIdx?_eq_some_iff_getElem.mp h
    rw [List.getElem?_eq_getElem hlt, eq_of_beq heq]
  have hv := x.eq
  rw [hexDigitValue, Option.orElse_eq_orElse, Option.orElse_eq_or, Option.or_eq_some_iff] at hv
  exact hv.imp (hat _) fun h => hat _ h.2

theorem HexDigit.value_lt (x : HexDigit) : x.value < 16 := by
  obtain h | h := x.byte_at
  · exact (List.getElem?_eq_some_iff.mp h).1
  · exact (List.getElem?_eq_some_iff.mp h).1

theorem Hex4.value_lt (x : Hex4) : x.value < 0x10000 := by
  have ha := x.a.value_lt
  have hb := x.b.value_lt
  have hc := x.c.value_lt
  have hd := x.d.value_lt
  unfold value
  omega

section encode

theorem char_toNat (n : Nat) (h : n < 0xd800 ∨ 0xdfff < n ∧ n < 0x110000) : (Char.ofNat n).val.toNat = n := by
  have hvalid : n.isValidChar := h
  rw [Char.ofNat, dif_pos hvalid]
  rfl

theorem utf8_length_pair (n : Nat) (h : 0xffff < n) (hn : n < 0x110000) :
    (String.utf8EncodeChar (Char.ofNat n)).length = 4 := by
  have hval := char_toNat n (by omega)
  unfold String.utf8EncodeChar
  simp only [hval]
  rw [if_neg (by omega), if_neg (by omega), if_neg (by omega)]
  rfl

/-- The encoding of a character other than the backslash holds no backslash. -/
theorem utf8_ne_slash (c : Char) (hc : c ≠ '\\') : ∀ b ∈ String.utf8EncodeChar c, b ≠ ch '\\' := by
  have hhigh (n k : Nat) (hk : 0x80 ≤ k) (hn : n < 256 - k) : UInt8.ofNat (n + k) ≠ ch '\\' := by
    intro h
    have := congrArg UInt8.toNat h
    rw [UInt8.toNat_ofNat_of_lt' (by simp only [UInt8.size]; omega)] at this
    have hslash : (ch '\\').toNat = 92 := by decide
    omega
  intro b hb
  unfold String.utf8EncodeChar at hb
  dsimp only at hb
  split_ifs at hb with h1 h2 h3
  · rw [List.mem_singleton.mp hb]
    intro h
    apply hc
    have hslash : (ch '\\').toNat = 92 := by decide
    have := congrArg UInt8.toNat h
    rw [UInt8.toNat_ofNat_of_lt' (by simp only [UInt8.size]; omega), hslash] at this
    exact Char.ext (UInt32.toNat_inj.mp this)
  all_goals
    simp only [List.mem_cons, List.not_mem_nil, or_false] at hb
    rcases hb with rfl | rfl | rfl | rfl <;> exact hhigh _ _ (by decide) (by omega)

end encode

end Espbase.Lib
