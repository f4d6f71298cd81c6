import Espbase.Lib.StringItems
import Espbase.StackJson.DecodeResults

namespace Espbase.StackJson

open Espbase.Lib

section results

theorem hexValue_byte (x : HexDigit) : hexValue x.byte = some x.value := by
  have hlower : bytes "0123456789abcdef" = [48, 49, 50, 51, 52, 53, 54, 55, 56, 57, 97, 98, 99, 100, 101, 102] := by
    decide
  have hupper : bytes "0123456789ABCDEF" = [48, 49, 50, 51, 52, 53, 54, 55, 56, 57, 65, 66, 67, 68, 69, 70] := by
    decide
  have hdigits (l : Bytes) (hl : ∀ i : Fin 16, l[i.val]?.bind hexValue = some i.val)
      (h : l[x.value]? = some x.byte) : hexValue x.byte = some x.value := by
    have hi := hl ⟨x.value, x.value_lt⟩
    rwa [h, Option.bind_some] at hi
  have hx := x.byte_at
  rw [hlower, hupper] at hx
  obtain h | h := hx
  · exact hdigits _ (by decide) h
  · exact hdigits _ (by decide) h

theorem hexPrefix_text (x : Hex4) (s : Bytes) : hexPrefix (x.text ++ s) = some x.value := by
  simp only [Hex4.text, List.cons_append, List.nil_append, hexPrefix, hexValue_byte, Option.bind_eq_bind,
    Option.bind_some]
  rfl

/-- What the turns over an item write. -/
def itemResults : StringItem → List Bytes
  | .plain c _ => (String.utf8EncodeChar c).map fun b => [b]
  | .short letter _ _ => [[unescaped letter]]
  | .basic x _ => [codepointBytes x.value]
  | .pair hi lo _ _ => [codepointBytes hi.value, codepointBytes lo.value]

theorem decodeResults_bytes (bs s : Bytes) (h : ∀ b ∈ bs, b ≠ ch '\\') :
    decodeResults (bs ++ s) = (bs.map fun b => [b]) ++ decodeResults s := by
  induction bs with
  | nil => rfl
  | cons b bs ih =>
    rw [List.cons_append, decodeResults_raw b _ (.inl (h b (by simp))), ih fun b hb => h b (by simp [hb])]
    rfl

theorem decodeResults_escape (x : Hex4) (s : Bytes) :
    decodeResults (ch '\\' :: ch 'u' :: (x.text ++ s)) = codepointBytes x.value :: decodeResults s :=
  decodeResults_unicode _ _ (hexPrefix_text x s)

theorem decodeResults_item (item : StringItem) (s : Bytes) :
    decodeResults (item.text ++ s) = itemResults item ++ decodeResults s := by
  cases item with
  | plain c h => exact decodeResults_bytes _ s (utf8_ne_slash c h.2)
  | short letter c h =>
    apply decodeResults_short
    have hall : ∀ e ∈ shortEscapes, e.1 ≠ ch 'u' := by decide
    exact hall _ h
  | basic x h => exact decodeResults_escape x s
  | pair hi lo hhi hlo =>
    simp only [StringItem.text, List.cons_append, List.append_assoc]
    rw [decodeResults_escape, decodeResults_escape]
    rfl

theorem decodeResults_body (items : List StringItem) :
    decodeResults (StringItem.body items) = items.flatMap itemResults := by
  induction items with
  | nil => exact decodeResults_nil
  | cons item items ih =>
    unfold StringItem.body at *
    rw [List.flatMap_cons, decodeResults_item, ih, List.flatMap_cons]

end results

section encode

/-- In the basic plane the three branches of the decoder are those of UTF-8. -/
theorem codepointBytes_eq (v : Nat) (hv : v < 0x10000) (h : v < 0xd800 ∨ 0xdfff < v) :
    codepointBytes v = String.utf8EncodeChar (Char.ofNat v) := by
  have hval := char_toNat v (h.imp_right fun h => ⟨h, by omega⟩)
  -- the bits of the marker bytes are free
  have htail (n : Nat) : 0x80 ||| (n &&& 0x3f) = n % 0x40 + 0x80 := by
    rw [Nat.and_two_pow_sub_one_eq_mod n 6, Nat.add_comm]
    exact (Nat.two_pow_add_eq_or_of_lt (Nat.mod_lt n (Nat.two_pow_pos 6)) 2).symm
  have htwo (n : Nat) : 0xc0 ||| (n &&& 0x1f) = n % 0x20 + 0xc0 := by
    rw [Nat.and_two_pow_sub_one_eq_mod n 5, Nat.add_comm]
    exact (Nat.two_pow_add_eq_or_of_lt (Nat.mod_lt n (Nat.two_pow_pos 5)) 6).symm
  have hthree (n : Nat) : 0xe0 ||| (n &&& 0x0f) = n % 0x10 + 0xe0 := by
    rw [Nat.and_two_pow_sub_one_eq_mod n 4, Nat.add_comm]
    exact (Nat.two_pow_add_eq_or_of_lt (Nat.mod_lt n (Nat.two_pow_pos 4)) 14).symm
  unfold codepointBytes String.utf8EncodeChar
  simp only [hval, htail, htwo, hthree, Nat.shiftRight_eq_div_pow]
  split_ifs with h1 h2 h3
  · rfl
  · rfl
  · rfl
  · omega

/-- The results over an item are the encoding of its character, those over a surrogate pair are two bytes
too long. -/
theorem itemResults_flatten (item : StringItem) :
    (item.isPair = false → (itemResults item).flatten = String.utf8EncodeChar item.char) ∧
      (itemResults item).flatten.length =
        (String.utf8EncodeChar item.char).length + if item.isPair then 2 else 0 := by
  cases item with
  | plain c h =>
    have hflat : (itemResults (.plain c h)).flatten = String.utf8EncodeChar c := by
      rw [itemResults, ← List.flatMap_def, List.flatMap_singleton']
    exact ⟨fun _ => hflat, congrArg List.length hflat⟩
  | short letter c h =>
    have hall : ∀ e ∈ shortEscapes, [unescaped e.1] = String.utf8EncodeChar e.2 := by decide
    exact ⟨fun _ => hall _ h, congrArg List.length (hall _ h)⟩
  | basic x h =>
    have heq := codepointBytes_eq x.value x.value_lt h
    have hflat : (itemResults (.basic x h)).flatten = String.utf8EncodeChar (Char.ofNat x.value) := by
      rw [← heq]
      exact List.append_nil _
    exact ⟨fun _ => hflat, congrArg List.length hflat⟩
  | pair hi lo hhi hlo =>
    have hthree (v : Nat) (hv : 0xd800 ≤ v) : (codepointBytes v).length = 3 := by
      unfold codepointBytes
      rw [if_neg (by omega), if_neg (by omega)]
      rfl
    have hfour := utf8_length_pair (0x10000 + (hi.value - 0xd800) * 0x400 + (lo.value - 0xdc00)) (by omega)
      (by omega)
    refine ⟨nofun, ?_⟩
    rw [itemResults, StringItem.char, hfour]
    simp [hthree hi.value (by omega), hthree lo.value (by omega), StringItem.isPair]

theorem itemResults_cons (item : StringItem) (items : List StringItem) :
    ((item :: items).flatMap itemResults).flatten =
      (itemResults item).flatten ++ (items.flatMap itemResults).flatten := by
  rw [List.flatMap_cons, List.flatten_append]

theorem utf8_cons (c : Char) (cs : List Char) : utf8 (c :: cs) = String.utf8EncodeChar c ++ utf8 cs :=
  List.flatMap_cons

theorem itemResults_length_ge (items : List StringItem) :
    (utf8 (items.map StringItem.char)).length ≤ (items.flatMap itemResults).flatten.length := by
  induction items with
  | nil => exact Nat.zero_le _
  | cons item items ih =>
    have hitem := (itemResults_flatten item).2
    rw [itemResults_cons, List.map_cons, utf8_cons, List.length_append, List.length_append, hitem]
    omega

/-- One surrogate pair makes the results too long, and nothing behind it can make up for it. -/
theorem itemResults_utf8_iff (items : List StringItem) :
    (items.flatMap itemResults).flatten = utf8 (items.map StringItem.char) ↔
      ∀ item ∈ items, item.isPair = false := by
  induction items with
  | nil => exact iff_of_true rfl nofun
  | cons item items ih =>
    obtain ⟨heq, hlen⟩ := itemResults_flatten item
    rw [List.forall_mem_cons, itemResults_cons, List.map_cons, utf8_cons]
    constructor
    · intro h
      have htotal := congrArg List.length h
      have hrest := itemResults_length_ge items
      rw [List.length_append, List.length_append, hlen] at htotal
      have hpair : item.isPair = false := by
        by_contra hpair
        rw [if_pos (by simpa using hpair)] at htotal
        omega
      rw [heq hpair] at h
      exact ⟨hpair, ih.mp (List.append_cancel_left h)⟩
    · intro hboth
      obtain ⟨hpair, h⟩ := hboth
      rw [heq hpair, ih.mpr h]

end encode

/-- A string body is decoded, in a span of that size, to valid UTF-8: the encoding of its characters. -/
def DecodesUnicode (items : List StringItem) (outSize : Nat) : Prop :=
  ∃ out, decodeJsonString (StringItem.body items) outSize = some out ∧
    out.toByteArray.IsValidUTF8 ∧ out = utf8 (items.map StringItem.char)

/-- With room, a string body is decoded to the UTF-8 of its characters exactly when no character is
written as a surrogate pair. -/
theorem decodes_unicode_iff (items : List StringItem) (outSize : Nat)
    (hroom : (StringItem.body items).length ≤ outSize) :
    DecodesUnicode items outSize ↔ ∀ item ∈ items, item.isPair = false := by
  have hwhole := decodeJsonString_whole (StringItem.body items) outSize hroom
  rw [decodeResults_body] at hwhole
  rw [← itemResults_utf8_iff]
  constructor
  · intro h
    obtain ⟨out, hout, -, heq⟩ := h
    rw [← heq]
    exact Option.some.inj (hwhole.symm.trans hout)
  · intro heq
    refine ⟨_, hwhole, ?_, heq⟩
    rw [heq]
    exact utf8_valid _

def hexDigitOf (byte : UInt8) (value : Nat) (h : hexDigitValue byte = some value := by decide) :
    HexDigit := ⟨byte, value, h⟩

/-- `°\n✓`, the signs as it is and as an escape -/
def signItems : List StringItem :=
  [.plain '°' (by decide), .short (ch 'n') '\n' (by decide),
    .basic ⟨hexDigitOf (ch '2') 2, hexDigitOf (ch '7') 7, hexDigitOf (ch '1') 1, hexDigitOf (ch '3') 3⟩
      (by decide)]

theorem decodes_unicode_iff_sign :
    StringItem.body signItems = [0xc2, 0xb0] ++ bytes "\\n\\u2713" ∧
      (DecodesUnicode signItems 10 ↔ ∀ item ∈ signItems, item.isPair = false) :=
  ⟨by decide, decodes_unicode_iff signItems 10 (by decide)⟩

/-- An emoji as a surrogate pair -/
def emojiItems : List StringItem :=
  [.pair ⟨hexDigitOf (ch 'd') 13, hexDigitOf (ch '8') 8, hexDigitOf (ch '3') 3, hexDigitOf (ch 'D') 13⟩
    ⟨hexDigitOf (ch 'd') 13, hexDigitOf (ch 'e') 14, hexDigitOf (ch '0') 0, hexDigitOf (ch '0') 0⟩
    (by decide) (by decide)]

/-- The halves of the pair are decoded one by one, to bytes that are not UTF-8. -/
theorem decodes_unicode_emoji :
    StringItem.body emojiItems = bytes "\\ud83D\\ude00" ∧
      emojiItems.map StringItem.char = [Char.ofNat 0x1f600] ∧
      decodeJsonString (StringItem.body emojiItems) 12 = some [0xed, 0xa0, 0xbd, 0xed, 0xb8, 0x80] ∧
      utf8 [Char.ofNat 0x1f600] = [0xf0, 0x9f, 0x98, 0x80] ∧ ¬ DecodesUnicode emojiItems 12 := by
  have hout : decodeJsonString (StringItem.body emojiItems) 12 =
      some [0xed, 0xa0, 0xbd, 0xed, 0xb8, 0x80] := by
    decide
  have hchars : emojiItems.map StringItem.char = [Char.ofNat 0x1f600] := rfl
  refine ⟨by decide, hchars, hout, by decide, ?_⟩
  intro h
  obtain ⟨out, hout', -, heq⟩ := h
  rw [hout, Option.some.injEq] at hout'
  rw [← hout', hchars] at heq
  exact absurd (congrArg List.length heq) (by decide)

end Espbase.StackJson
