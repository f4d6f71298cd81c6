import Espbase.Lib.QuoteScan
import Espbase.StackJson.PrettyBuffer

namespace Espbase.StackJson

open Espbase.Lib

/-- What the decorator remembers of the text before a byte. -/
@[ext] structure Cursor where
  quote : Quote
  depth : UInt8

namespace Cursor

def nextDepth (k : Cursor) (c : UInt8) : UInt8 :=
  if k.quote ≠ .outside then k.depth
  else if c = ch '{' ∨ c = ch '[' then k.depth + 1
  else if c = ch '}' ∨ c = ch ']' then if k.depth > 0 then k.depth - 1 else k.depth
  else k.depth

def next (k : Cursor) (c : UInt8) : Cursor := ⟨k.quote.next c, k.nextDepth c⟩

def after (k : Cursor) (s : Bytes) : Cursor := s.foldl next k

@[simp] theorem after_nil (k : Cursor) : k.after [] = k := rfl

@[simp] theorem after_cons (k : Cursor) (c : UInt8) (s : Bytes) :
    k.after (c :: s) = (k.next c).after s := rfl

theorem after_append (k : Cursor) (s t : Bytes) : k.after (s ++ t) = (k.after s).after t :=
  List.foldl_append

theorem after_quote (k : Cursor) (s : Bytes) : (k.after s).quote = k.quote.after s := by
  induction s generalizing k with
  | nil => rfl
  | cons c s ih => exact ih (k.next c)

end Cursor

section pretty
variable (indent : UInt8)

def indentation (depth : UInt8) : Bytes := List.replicate (depth.toNat * indent.toNat) (ch ' ')

/-- The pretty text of one byte of the compact text. -/
def prettyByte (k : Cursor) (c : UInt8) : Bytes :=
  if k.quote ≠ .outside then [c]
  else if c = ch '{' ∨ c = ch '[' then c :: 0x0a :: indentation indent (k.nextDepth c)
  else if c = ch '}' ∨ c = ch ']' then 0x0a :: (indentation indent (k.nextDepth c) ++ [c])
  else if c = ch ',' then c :: 0x0a :: indentation indent k.depth
  else if c = ch ':' then [c, ch ' ']
  else [c]

def pretty : Cursor → Bytes → Bytes
  | _, [] => []
  | k, c :: s => prettyByte indent k c ++ pretty (k.next c) s

/-- Whether an indentation is written for the byte. -/
def indents (k : Cursor) (c : UInt8) : Bool :=
  k.quote == .outside && (c == ch '{' || c == ch '[' || c == ch '}' || c == ch ']' || c == ch ',')

/-- The indentation loops for the bytes of the text all end. -/
def Settles : Cursor → Bytes → Prop
  | _, [] => True
  | k, c :: s =>
    (indents k c = true → (k.nextDepth c).toNat * indent.toNat ≤ 255) ∧ Settles (k.next c) s

theorem pretty_append (k : Cursor) (s t : Bytes) :
    pretty indent k (s ++ t) = pretty indent k s ++ pretty indent (k.after s) t := by
  induction s generalizing k with
  | nil => rfl
  | cons c s ih => rw [List.cons_append, pretty, pretty, ih, Cursor.after_cons, List.append_assoc]

theorem settles_append (k : Cursor) (s t : Bytes) :
    Settles indent k (s ++ t) ↔ Settles indent k s ∧ Settles indent (k.after s) t := by
  induction s generalizing k with
  | nil => exact ⟨fun h => ⟨trivial, h⟩, fun h => h.2⟩
  | cons c s ih => rw [List.cons_append, Settles, Settles, ih, Cursor.after_cons, and_assoc]

/-- A text that the decorator leaves as it is, on its way from one cursor to another. -/
structure Verbatim (k : Cursor) (s : Bytes) (k' : Cursor) : Prop where
  text : pretty indent k s = s
  settles : Settles indent k s
  cursor : k.after s = k'

variable {indent} {k k1 k2 : Cursor} {s t : Bytes}

theorem Verbatim.append (h : Verbatim indent k s k1) (h' : Verbatim indent k1 t k2) :
    Verbatim indent k (s ++ t) k2 := by
  refine ⟨?_, (settles_append indent k s t).mpr ⟨h.settles, ?_⟩, ?_⟩
  · rw [pretty_append, h.text, h.cursor, h'.text]
  · rw [h.cursor]
    exact h'.settles
  · rw [Cursor.after_append, h.cursor, h'.cursor]

theorem Verbatim.byte (c : UInt8) (htext : prettyByte indent k c = [c]) (hind : indents k c = false) :
    Verbatim indent k [c] (k.next c) := by
  refine ⟨by rw [pretty, htext]; rfl, ⟨?_, trivial⟩, rfl⟩
  intro h
  rw [hind] at h
  cases h

/-- Bytes outside of string literals that are no structural characters. -/
theorem Verbatim.of_forall (hk : k.quote = .outside)
    (h : ∀ c ∈ s, PrettyBuffer.isStructural c = false) : Verbatim indent k s k := by
  induction s with
  | nil => exact ⟨rfl, trivial, rfl⟩
  | cons c s ih =>
    have hc := h c (by simp)
    simp only [PrettyBuffer.isStructural, Bool.or_eq_false_iff, beq_eq_false_iff_ne] at hc
    obtain ⟨⟨⟨⟨⟨⟨h1, h2⟩, h3⟩, h4⟩, h5⟩, h6⟩, h7⟩ := hc
    obtain ⟨q, d⟩ := k
    obtain rfl : q = .outside := hk
    have hnext : Cursor.next ⟨.outside, d⟩ c = ⟨.outside, d⟩ := by
      simp [Cursor.next, Cursor.nextDepth, Quote.next, h1, h2, h3, h4, h7]
    have hone : Verbatim indent ⟨.outside, d⟩ [c] (Cursor.next ⟨.outside, d⟩ c) := Verbatim.byte c
      (by simp [prettyByte, h1, h2, h3, h4, h5, h6]) (by simp [indents, h1, h2, h3, h4, h5])
    rw [hnext] at hone
    exact hone.append (ih fun e he => h e (List.mem_cons_of_mem _ he))

theorem Verbatim.literal (h : k.quote.literal s = true) :
    Verbatim indent k s ⟨k.quote.after s, k.depth⟩ := by
  induction s generalizing k with
  | nil => exact ⟨rfl, trivial, rfl⟩
  | cons c s ih =>
    rw [Quote.literal, Bool.and_eq_true, bne_iff_ne] at h
    have hone : Verbatim indent k [c] (k.next c) :=
      Verbatim.byte c (by simp [prettyByte, h.1]) (by simp [indents, h.1])
    have hnext : k.next c = ⟨k.quote.next c, k.depth⟩ := by
      simp [Cursor.next, Cursor.nextDepth, h.1]
    rw [hnext] at hone
    exact hone.append (ih h.2)

theorem Verbatim.openQuote (d : UInt8) : Verbatim indent ⟨.outside, d⟩ [ch '"'] ⟨.inside, d⟩ :=
  Verbatim.byte (ch '"') rfl rfl

theorem Verbatim.stringLiteral (d : UInt8) (s : Bytes) :
    Verbatim indent ⟨.outside, d⟩ (stringLiteral s) ⟨.outside, d⟩ := by
  obtain ⟨hbody, hlit⟩ := Quote.inside_escape s
  have hescape : Verbatim indent ⟨.inside, d⟩ (escape s) ⟨.inside, d⟩ := by
    have h : Verbatim indent ⟨.inside, d⟩ (escape s) _ := Verbatim.literal hlit
    rwa [hbody] at h
  have hclose : Verbatim indent ⟨.inside, d⟩ [ch '"'] ⟨.outside, d⟩ := Verbatim.literal rfl
  exact ((Verbatim.openQuote d).append hescape).append hclose

end pretty

section unspaced

theorem indentation_spaces (indent depth : UInt8) :
    ∀ c ∈ indentation indent depth, isSpace c = true := by
  intro c hc
  rw [List.eq_of_mem_replicate hc]
  rfl

/-- The pretty text of a byte has the byte as its only solid one, and the scanner leaves both in the
same state. -/
theorem unspaced_prettyByte (indent : UInt8) (k : Cursor) (c : UInt8) :
    unspaced k.quote (prettyByte indent k c) = unspaced k.quote [c] ∧
      k.quote.after (prettyByte indent k c) = k.quote.next c := by
  by_cases hk : k.quote = .outside
  · have newline (d : UInt8) : unspaced .outside (0x0a :: indentation indent d) = [] ∧
        Quote.outside.after (0x0a :: indentation indent d) = .outside :=
      unspaced_spaces _ fun e he => (List.mem_cons.mp he).elim (fun h => h ▸ rfl)
        (indentation_spaces indent d e)
    have before (d : UInt8) (hq : Quote.outside.next c = .outside) :
        unspaced .outside (c :: 0x0a :: indentation indent d) = unspaced .outside [c] ∧
          Quote.outside.after (c :: 0x0a :: indentation indent d) = Quote.outside.next c := by
      have h := newline d
      rw [← List.singleton_append, unspaced_append, Quote.after_append, Quote.after_cons, hq,
        Quote.after_nil, h.1, h.2, List.append_nil]
      exact ⟨rfl, rfl⟩
    unfold prettyByte
    rw [hk, if_neg (by simp)]
    split_ifs with h1 h2 h3 h4
    · exact before _ (by rcases h1 with rfl | rfl <;> rfl)
    · have h := newline (k.nextDepth c)
      rw [← List.cons_append, unspaced_append, Quote.after_append, h.1, h.2]
      exact ⟨rfl, rfl⟩
    · exact before _ (by rw [h3]; rfl)
    · subst h4
      exact ⟨rfl, rfl⟩
    · exact ⟨rfl, rfl⟩
  · rw [prettyByte, if_pos hk]
    exact ⟨rfl, rfl⟩

/-- Pretty printing adds only whitespace outside of string literals. -/
theorem unspaced_pretty (indent : UInt8) (k : Cursor) (s : Bytes) :
    unspaced k.quote (pretty indent k s) = unspaced k.quote s := by
  induction s generalizing k with
  | nil => rfl
  | cons c s ih =>
    obtain ⟨hu, ha⟩ := unspaced_prettyByte indent k c
    have hsplit : unspaced k.quote (c :: s) = unspaced k.quote [c] ++ unspaced (k.quote.next c) s :=
      unspaced_append k.quote [c] s
    rw [pretty, unspaced_append, hu, ha, hsplit]
    exact congrArg _ (ih (k.next c))

end unspaced

end Espbase.StackJson
