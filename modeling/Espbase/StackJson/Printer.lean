import Espbase.StackJson.Buffer

namespace Espbase.StackJson

open Espbase.Lib

section vprint
variable {σ : Type} [Buffer σ]

/-- `vsnprintf` into a span of `span` cells: at most `span - 1` bytes of the formatted text, then the
terminator. -/
def vsnprintf (buf : σ) (span : Nat) (text : Bytes) : Option σ := do
  let kept := text.take (span - 1)
  let buf ← Buffer.store buf 0 kept
  Buffer.store buf kept.length [0]

/-- The bytes that `vprint` escapes with one letter. -/
def hasLetter (c : UInt8) : Bool :=
  c == ch '"' || c == ch '\\' || c == 0x08 || c == 0x0c || c == 0x0a || c == 0x0d || c == 0x09

def extra (c : UInt8) : Nat := if hasLetter c then 1 else if c ≤ 0x1f then 5 else 0

/-- First pass: the extra characters needed for the cells from `i` on. -/
def countExtra (buf : σ) (i : Nat) : Nat → Option Nat
  | 0 => some 0
  | n + 1 => do
    let c ← Buffer.load buf i
    let e ← countExtra buf (i + 1) n
    some (extra c + e)

/-- What the second pass writes for a byte, in text order. -/
def expansion (c : UInt8) : Bytes :=
  if c = ch '"' then [ch '\\', ch '"']
  else if c = ch '\\' then [ch '\\', ch '\\']
  else if c = 0x08 then [ch '\\', ch 'b']
  else if c = 0x0c then [ch '\\', ch 'f']
  else if c = 0x0a then [ch '\\', ch 'n']
  else if c = 0x0d then [ch '\\', ch 'r']
  else if c = 0x09 then [ch '\\', ch 't']
  else if c ≤ 0x1f then bytes "\\u" ++ hex4 c.toNat
  else [c]

/-- `span[write_idx--] = c` for the bytes of a list that is given last byte first; `w` is
`write_idx + 1`. -/
def storeBack (buf : σ) (w : Nat) : Bytes → Option σ
  | [] => some buf
  | c :: rev =>
    if w = 0 then none
    else do
      let buf ← Buffer.store buf (w - 1) [c]
      storeBack buf (w - 1) rev

/-- Second pass, backwards; the arguments are `read_idx + 1` and `write_idx + 1`. -/
def expand (buf : σ) : Nat → Nat → Option σ
  | 0, _ => some buf
  | r + 1, w => do
    let c ← Buffer.load buf r
    let buf ← storeBack buf w (expansion c).reverse
    expand buf r (w - (expansion c).length)

/-- `vprint` on the text that the format and its arguments produce (`none`: a format error). -/
def vprint (escaped : Bool) (text : Option Bytes) (buf : σ) : Option (σ × Nat) :=
  if Buffer.bad buf then some (buf, 0)
  else
    let (buf, span) := Buffer.getWriteSpan buf
    if span = 0 then some (Buffer.fail buf, 0)
    else
      match text with
      | none => some (Buffer.fail buf, 0)
      | some text => do
        let buf ← vsnprintf buf span text
        if text.length ≥ span then some (Buffer.fail buf, 0)
        else if escaped then do
          let e ← countExtra buf 0 text.length
          if e = 0 then do
            let buf ← Buffer.commit buf text.length
            some (buf, text.length)
          else if text.length + e > span then some (Buffer.fail buf, 0)
          else do
            let buf ← expand buf text.length (text.length + e)
            let buf ← Buffer.commit buf (text.length + e)
            some (buf, text.length + e)
        else do
          let buf ← Buffer.commit buf text.length
          some (buf, text.length)

end vprint

end Espbase.StackJson
