import Espbase.StackJson.Number
import Espbase.Lib.Loop

namespace Espbase.StackJson

open Espbase.Lib

section decode
variable (input : Bytes) (outSize : Nat)

/-- `out_buffer[out_idx++] = c`, where `out` is what has been written so far. -/
def putOut (out : Bytes) (c : UInt8) : Option Bytes :=
  if out.length < outSize then some (out ++ [c]) else none

def putAll (out : Bytes) : Bytes → Option Bytes
  | [] => some out
  | c :: cs => do
    let out ← putOut outSize out c
    putAll out cs

/-- What `\` and the given character stand for, `\u` apart. -/
def unescaped (c : UInt8) : UInt8 :=
  if c = ch '"' then ch '"'
  else if c = ch '\\' then ch '\\'
  else if c = ch 'n' then 0x0a
  else if c = ch 'r' then 0x0d
  else if c = ch 't' then 0x09
  else if c = ch 'b' then 0x08
  else if c = ch 'f' then 0x0c
  else c

def hexValue (hc : UInt8) : Option Nat :=
  if ch '0' ≤ hc ∧ hc ≤ ch '9' then some (hc.toNat - 48)
  else if ch 'a' ≤ hc ∧ hc ≤ ch 'f' then some (hc.toNat - 97 + 10)
  else if ch 'A' ≤ hc ∧ hc ≤ ch 'F' then some (hc.toNat - 65 + 10)
  else none

/-- The loop over the hex digits `input[i + j]`: the 16-bit code point, or nothing when one of them is
no hex digit. The first argument is the number of digits still to be read. -/
def hexLoop (i : Nat) : Nat → Nat → Nat → Option (Option Nat)
  | 0, _, codepoint => some (some codepoint)
  | n + 1, j, codepoint => do
    let hc ← input[i + j]?
    match hexValue hc with
    | some d => hexLoop i n (j + 1) (codepoint * 16 % 65536 + d)
    | none => some none

/-- The UTF-8 bytes of a 16-bit code point. -/
def codepointBytes (codepoint : Nat) : Bytes :=
  if codepoint ≤ 0x7f then [codepoint.toUInt8]
  else if codepoint ≤ 0x07ff then
    [(0xc0 ||| (codepoint >>> 6 &&& 0x1f)).toUInt8, (0x80 ||| (codepoint &&& 0x3f)).toUInt8]
  else
    [(0xe0 ||| (codepoint >>> 12 &&& 0x0f)).toUInt8, (0x80 ||| (codepoint >>> 6 &&& 0x3f)).toUInt8,
      (0x80 ||| (codepoint &&& 0x3f)).toUInt8]

/-- A code point that does not fit whole is left out. -/
def putCodepoint (out : Bytes) (codepoint : Nat) : Option Bytes :=
  let bs := codepointBytes codepoint
  if out.length + (bs.length - 1) < outSize then putAll outSize out bs else some out

/-- `\u` at `input[i - 1]` and `input[i]`: the next index and the output. -/
def putUnicode (i : Nat) (out : Bytes) : Option (Nat × Bytes) :=
  if i + 4 < input.length then do
    match ← hexLoop input i 4 1 0 with
    | some codepoint => do
      let out ← putCodepoint outSize out codepoint
      some (i + 5, out)
    | none => do
      let out ← putOut outSize out (ch 'u')
      some (i + 1, out)
  else do
    let out ← putOut outSize out (ch 'u')
    some (i + 1, out)

/-- The loop body of `decode_json_string`, on the index and the output so far. -/
def decodeTurn (st : Nat × Bytes) : Option (Turn (Nat × Bytes) Bytes) :=
  let (i, out) := st
  if i < input.length ∧ out.length < outSize then do
    let c ← input[i]?
    if c = ch '\\' ∧ i + 1 < input.length then do
      let d ← input[i + 1]?
      if d = ch 'u' then do
        let st ← putUnicode input outSize (i + 1) out
        some (.next st)
      else do
        let out ← putOut outSize out (unescaped d)
        some (.next (i + 2, out))
    else do
      let out ← putOut outSize out c
      some (.next (i + 1, out))
  else some (.done out)

/-- The bytes that `decode_json_string` writes into an output span of `outSize` cells. -/
def decodeJsonString : Option Bytes := iterate (decodeTurn input outSize) (input.length + 1) (0, [])

end decode

/-- `std::from_chars` on the floating-point types: the bits it leaves in a target. -/
class FloatChars where
  float : Bytes → UInt32 → UInt32
  double : Bytes → UInt64 → UInt64

/-- The object that a node is bound to. -/
inductive Target where
  | bool (value : Bool)
  | int (value : Integer)
  | float (bits : UInt32)
  | double (bits : UInt64)
  | view (value : Bytes)
  | span (value : Bytes)
  | string (value : Bytes)

/-- An integer target takes a value of its range only. -/
def Integer.set (n : Integer) (v : Int) : Integer :=
  if h : n.type.min ≤ v ∧ v ≤ n.type.max then ⟨n.type, v, h.1, h.2⟩ else n

/-- `std::from_chars` on an integer: an optional minus sign for the signed types, then digits; the
target keeps its value when there are none or the number is out of range. -/
def fromChars (raw : Bytes) (target : Integer) : Integer :=
  let neg := target.type.signed && raw.head? == some (ch '-')
  let digits := (if neg then raw.tail else raw).takeWhile fun c => IsDigit c
  if digits = [] then target
  else target.set (if neg then -(ofDecimal 0 digits : Int) else ofDecimal 0 digits)

def coerceInt (raw : Bytes) (isNull : Bool) (target : Integer) : Integer :=
  if isNull then target.set 0 else fromChars raw target

def coerceBool (raw : Bytes) (isNull : Bool) : Bool :=
  if isNull then false else raw == bytes "true" || raw == bytes "1"

variable [FloatChars]

def coerceValue (raw : Bytes) (isNull : Bool) : Target → Option Target
  | .bool _ => some (.bool (coerceBool raw isNull))
  | .int target => some (.int (coerceInt raw isNull target))
  | .float bits => some (.float (if isNull then 0 else FloatChars.float raw bits))
  | .double bits => some (.double (if isNull then 0 else FloatChars.double raw bits))
  | .view _ => some (.view (if isNull then [] else raw))
  | .span target =>
    if isNull then some (.span [])
    else do
      let decoded ← decodeJsonString raw target.length
      some (.span decoded)
  | .string _ =>
    if isNull then some (.string [])
    else do
      let decoded ← decodeJsonString raw raw.length
      some (.string decoded)

end Espbase.StackJson
