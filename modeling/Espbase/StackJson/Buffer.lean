import Espbase.Lib.JsonString

namespace Espbase.StackJson

open Espbase.Lib

/-- The virtual interface of `Buffer`. `none` is an access outside the storage: `getWriteSpan` returns
the size of the free span that starts at `head()`, `load` and `store` index that span, and `commit`
moves `head()` over it. -/
class Buffer (σ : Type) where
  write : σ → Bytes → Option (σ × Nat)
  getWriteSpan : σ → σ × Nat
  load : σ → Nat → Option UInt8
  store : σ → Nat → Bytes → Option σ
  commit : σ → Nat → Option σ
  length : σ → Nat
  bad : σ → Bool
  fail : σ → σ

section writeEscaped
variable {σ : Type} [Buffer σ]

def needsEscaping (c : UInt8) : Bool := c == ch '"' || c == ch '\\' || c ≤ 0x1f

/-- `snprintf` with the format `%04x`. -/
def hex4 (n : Nat) : Bytes :=
  [hexDigit (n / 4096 % 16), hexDigit (n / 256 % 16), hexDigit (n / 16 % 16), hexDigit (n % 16)]

/-- What `write_escaped` writes for a byte that needs escaping. -/
def escapeSequence (c : UInt8) : Bytes :=
  if c = ch '"' then bytes "\\\""
  else if c = ch '\\' then bytes "\\\\"
  else if c = 0x08 then bytes "\\b"
  else if c = 0x0c then bytes "\\f"
  else if c = 0x0a then bytes "\\n"
  else if c = 0x0d then bytes "\\r"
  else if c = 0x09 then bytes "\\t"
  else bytes "\\u" ++ hex4 c.toNat

/-- Sends the safe characters scanned so far, when there are any. -/
def flush (buf : σ) (run : Bytes) : Option (σ × Bool) :=
  if run = [] then some (buf, true)
  else do
    let (buf, n) ← Buffer.write buf run
    some (buf, n != 0)

/-- The scanning loop of `write_escaped`; `run` is the text from `start` to the current index. -/
def escapeLoop (buf : σ) (run : Bytes) : Bytes → Option (σ × Bool)
  | [] => flush buf run
  | c :: str =>
    if needsEscaping c then do
      let (buf, ok) ← flush buf run
      if ok then do
        let (buf, n) ← Buffer.write buf (escapeSequence c)
        if n = 0 then some (buf, false) else escapeLoop buf [] str
      else some (buf, false)
    else escapeLoop buf (run ++ [c]) str

/-- The part of `write_escaped` after the one-shot path. -/
def writeQuoted (buf : σ) (str : Bytes) (before : Nat) : Option (σ × Nat) := do
  let (buf, n) ← Buffer.write buf [ch '"']
  if n = 0 then some (buf, 0)
  else do
    let (buf, ok) ← escapeLoop buf [] str
    if ok then do
      let (buf, n) ← Buffer.write buf [ch '"']
      if n = 0 then some (buf, 0) else some (buf, Buffer.length buf - before)
    else some (buf, 0)

/-- The `memcpy` of the one-shot path, left out for an empty string. -/
def copyContent (buf : σ) (str : Bytes) : Option σ :=
  if str = [] then some buf else Buffer.store buf 1 str

/-- The one-shot path: quotes and content go straight into the write span. -/
def writeOneShot (buf : σ) (str : Bytes) : Option (σ × Nat) := do
  let total := str.length + 2
  let buf ← Buffer.store buf 0 [ch '"']
  let buf ← copyContent buf str
  let buf ← Buffer.store buf (total - 1) [ch '"']
  let buf ← Buffer.commit buf total
  some (buf, total)

def writeEscaped (buf : σ) (str : Bytes) : Option (σ × Nat) :=
  if Buffer.bad buf then some (buf, 0)
  else
    let before := Buffer.length buf
    if str.any needsEscaping then writeQuoted buf str before
    else
      let (buf, span) := Buffer.getWriteSpan buf
      if str.length + 2 ≤ span then writeOneShot buf str else writeQuoted buf str before

end writeEscaped

/-- `buffer_` has one cell more than `maxSize`, for the terminator of `c_str()`. -/
@[ext] structure StackBuffer (maxSize : Nat) where
  buffer : Bytes
  head : Nat
  bad : Bool
  size : buffer.length = maxSize + 1

namespace StackBuffer
variable {maxSize : Nat}

def empty (maxSize : Nat) : StackBuffer maxSize :=
  ⟨List.replicate (maxSize + 1) 0, 0, false, List.length_replicate⟩

/-- Copies `str` into the array at `pos`; `none` when it would leave the array. -/
def copyTo (b : StackBuffer maxSize) (pos : Nat) (str : Bytes) : Option (StackBuffer maxSize) :=
  if h : pos + str.length ≤ maxSize + 1 then
    some ⟨overwrite b.buffer pos str, b.head, b.bad,
      (overwrite_length _ _ _ (by rw [b.size]; exact h)).trans b.size⟩
  else none

def fail (b : StackBuffer maxSize) : StackBuffer maxSize := { b with bad := true }

def reset (b : StackBuffer maxSize) : StackBuffer maxSize := { b with bad := false, head := 0 }

def write (b : StackBuffer maxSize) (str : Bytes) : Option (StackBuffer maxSize × Nat) :=
  if b.head + str.length > maxSize then some (b.fail, 0)
  else do
    let b ← b.copyTo b.head str
    some ({ b with head := b.head + str.length }, str.length)

def view (b : StackBuffer maxSize) : Bytes := b.buffer.take b.head

/-- The terminator goes to the cell at `head_`. -/
def cStr (b : StackBuffer maxSize) : Option (StackBuffer maxSize) := b.copyTo b.head [0]

def getWriteSpan (b : StackBuffer maxSize) : Nat :=
  if b.head ≥ maxSize then 0 else maxSize - b.head

def load (b : StackBuffer maxSize) (i : Nat) : Option UInt8 :=
  if i < b.getWriteSpan then b.buffer[b.head + i]? else none

def store (b : StackBuffer maxSize) (i : Nat) (str : Bytes) : Option (StackBuffer maxSize) :=
  if i + str.length ≤ b.getWriteSpan then b.copyTo (b.head + i) str else none

/-- `head_ += count`, checked: `head_` must not pass the end of the span. -/
def commit (b : StackBuffer maxSize) (count : Nat) : Option (StackBuffer maxSize) :=
  if b.head + count ≤ maxSize then some { b with head := b.head + count } else none

instance : Buffer (StackBuffer maxSize) where
  write := write
  getWriteSpan b := (b, b.getWriteSpan)
  load := load
  store := store
  commit := commit
  length b := b.head
  bad := bad
  fail := fail

end StackBuffer

end Espbase.StackJson
