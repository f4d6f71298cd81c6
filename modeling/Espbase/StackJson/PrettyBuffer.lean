import Espbase.StackJson.Buffer

namespace Espbase.StackJson

open Espbase.Lib

/-- The decorator. The span of the buffer behind it is its own, its failure flag is not. -/
structure PrettyBuffer (σ : Type) where
  dest : σ
  indentSize : UInt8
  depth : UInt8
  inString : Bool
  escapeNext : Bool
  bad : Bool

namespace PrettyBuffer

def new {σ : Type} (dest : σ) (indentSize : UInt8) : PrettyBuffer σ :=
  ⟨dest, indentSize, 0, false, false, false⟩

section write
variable {σ : Type} [Buffer σ]

/-- A write to the buffer behind it whose result is not looked at. -/
def put (pb : PrettyBuffer σ) (str : Bytes) : Option (PrettyBuffer σ) := do
  let (dest, _) ← Buffer.write pb.dest str
  some { pb with dest := dest }

/-- The loop of `write_indent`; the counter is one byte wide, so that it never reaches a larger
`count`. The last argument bounds the number of passes. -/
def indentLoop (pb : PrettyBuffer σ) (count : Nat) (i : UInt8) : Nat → Option (PrettyBuffer σ)
  | 0 => none
  | fuel + 1 =>
    if i.toNat < count then do
      let pb ← pb.put [ch ' ']
      indentLoop pb count (i + 1) fuel
    else some pb

def writeIndent (pb : PrettyBuffer σ) : Option (PrettyBuffer σ) :=
  indentLoop pb (pb.depth.toNat * pb.indentSize.toNat) 0 256

/-- The state after a byte inside a string. -/
def scanString (pb : PrettyBuffer σ) (c : UInt8) : PrettyBuffer σ :=
  if pb.escapeNext then { pb with escapeNext := false }
  else if c = ch '\\' then { pb with escapeNext := true }
  else if c = ch '"' then { pb with inString := false }
  else pb

def isStructural (c : UInt8) : Bool :=
  c == ch '{' || c == ch '[' || c == ch '}' || c == ch ']' || c == ch ',' || c == ch ':' || c == ch '"'

/-- What is done with a structural character. -/
def format (pb : PrettyBuffer σ) (c : UInt8) : Option (PrettyBuffer σ) :=
  if c = ch '"' then { pb with inString := true }.put [ch '"']
  else if c = ch '{' ∨ c = ch '[' then do
    let pb ← pb.put [if c = ch '{' then ch '{' else ch '[', 0x0a]
    { pb with depth := pb.depth + 1 }.writeIndent
  else if c = ch '}' ∨ c = ch ']' then do
    let pb ← pb.put [0x0a]
    let pb ← { pb with depth := if pb.depth > 0 then pb.depth - 1 else pb.depth }.writeIndent
    pb.put [if c = ch '}' then ch '}' else ch ']']
  else if c = ch ',' then do
    let pb ← pb.put [ch ',', 0x0a]
    pb.writeIndent
  else if c = ch ':' then pb.put [ch ':', ch ' ']
  else some pb

/-- Sends the characters from `start` on, when there are any. -/
def flushRun (pb : PrettyBuffer σ) (run : Bytes) : Option (PrettyBuffer σ × Bool) := do
  let (dest, ok) ← flush pb.dest run
  some ({ pb with dest := dest }, ok)

/-- The scanning loop of `write`; `run` is the text from `start` to the current index. -/
def writeLoop (pb : PrettyBuffer σ) (run : Bytes) : Bytes → Option (PrettyBuffer σ × Bool)
  | [] => pb.flushRun run
  | c :: str =>
    if pb.inString then writeLoop (pb.scanString c) (run ++ [c]) str
    else if isStructural c then do
      let (pb, ok) ← pb.flushRun run
      if ok then do
        let pb ← pb.format c
        writeLoop pb [] str
      else some (pb, false)
    else writeLoop pb (run ++ [c]) str

def write (pb : PrettyBuffer σ) (str : Bytes) : Option (PrettyBuffer σ × Nat) := do
  let before := Buffer.length pb.dest
  let (pb, ok) ← pb.writeLoop [] str
  some (pb, if ok then Buffer.length pb.dest - before else 0)

instance : Buffer (PrettyBuffer σ) where
  write := write
  getWriteSpan pb :=
    let (dest, span) := Buffer.getWriteSpan pb.dest
    ({ pb with dest := dest }, span)
  load pb := Buffer.load pb.dest
  store pb i str := (Buffer.store pb.dest i str).map fun dest => { pb with dest := dest }
  commit pb count := (Buffer.commit pb.dest count).map fun dest => { pb with dest := dest }
  length pb := Buffer.length pb.dest
  bad := bad
  fail pb := { pb with bad := true }

end write

end PrettyBuffer

end Espbase.StackJson
