import Espbase.StackJson.Document
import Espbase.StackJson.Number
import Espbase.StackJson.Printer

namespace Espbase.StackJson

open Espbase.Lib

/-- The values that a node or an array element can hold. A `cstr` is null or the bytes it points to;
a stream calls `emit` for its elements, and `breaks` tells whether it stops once `emit` is false;
a print callback prints the given texts. A `float` or a `double`, which `printx` prints with `"%g"`,
is no value here. -/
inductive Value where
  | null
  | bool (value : Bool)
  | int (value : Integer)
  | str (value : Bytes)
  | cstr (value : Option Bytes)
  | stackArray (elements : List Value)
  | spanArray (elements : List Value)
  | streamArray (breaks : Bool) (elements : List Value)
  | print (texts : List Bytes)
  | doc (nodes : List (NodeInfo × Value))

/-- The `string_view` of a C string. -/
def cString (s : Bytes) : Bytes := s.takeWhile (· ≠ 0)

section emit
variable {σ : Type} [Buffer σ]

/-- A write whose result is not looked at. -/
def Emission.put (st : Emission σ) (str : Bytes) : Option (Emission σ) := do
  let (st, _) ← st.write str
  some st

def Emission.putEscaped (st : Emission σ) (str : Bytes) : Option (Emission σ) := do
  let (st, _) ← st.writeEscaped str
  some st

def Emission.putInteger (st : Emission σ) (n : Integer) : Option (Emission σ) := do
  let buf ← writeInteger st.buf n
  some { st with buf := buf }

def putSeparator (first : Bool) (st : Emission σ) : Option (Emission σ) :=
  if first then some st else st.put [ch ',']

/-- `ArrayEmitter::emit` of a value that `write` writes: the new state, `first_` and the result. -/
def emitElement (write : Emission σ → Option (Emission σ)) (first : Bool) (st : Emission σ) :
    Option (Emission σ × Bool × Bool) :=
  if Buffer.bad st.buf then some (st, first, false)
  else do
    let (st, ok) ← separator first st
    if ok then do
      let st ← write st
      some (st, false, !Buffer.bad st.buf)
    else some (st, false, false)

def printLoop : List Bytes → Emission σ → Option (Emission σ)
  | [], st => some st
  | text :: texts, st => do
    let (buf, _) ← vprint true (some text) st.buf
    printLoop texts { st with buf := buf }

mutual
def writeJsonValue : Value → Emission σ → Option (Emission σ)
  | .null, st => st.put (bytes "null")
  | .bool value, st => st.put (if value then bytes "true" else bytes "false")
  | .int value, st => st.putInteger value
  | .str value, st => st.putEscaped value
  | .cstr none, st => st.put (bytes "null")
  | .cstr (some value), st => st.putEscaped (cString value)
  | .stackArray elements, st => do
    let st ← st.put [ch '[']
    let st ← elementLoop elements true st
    st.put [ch ']']
  | .spanArray elements, st => do
    let st ← st.put [ch '[']
    let st ← elementLoop elements true st
    st.put [ch ']']
  | .streamArray breaks elements, st => do
    let st ← st.put [ch '[']
    let st ← streamLoop breaks elements true st
    st.put [ch ']']
  | .print texts, st => do
    let st ← st.put [ch '"']
    let st ← printLoop texts st
    st.put [ch '"']
  | .doc nodes, st => do
    let (st, _) ← emitJsonNodes (valueNodes nodes) st
    some st

/-- The fold over the elements of a tuple or a span. -/
def elementLoop : List Value → Bool → Emission σ → Option (Emission σ)
  | [], _, st => some st
  | v :: elements, first, st => do
    let st ← putSeparator first st
    let st ← writeJsonValue v st
    elementLoop elements false st

/-- The calls of `ArrayEmitter::emit` that a callback makes. -/
def streamLoop (breaks : Bool) : List Value → Bool → Emission σ → Option (Emission σ)
  | [], _, st => some st
  | v :: elements, first, st => do
    let (st, first, ok) ← emitElement (fun st => writeJsonValue v st) first st
    if breaks && !ok then some st else streamLoop breaks elements first st

/-- The `ValueNode` objects of a document. -/
def valueNodes : List (NodeInfo × Value) → List (NodeBase σ)
  | [] => []
  | (n, v) :: nodes =>
    ⟨n, fun st => do
      let st ← writeJsonValue v st
      some (st.onEmit n.id)⟩ :: valueNodes nodes
end

/-- `emit` of the document or builder with these nodes. -/
def emitDocument (nodes : List (NodeInfo × Value)) (st : Emission σ) :
    Option (Emission σ × Nat) := emitJsonNodes (valueNodes nodes) st

end emit

end Espbase.StackJson
