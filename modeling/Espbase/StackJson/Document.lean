import Espbase.StackJson.Buffer
import Espbase.StackJson.Path

namespace Espbase.StackJson

open Espbase.Lib

/-- The buffer together with the `emitted_` flags of the node objects, by object. -/
structure Emission (σ : Type) where
  buf : σ
  emitted : Nat → Bool

/-- What a node object holds beside its value; `id` is its identity. -/
structure NodeInfo where
  id : Nat
  omitted : Bool
  path : PathBase

/-- A node as the document sees it: its data and its virtual `emit_value`. -/
structure NodeBase (σ : Type) extends NodeInfo where
  emitValue : Emission σ → Option (Emission σ)

section emit
variable {σ : Type} [Buffer σ]

namespace Emission

def write (st : Emission σ) (str : Bytes) : Option (Emission σ × Bool) := do
  let (buf, n) ← Buffer.write st.buf str
  some ({ st with buf := buf }, n != 0)

def writeEscaped (st : Emission σ) (str : Bytes) : Option (Emission σ × Bool) := do
  let (buf, n) ← StackJson.writeEscaped st.buf str
  some ({ st with buf := buf }, n != 0)

def setEmitted (st : Emission σ) (id : Nat) (value : Bool) : Emission σ :=
  { st with emitted := fun i => if i = id then value else st.emitted i }

def onEmit (st : Emission σ) (id : Nat) : Emission σ := st.setEmitted id true

def reset (st : Emission σ) (id : Nat) : Emission σ := st.setEmitted id false

end Emission

/-- `if (!..) return false;` before the rest of the function. -/
def andThen (r : Option (Emission σ × Bool)) (k : Emission σ → Option (Emission σ × Bool)) :
    Option (Emission σ × Bool) := do
  let (st, ok) ← r
  if ok then k st else some (st, false)

def separator (first : Bool) (st : Emission σ) : Option (Emission σ × Bool) :=
  if first then some (st, true) else st.write [ch ',']

/-- The void call `n->emit_value(buffer)`. -/
def callEmitValue (n : NodeBase σ) (st : Emission σ) : Option (Emission σ × Bool) := do
  let st ← n.emitValue st
  some (st, true)

/-- The member of `n` in the object at depth `c`; `recurse` is the call of `emit_level` on the same
nodes. -/
def emitMember (recurse : PathBase → Emission σ → Option (Emission σ × Bool)) (c : Nat)
    (n : NodeBase σ) (first : Bool) (st : Emission σ) : Option (Emission σ × Bool) :=
  andThen (separator first st) fun st => do
    let key ← n.path.getElement c
    andThen (st.writeEscaped key) fun st =>
      andThen (st.write [ch ':']) fun st =>
        if n.path.depth = c + 1 then callEmitValue n st
        else
          andThen (st.write [ch '{']) fun st =>
            andThen (recurse (n.path.view (c + 1)) st) fun st => st.write [ch '}']

/-- The loop of `emit_level`. -/
def emitLoop (recurse : PathBase → Emission σ → Option (Emission σ × Bool))
    (currentPath : PathBase) :
    List (NodeBase σ) → Bool → Emission σ → Option (Emission σ × Bool)
  | [], _, st => some (st, true)
  | n :: nodes, first, st =>
    if st.emitted n.id || n.omitted then emitLoop recurse currentPath nodes first st
    else if currentPath.depth > 0 && !n.path.matchesParent currentPath then
      emitLoop recurse currentPath nodes first st
    else
      andThen (emitMember recurse currentPath.depth n first st) fun st =>
        emitLoop recurse currentPath nodes false st

/-- `emit_level`, with a bound on the depth of its recursion. -/
def emitLevel (nodes : List (NodeBase σ)) :
    Nat → PathBase → Emission σ → Option (Emission σ × Bool)
  | 0, _, _ => none
  | fuel + 1, currentPath, st => emitLoop (emitLevel nodes fuel) currentPath nodes true st

/-- The loop of the fast path; it does not look at the flags. -/
def flatLoop : List (NodeBase σ) → Bool → Emission σ → Option (Emission σ × Bool)
  | [], _, st => some (st, true)
  | n :: nodes, first, st =>
    if n.omitted then flatLoop nodes first st
    else
      andThen (separator first st) fun st => do
        let key ← n.path.getElement 0
        andThen (st.writeEscaped key) fun st =>
          andThen (st.write [ch ':']) fun st =>
            andThen (callEmitValue n st) fun st => flatLoop nodes false st

def maxDepth (nodes : List (NodeBase σ)) : Nat := (nodes.map fun n => n.path.depth).foldr max 0

def resetAll (nodes : List (NodeBase σ)) (st : Emission σ) : Emission σ :=
  nodes.foldl (fun st n => st.reset n.id) st

/-- The braces around the members that `inner` emits. -/
def emitBraced (inner : Emission σ → Option (Emission σ × Bool)) (st : Emission σ) :
    Option (Emission σ × Bool) :=
  andThen (st.write [ch '{']) fun st => andThen (inner st) fun st => st.write [ch '}']

/-- `return buffer.length() - before`, or 0 after a failed write. -/
def written (before : Nat) (r : Option (Emission σ × Bool)) : Option (Emission σ × Nat) := do
  let (st, ok) ← r
  some (st, if ok then Buffer.length st.buf - before else 0)

def emitJsonNodes (nodes : List (NodeBase σ)) (st : Emission σ) : Option (Emission σ × Nat) :=
  let before := Buffer.length st.buf
  if nodes.isEmpty then do
    let (buf, n) ← Buffer.write st.buf [ch '{', ch '}']
    some ({ st with buf := buf }, n)
  else if nodes.any fun n => n.path.depth > 1 then
    written before
      (emitBraced (emitLevel nodes (maxDepth nodes) []) (resetAll nodes st))
  else written before (emitBraced (flatLoop nodes true) st)

end emit

end Espbase.StackJson
