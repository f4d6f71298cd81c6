import Espbase.StackJson.Coerce
import Espbase.StackJson.Path
import Mathlib.Data.Nat.PSub

namespace Espbase.StackJson

open Espbase.Lib

def isJsonWhitespace (c : UInt8) : Bool := c == ch ' ' || c == 0x0a || c == 0x0d || c == 0x09

def isPrimitiveDelim (c : UInt8) : Bool :=
  isJsonWhitespace c || c == ch ',' || c == ch '}' || c == ch ']' || c == ch '{' || c == ch '['

section scan
variable (json : Bytes)

/-- Turns that every scanning loop can afford: an index below the size grows in each of them. -/
def scanFuel : Nat := json.length + 1

/-- `json.substr(pos, count)`, which throws when `pos` lies past the end. -/
def substr (pos count : Nat) : Option Bytes :=
  if pos ≤ json.length then some ((json.drop pos).take count) else none

/-- `while (i < json.size() && json[i] != '\n') i++` -/
def lineTurn (i : Nat) : Option (Turn Nat Nat) :=
  if i < json.length then do
    let c ← json[i]?
    some (if c = 0x0a then .done i else .next (i + 1))
  else some (.done i)

/-- `while (i + 1 < json.size() && !(json[i] == '*' && json[i + 1] == '/')) i++` -/
def commentTurn (i : Nat) : Option (Turn Nat Nat) :=
  if i + 1 < json.length then do
    let c ← json[i]?
    if c = ch '*' then do
      let d ← json[i + 1]?
      some (if d = ch '/' then .done i else .next (i + 1))
    else some (.next (i + 1))
  else some (.done i)

def skipTurn (i : Nat) : Option (Turn Nat Nat) :=
  if i < json.length then do
    let c ← json[i]?
    if isJsonWhitespace c then some (.next (i + 1))
    else if c = ch '/' ∧ i + 1 < json.length then do
      let d ← json[i + 1]?
      if d = ch '/' then do
        let i ← iterate (lineTurn json) (scanFuel json) (i + 2)
        some (.next i)
      else if d = ch '*' then do
        let i ← iterate (commentTurn json) (scanFuel json) (i + 2)
        some (.next (i + 2))
      else some (.done i)
    else some (.done i)
  else some (.done i)

def skipWsAndComments (i : Nat) : Option Nat := iterate (skipTurn json) (scanFuel json) i

/-- `while (i < json.size() && json[i] != '"') { if (json[i] == '\\') i++; i++; }` -/
def stringTurn (i : Nat) : Option (Turn Nat Nat) :=
  if i < json.length then do
    let c ← json[i]?
    some (if c = ch '"' then .done i else if c = ch '\\' then .next (i + 2) else .next (i + 1))
  else some (.done i)

/-- `while (i < json.size() && !is_primitive_delim(json[i])) i++` -/
def primitiveTurn (i : Nat) : Option (Turn Nat Nat) :=
  if i < json.length then do
    let c ← json[i]?
    some (if isPrimitiveDelim c then .done i else .next (i + 1))
  else some (.done i)

/-- The variables of the loop that looks for the end of a block. -/
structure BlockScan where
  endPos : Nat
  braceDepth : Int
  inStr : Bool

def blockTurn (s : BlockScan) : Option (Turn BlockScan Nat) :=
  if s.endPos < json.length then do
    let ec ← json[s.endPos]?
    some <|
      if s.inStr then
        if ec = ch '\\' then .next { s with endPos := s.endPos + 2 }
        else .next { s with endPos := s.endPos + 1, inStr := ec != ch '"' }
      else if ec = ch '"' then .next { s with endPos := s.endPos + 1, inStr := true }
      else if ec = ch '{' ∨ ec = ch '[' then
        .next { s with endPos := s.endPos + 1, braceDepth := s.braceDepth + 1 }
      else if ec = ch '}' ∨ ec = ch ']' then
        if s.braceDepth - 1 = 0 then .done (s.endPos + 1)
        else .next { s with endPos := s.endPos + 1, braceDepth := s.braceDepth - 1 }
      else .next { s with endPos := s.endPos + 1 }
  else some (.done s.endPos)

/-- The block that starts at `i`. -/
def scanBlock (i : Nat) : Option Bytes := do
  let endPos ← iterate (blockTurn json) (scanFuel json) ⟨i, 0, false⟩
  substr json i (endPos - i)

end scan

/-- The members of `DynamicNodeBase`. -/
structure DynamicNodeBase where
  rawVal : Bytes
  isString : Bool
  iterState : Bytes
  iterStarted : Bool

/-- A call of the callback of an `UnknownBindNode`: the path and the value it can see. -/
structure UnknownCall where
  actualPath : PathBase
  rawVal : Bytes
  isString : Bool
  isNull : Bool

inductive NodeKind where
  | bind (target : Target)
  | dynamic (data : DynamicNodeBase)
  | unknown (data : DynamicNodeBase) (calls : List UnknownCall)

structure ParseNode where
  path : PathBase
  isSet : Bool
  isNull : Bool
  kind : NodeKind

namespace ParseNode

def isCatchAll (n : ParseNode) : Bool :=
  match n.kind with
  | .unknown _ _ => true
  | _ => false

def reset (n : ParseNode) : ParseNode := { n with isSet := false, isNull := false }

variable [FloatChars]

def assign (actualPath : PathBase) (rawVal : Bytes) (isString isNull : Bool) (n : ParseNode) :
    Option ParseNode :=
  let data : DynamicNodeBase := ⟨rawVal, isString, rawVal, false⟩
  match n.kind with
  | .bind target => do
    let target ← coerceValue rawVal isNull target
    some { n with isSet := true, isNull := isNull, kind := .bind target }
  | .dynamic _ => some { n with isSet := true, isNull := isNull, kind := .dynamic data }
  | .unknown _ calls =>
    some { n with
      isSet := true, isNull := isNull,
      kind := .unknown data (calls ++ [⟨actualPath, rawVal, isString, isNull⟩]) }

end ParseNode

/-- The local variables of `parse_json_nodes`. -/
structure ParseState where
  i : Nat
  depth : Nat
  currentKey : Bytes
  pathStack : List Bytes
  nodes : List ParseNode

section parse
variable [FloatChars] (json : Bytes)

/-- Whether the loops over the nodes take this node for the path. -/
def bound (currentPath : PathBase) (n : ParseNode) : Bool :=
  !n.isCatchAll && n.path.matchesParent currentPath

/-- `path_stack[depth] = current_key` -/
def ParseState.storeKey (st : ParseState) : Option ParseState :=
  if st.depth < st.pathStack.length then
    some { st with pathStack := st.pathStack.set st.depth st.currentKey }
  else none

def ParseState.currentPath (st : ParseState) : PathBase := st.pathStack.take (st.depth + 1)

/-- The assignment through a node pointer, given by its position. -/
def assignAt (nodes : List ParseNode) (k : Nat) (actualPath : PathBase) (raw : Bytes)
    (isString isNull : Bool) : Option (List ParseNode) := do
  let n ← nodes[k]?
  let n ← n.assign actualPath raw isString isNull
  some (nodes.set k n)

/-- The last catch-all node, when there is a key. -/
def lastCatchAll (key : Bytes) : List ParseNode → Nat → Option Nat → Option Nat
  | [], _, catchAll => catchAll
  | n :: nodes, k, catchAll =>
    lastCatchAll key nodes (k + 1) (if n.isCatchAll && key ≠ [] then some k else catchAll)

/-- The loop of the scalar branches: the first node that the path matches, else a catch-all. -/
def findNode (key : Bytes) (currentPath : PathBase) :
    List ParseNode → Nat → Option Nat → Option Nat
  | [], _, catchAll => catchAll
  | n :: nodes, k, catchAll =>
    if n.isCatchAll then
      findNode key currentPath nodes (k + 1) (if key ≠ [] then some k else catchAll)
    else if n.path.matchesParent currentPath then some k
    else findNode key currentPath nodes (k + 1) catchAll

def assignBound (currentPath : PathBase) (block : Bytes) :
    List ParseNode → Option (List ParseNode)
  | [] => some []
  | n :: nodes => do
    let n' ← if bound currentPath n then n.assign currentPath block false false else some n
    let nodes' ← assignBound currentPath block nodes
    some (n' :: nodes')

def captureStructuralValue (st : ParseState) : Option ParseState :=
  if st.depth ≥ st.pathStack.length then some st
  else do
    let st ← st.storeKey
    let needsCapture := st.nodes.any (bound st.currentPath)
    let catchAll := lastCatchAll st.currentKey st.nodes 0 none
    if !needsCapture && catchAll.isNone then some st
    else do
      let block ← scanBlock json st.i
      if needsCapture then do
        let nodes ← assignBound st.currentPath block st.nodes
        some { st with nodes := nodes }
      else
        match catchAll with
        | none => some st
        | some k => do
          let nodes ← assignAt st.nodes k st.currentPath block false false
          some { st with nodes := nodes }

/-- The common part of the string and primitive branches: evaluates the bindings, then clears the
key. -/
def evaluateScalar (val : Bytes) (isString : Bool) (st : ParseState) : Option ParseState :=
  if st.depth < st.pathStack.length then do
    let isNull := !isString && val == bytes "null"
    let st ← st.storeKey
    match findNode st.currentKey st.currentPath st.nodes 0 none with
    | none => some { st with currentKey := [] }
    | some k => do
      let nodes ← assignAt st.nodes k st.currentPath val isString isNull
      some { st with nodes := nodes, currentKey := [] }
  else some { st with currentKey := [] }

def openObject (st : ParseState) : Option ParseState := do
  let st ← captureStructuralValue json st
  if st.currentKey ≠ [] then do
    let st' ← if st.depth < st.pathStack.length then st.storeKey else some st
    some { st' with depth := st.depth + 1, currentKey := [], i := st.i + 1 }
  else some { st with i := st.i + 1 }

def openArray (st : ParseState) : Option ParseState := do
  let st ← captureStructuralValue json st
  some { st with currentKey := [], i := st.i + 1 }

def closeObject (st : ParseState) : Option ParseState := do
  let depth ← if st.depth > 0 then st.depth.ppred else some st.depth
  some { st with depth := depth, i := st.i + 1 }

/-- Whether there is a colon at `i`. -/
def colonAt (i : Nat) : Option Bool :=
  if i < json.length then do
    let c ← json[i]?
    some (c == ch ':')
  else some false

/-- A string is a key when a colon follows, at once or after a gap, else a value. -/
def parseString (st : ParseState) : Option ParseState := do
  let start := st.i + 1
  let i ← iterate (stringTurn json) (scanFuel json) start
  let strVal ← substr json start (i - start)
  let i := if i < json.length then i + 1 else i
  let key ← colonAt json i
  if key then some { st with currentKey := strVal, i := i + 1 }
  else do
    let i ← skipWsAndComments json i
    let key ← colonAt json i
    if key then some { st with currentKey := strVal, i := i + 1 }
    else evaluateScalar strVal true { st with i := i }

def parsePrimitive (st : ParseState) : Option ParseState := do
  let i ← iterate (primitiveTurn json) (scanFuel json) st.i
  let primVal ← substr json st.i (i - st.i)
  evaluateScalar primVal false { st with i := i }

/-- The branches of the main loop on the character at `i`. -/
def parseToken (c : UInt8) (st : ParseState) : Option ParseState :=
  if c = ch '{' then openObject json st
  else if c = ch '[' then openArray json st
  else if c = ch '}' then closeObject st
  else if c = ch ',' ∨ c = ch ':' ∨ c = ch ']' then some { st with i := st.i + 1 }
  else if c = ch '"' then parseString json st
  else parsePrimitive json st

def parseTurn (st : ParseState) : Option (Turn ParseState ParseState) :=
  if st.i < json.length then do
    let i ← skipWsAndComments json st.i
    if i ≥ json.length then some (.done { st with i := i })
    else do
      let c ← json[i]?
      let st ← parseToken json c { st with i := i }
      some (.next st)
  else some (.done st)

/-- `parse_json_nodes` with its final local state. -/
def parseJsonNodes (nodes : List ParseNode) (pathStack : List Bytes) : Option ParseState :=
  iterate (parseTurn json) (scanFuel json) ⟨0, 0, [], pathStack, nodes.map ParseNode.reset⟩

/-- The depth of the path stack of a `Parser` with these nodes. -/
def maxStaticDepth (nodes : List ParseNode) : Nat :=
  (nodes.map fun n => if n.isCatchAll then 0 else n.path.depth).foldr max 1

/-- `Parser::parse`: the nodes it leaves. -/
def parse (nodes : List ParseNode) : Option (List ParseNode) := do
  let st ← parseJsonNodes json nodes (List.replicate (maxStaticDepth nodes) [])
  some st.nodes

end parse

end Espbase.StackJson
