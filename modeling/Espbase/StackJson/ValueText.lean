import Espbase.StackJson.Value
import Espbase.StackJson.Emits
import Espbase.Lib.CompactJson

namespace Espbase.StackJson

open Espbase.Lib

/-- The entries of the non-omitted nodes, with `f` of their values. -/
def shown {α β : Type} (f : α → β) (nodes : List (NodeInfo × α)) : List (List Bytes × β) :=
  (nodes.filter fun n => !n.1.omitted).map fun n => (n.1.path, f n.2)

mutual
/-- Compact JSON text of a value. -/
def Value.text : Value → Bytes
  | .null => bytes "null"
  | .bool value => if value then bytes "true" else bytes "false"
  | .int value => signedDecimal value.val
  | .str value => stringLiteral value
  | .cstr none => bytes "null"
  | .cstr (some value) => stringLiteral (cString value)
  | .stackArray elements => arrayText (elementTexts elements)
  | .spanArray elements => arrayText (elementTexts elements)
  | .streamArray _ elements => arrayText (elementTexts elements)
  | .print texts => stringLiteral texts.flatten
  | .doc nodes => objectText (KeyTree.build (shown id (nodeTexts nodes)))

def elementTexts : List Value → List Bytes
  | [] => []
  | v :: elements => v.text :: elementTexts elements

def nodeTexts : List (NodeInfo × Value) → List (NodeInfo × Bytes)
  | [] => []
  | (n, v) :: nodes => (n, v.text) :: nodeTexts nodes
end

/-- Compact JSON text of the document with these nodes. -/
def documentText (nodes : List (NodeInfo × Value)) : Bytes := (Value.doc nodes).text

/-- The writes of a list of elements, with commas between them. -/
def separated : Bool → List (List Bytes) → List Bytes
  | _, [] => []
  | first, ws :: rest => (if first then [] else [[ch ',']]) ++ (ws ++ separated false rest)

def arrayChunks (elements : List (List Bytes)) : List Bytes :=
  [[ch '[']] ++ (separated true elements ++ [[ch ']']])

/-- The writes of an object; the empty one is a single write. -/
def objectItems (nodes : List (NodeInfo × List Bytes)) : List (Item (List Bytes)) :=
  treeItems (.node (KeyTree.build (shown id nodes)))

def objectChunks (nodes : List (NodeInfo × List Bytes)) : List Bytes :=
  if nodes.isEmpty then [[ch '{', ch '}']] else itemChunks (objectItems nodes)

mutual
/-- The writes that a value is made of, in order. -/
def Value.chunks : Value → List Bytes
  | .null => [bytes "null"]
  | .bool value => [if value then bytes "true" else bytes "false"]
  | .int value => [signedDecimal value.val]
  | .str value => stringChunks value
  | .cstr none => [bytes "null"]
  | .cstr (some value) => stringChunks (cString value)
  | .stackArray elements => arrayChunks (elementChunks elements)
  | .spanArray elements => arrayChunks (elementChunks elements)
  | .streamArray _ elements => arrayChunks (elementChunks elements)
  | .print texts => [[ch '"']] ++ (texts.map escape ++ [[ch '"']])
  | .doc nodes => objectChunks (nodeChunks nodes)

def elementChunks : List Value → List (List Bytes)
  | [] => []
  | v :: elements => v.chunks :: elementChunks elements

def nodeChunks : List (NodeInfo × Value) → List (NodeInfo × List Bytes)
  | [] => []
  | (n, v) :: nodes => (n, v.chunks) :: nodeChunks nodes
end

/-- The writes of a document, in order. -/
def documentChunks (nodes : List (NodeInfo × Value)) : List Bytes := (Value.doc nodes).chunks

theorem separated_flatten (first : Bool) (elements : List (List Bytes)) :
    (separated first elements).flatten =
      if first then commaSep (elements.map List.flatten)
      else (elements.map List.flatten).flatMap fun w => ch ',' :: w := by
  induction elements generalizing first with
  | nil => cases first <;> rfl
  | cons ws rest ih =>
    cases first with
    | false => simp [separated, ih false]
    | true => simp [separated, ih false, commaSep_cons]

theorem arrayChunks_flatten (elements : List (List Bytes)) :
    (arrayChunks elements).flatten = arrayText (elements.map List.flatten) := by
  simp [arrayChunks, arrayText, separated_flatten]

theorem itemChunks_append (as bs : List (Item (List Bytes))) :
    itemChunks (as ++ bs) = itemChunks as ++ itemChunks bs := by
  simp [itemChunks]

theorem itemChunks_sepItems (first : Bool) :
    itemChunks (sepItems first) = if first then [] else [[ch ',']] := by
  cases first <;> rfl

mutual
/-- The items of a tree spell its compact text. -/
theorem treeItems_flatten : (t : KeyTree Bytes (List Bytes)) →
    (itemChunks (treeItems t)).flatten = treeText (t.map List.flatten)
  | .leaf ws => by simp [treeItems, itemChunks, Item.chunks, KeyTree.map, treeText]
  | .node ms => by
    have h := memberItems_flatten true ms
    rw [if_pos rfl] at h
    simp only [treeItems, KeyTree.map, treeText, itemChunks, List.flatMap_cons, List.flatMap_append,
      Item.chunks, List.flatMap_nil, List.flatten_append] at h ⊢
    rw [h]
    simp

theorem memberItems_flatten (first : Bool) : (ms : List (Bytes × KeyTree Bytes (List Bytes))) →
    (itemChunks (memberItems first ms)).flatten =
      if first then commaSep (memberTexts (KeyTree.mapOf List.flatten ms))
      else (memberTexts (KeyTree.mapOf List.flatten ms)).flatMap fun w => ch ',' :: w
  | [] => by cases first <;> rfl
  | (k, t) :: ms => by
    have ht := treeItems_flatten t
    have hms := memberItems_flatten false ms
    rw [if_neg (by simp)] at hms
    have hone : (itemChunks (.key k :: .punct (ch ':') ::
        (treeItems t ++ memberItems false ms))).flatten =
        (stringLiteral k ++ ch ':' :: treeText (t.map List.flatten)) ++
          (memberTexts (KeyTree.mapOf List.flatten ms)).flatMap fun w => ch ',' :: w := by
      rw [← ht, ← hms]
      simp [itemChunks, Item.chunks, stringChunks_flatten]
    rw [memberItems, itemChunks_append, itemChunks_sepItems, List.flatten_append, hone]
    cases first with
    | false => simp [KeyTree.mapOf, memberTexts]
    | true => simp [KeyTree.mapOf, memberTexts, commaSep_cons]
end

theorem objectChunks_flatten (nodes : List (NodeInfo × List Bytes)) :
    (objectChunks nodes).flatten =
      objectText (KeyTree.build (shown id (nodes.map fun p => (p.1, p.2.flatten)))) := by
  unfold objectChunks
  split_ifs with h
  · rw [List.isEmpty_iff.mp h]
    rfl
  · have hshown : shown id (nodes.map fun p => (p.1, p.2.flatten)) =
        (shown id nodes).map fun e => (e.1, e.2.flatten) := by
      simp only [shown, List.filter_map, List.map_map]
      rfl
    rw [objectItems, treeItems_flatten, objectText, hshown, KeyTree.build_map]
    rfl

theorem printChunks_flatten (texts : List Bytes) :
    ([[ch '"']] ++ (texts.map escape ++ [[ch '"']])).flatten = stringLiteral texts.flatten := by
  have h : (texts.map escape).flatten = escape texts.flatten := by
    induction texts with
    | nil => rfl
    | cons t texts ih => simp [escape_append, ih]
  simp [stringLiteral, h]

mutual
/-- The writes of a value make up its compact text. -/
theorem Value.chunks_flatten : (v : Value) → v.chunks.flatten = v.text
  | .null => rfl
  | .bool value => by simp [Value.chunks, Value.text]
  | .int value => by simp [Value.chunks, Value.text]
  | .str value => stringChunks_flatten value
  | .cstr none => rfl
  | .cstr (some value) => stringChunks_flatten _
  | .stackArray elements => (arrayChunks_flatten _).trans (congrArg _ (elementChunks_flatten elements))
  | .spanArray elements => (arrayChunks_flatten _).trans (congrArg _ (elementChunks_flatten elements))
  | .streamArray _ elements =>
    (arrayChunks_flatten _).trans (congrArg _ (elementChunks_flatten elements))
  | .print texts => printChunks_flatten texts
  | .doc nodes => by
    rw [Value.chunks, objectChunks_flatten, nodeChunks_flatten nodes, Value.text]

theorem elementChunks_flatten : (elements : List Value) →
    (elementChunks elements).map List.flatten = elementTexts elements
  | [] => rfl
  | v :: elements => by
    rw [elementChunks, List.map_cons, v.chunks_flatten, elementChunks_flatten elements, elementTexts]

theorem nodeChunks_flatten : (nodes : List (NodeInfo × Value)) →
    ((nodeChunks nodes).map fun p => (p.1, p.2.flatten)) = nodeTexts nodes
  | [] => rfl
  | (n, v) :: nodes => by
    rw [nodeChunks, List.map_cons, v.chunks_flatten, nodeChunks_flatten nodes, nodeTexts]
end

theorem documentChunks_flatten (nodes : List (NodeInfo × Value)) :
    (documentChunks nodes).flatten = documentText nodes := Value.chunks_flatten _

end Espbase.StackJson
