import Espbase.Lib.JsonString
import Espbase.Lib.KeyTree

namespace Espbase.Lib

def commaSep (ws : List Bytes) : Bytes := [ch ','].intercalate ws

def arrayText (ws : List Bytes) : Bytes := ch '[' :: commaSep ws ++ [ch ']']

mutual
/-- Compact JSON text of a tree that holds the texts of its values. -/
def treeText : KeyTree Bytes Bytes → Bytes
  | .leaf w => w
  | .node ms => ch '{' :: commaSep (memberTexts ms) ++ [ch '}']

def memberTexts : List (Bytes × KeyTree Bytes Bytes) → List Bytes
  | [] => []
  | (k, t) :: ms => (stringLiteral k ++ ch ':' :: treeText t) :: memberTexts ms
end

def objectText (ms : List (Bytes × KeyTree Bytes Bytes)) : Bytes := treeText (.node ms)

@[simp] theorem commaSep_nil : commaSep [] = [] := rfl

theorem commaSep_cons (w : Bytes) (ws : List Bytes) :
    commaSep (w :: ws) = w ++ ws.flatMap fun u => ch ',' :: u := by
  induction ws generalizing w with
  | nil => simp [commaSep]
  | cons u ws ih =>
    have h := ih u
    simp only [commaSep, List.intercalate, List.intersperse_cons_cons, List.flatten_cons] at h ⊢
    rw [h]
    simp

end Espbase.Lib
