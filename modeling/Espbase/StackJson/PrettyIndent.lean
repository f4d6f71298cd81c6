import Espbase.StackJson.PrettyDocument

namespace Espbase.StackJson

open Espbase.Lib StackBuffer PrettyBuffer

section indented

def isBlank (c : UInt8) : Bool := c == ch ' '

variable {size d : Nat} {q : Quote} {s : Bytes}

end indented

section pretty
variable {indent : UInt8} {k : Cursor} {s : Bytes}

end pretty

section document
variable {maxSize : Nat}

instance decidableSettles (indent : UInt8) : (k : Cursor) → (s : Bytes) → Decidable (Settles indent k s)
  | _, [] => inferInstanceAs (Decidable True)
  | k, c :: s =>
    have := decidableSettles indent (k.next c) s
    inferInstanceAs (Decidable ((indents k c = true → (k.nextDepth c).toNat * indent.toNat ≤ 255) ∧
      Settles indent (k.next c) s))

/-- Two objects in an array: three brackets are open at once. -/
def objectArray : List (NodeInfo × Value) :=
  [(⟨0, false, [bytes "a"]⟩, .stackArray [.doc [(⟨1, false, [bytes "b"]⟩, .null)],
    .doc [(⟨2, false, [bytes "c"]⟩, .null)]])]

theorem objectArray_valid : (Value.doc objectArray).Valid :=
  ⟨⟨by decide, by decide, by decide, by decide⟩, ⟨⟨⟨by decide, by decide, by decide, by decide⟩, trivial, trivial⟩,
    ⟨⟨by decide, by decide, by decide, by decide⟩, trivial, trivial⟩, trivial⟩, trivial⟩

/-- In a buffer that is full the objects are cut short, and their depths add up: the second one never gets past its
indentation. -/
theorem emitDocument_pretty_full :
    nestingDepth objectArray * 64 ≤ 255 ∧
      emitDocument objectArray ⟨PrettyBuffer.new (StackBuffer.empty 71) 64, fun _ => false⟩ = none := by
  refine ⟨by decide, ?_⟩
  have hstuck : (emitDocument objectArray ⟨PrettyBuffer.new (StackBuffer.empty 71) 64, fun _ => false⟩).isSome =
      false := by decide +kernel
  rw [← Option.not_isSome_iff_eq_none, hstuck]
  exact Bool.false_ne_true

end document

end Espbase.StackJson
