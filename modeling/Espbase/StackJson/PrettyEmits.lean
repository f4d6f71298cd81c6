import Espbase.StackJson.CompactText
import Espbase.StackJson.PrettyPrints

namespace Espbase.StackJson

open Espbase.Lib StackBuffer PrettyBuffer

/-- An emission through a decorated stack buffer. -/
abbrev PrettyEmission (maxSize : Nat) := Emission (PrettyStack maxSize)

variable {maxSize : Nat}

section prints
variable {quiet : Prop} {q : Quote} {s : Bytes}

/-- A checked call on the buffer of an emission. -/
theorem emission_prints {f : PrettyStack maxSize → Option (PrettyStack maxSize × Nat)}
    (h : Prints id quiet q s fun pb => checked (f pb)) :
    Prints Emission.buf quiet q s fun st : PrettyEmission maxSize =>
      (f st.buf).bind fun r => some ({ st with buf := r.1 }, r.2 != 0) := by
  intro st hs
  obtain ⟨hret, hset⟩ := h st.buf hs
  have heq : ((f st.buf).bind fun r => some (({ st with buf := r.1 }, r.2 != 0) :
      PrettyEmission maxSize × Bool)) =
      (checked (f st.buf)).map fun r => ({ st with buf := r.1 }, r.2) := by
    cases f st.buf <;> rfl
  simp only [heq, Option.isSome_map]
  refine ⟨?_, hset⟩
  intro st' ok he
  obtain ⟨⟨pb1, ok1⟩, h1, h2⟩ := Option.map_eq_some_iff.mp he
  cases h2
  exact hret pb1 ok1 h1

theorem put_prints (str : Bytes) (hne : str ≠ []) :
    Prints Emission.buf quiet q str fun st : PrettyEmission maxSize =>
      (st.put str).map fun st => (st, true) := by
  have h := (emission_prints (@write_prints maxSize quiet q str hne)).drop
  have heq : (fun st : PrettyEmission maxSize => (st.put str).map fun st => (st, true)) =
      fun st => (st.write str).map fun r => (r.1, true) := by
    funext st
    rw [Emission.put]
    cases st.write str <;> rfl
  rw [heq]
  exact h

end prints

/-- A checked emission of the compact text `s`, between tokens. -/
structure PrettyEmits (quiet : Prop) (s : Bytes)
    (e : PrettyEmission maxSize → Option (PrettyEmission maxSize × Bool)) : Prop where
  closed : Quote.outside.after s = .outside
  prints : Prints Emission.buf quiet .outside s e

/-- An emission of the compact text `s` through void calls. -/
def PrettyPuts (quiet : Prop) (s : Bytes)
    (e : PrettyEmission maxSize → Option (PrettyEmission maxSize)) : Prop :=
  PrettyEmits quiet s fun st => (e st).map fun st => (st, true)

section combine
variable {quiet quiet' : Prop} {s t : Bytes}

theorem PrettyEmits.nil :
    PrettyEmits quiet [] fun st : PrettyEmission maxSize => some (st, true) := ⟨rfl, Prints.nil⟩

theorem PrettyEmits.andThen
    {e k : PrettyEmission maxSize → Option (PrettyEmission maxSize × Bool)}
    (he : PrettyEmits quiet s e) (hk : PrettyEmits quiet t k) :
    PrettyEmits quiet (s ++ t) fun st => StackJson.andThen (e st) k := by
  refine ⟨by rw [Quote.after_append, he.closed, hk.closed], ?_⟩
  exact he.prints.next hk.prints he.closed

theorem PrettyEmits.mono {e : PrettyEmission maxSize → Option (PrettyEmission maxSize × Bool)}
    (h : PrettyEmits quiet s e) (hq : quiet' → quiet) : PrettyEmits quiet' s e :=
  ⟨h.closed, h.prints.mono hq⟩

end combine

section scalars
variable {quiet : Prop}

theorem write_prettyEmits (str : Bytes) (hne : str ≠ [])
    (hclosed : Quote.outside.after str = .outside) :
    PrettyEmits quiet str fun st : PrettyEmission maxSize => st.write str :=
  ⟨hclosed, emission_prints (write_prints .outside str hne)⟩

theorem writeEscaped_prettyEmits (str : Bytes) :
    PrettyEmits quiet (stringLiteral str) fun st : PrettyEmission maxSize => st.writeEscaped str :=
  ⟨(Solid.stringLiteral str).closed, emission_prints (writeEscaped_prints str)⟩

theorem signedDecimal_closed (n : Int) : Quote.outside.after (signedDecimal n) = .outside := by
  have h := (verbatim_signedDecimal 0 ⟨.outside, 0⟩ n rfl).cursor
  have := Cursor.after_quote ⟨.outside, 0⟩ (signedDecimal n)
  rw [h] at this
  exact this.symm

theorem putInteger_prettyPuts (n : Integer) :
    PrettyPuts False (signedDecimal n.val) fun st : PrettyEmission maxSize => st.putInteger n := by
  refine ⟨signedDecimal_closed n.val, fun st hs => ?_⟩
  obtain ⟨pb1, ok1, h1, hp⟩ := writeInteger_prettied n hs
  have heq : ((st.putInteger n).map fun st => (st, true)) = some ({ st with buf := pb1 }, true) := by
    simp [Emission.putInteger, h1]
  rw [heq]
  refine ⟨?_, fun _ _ _ _ => rfl⟩
  intro st' ok h
  cases h
  exact hp.drop

theorem separator_prettyEmits (first : Bool) :
    PrettyEmits quiet (if first then [] else [ch ','])
      fun st : PrettyEmission maxSize => separator first st := by
  cases first
  · exact write_prettyEmits [ch ','] (by simp) rfl
  · exact PrettyEmits.nil

end scalars

end Espbase.StackJson
