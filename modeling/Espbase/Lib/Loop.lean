import Mathlib.Order.Basic

namespace Espbase.Lib

/-- One turn of a loop: go on with a new state, or leave with a result. -/
inductive Turn (σ ρ : Type) where
  | next (s : σ)
  | done (r : ρ)

variable {σ ρ : Type}

/-- Runs a loop whose turns may fault; `none` also when `fuel` turns were not enough. -/
def iterate (turn : σ → Option (Turn σ ρ)) : Nat → σ → Option ρ
  | 0, _ => none
  | fuel + 1, s =>
    match turn s with
    | none => none
    | some (.done r) => some r
    | some (.next s') => iterate turn fuel s'

/-- What one turn must do for the loop to end without a fault and meet `post`: leave with a result
that meets it, or reach a smaller state from which it is still to be met. -/
def Advances (turn : σ → Option (Turn σ ρ)) (measure : σ → Nat) (inv : σ → Prop)
    (post : σ → ρ → Prop) (s : σ) : Prop :=
  (∃ r, turn s = some (.done r) ∧ post s r) ∨
    ∃ s', turn s = some (.next s') ∧ measure s' < measure s ∧ inv s' ∧ ∀ r, post s' r → post s r

/-- The variant rule. -/
theorem iterate_spec (turn : σ → Option (Turn σ ρ)) (measure : σ → Nat) (inv : σ → Prop)
    (post : σ → ρ → Prop) (h : ∀ s, inv s → Advances turn measure inv post s) (fuel : Nat) (s : σ)
    (hs : inv s) (hf : measure s < fuel) : ∃ r, iterate turn fuel s = some r ∧ post s r := by
  induction fuel generalizing s with
  | zero => exact absurd hf (Nat.not_lt_zero _)
  | succ fuel ih =>
    rcases h s hs with ⟨r, ht, hp⟩ | ⟨s', ht, hm, hi, hp⟩
    · exact ⟨r, by simp [iterate, ht], hp⟩
    · obtain ⟨r, hr, hpost⟩ := ih s' hi (Nat.lt_of_lt_of_le hm (Nat.le_of_lt_succ hf))
      exact ⟨r, by simp [iterate, ht, hr], hp r hpost⟩

end Espbase.Lib
