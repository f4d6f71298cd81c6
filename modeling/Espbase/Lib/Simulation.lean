import Espbase.Lib.Interleaving

namespace Espbase.Lib

section runs
variable {σ τ L ε : Type}

/-- The answers to a sequence of calls, and the state after it. -/
def runs (call : σ → L → Option (ε × σ)) : σ → List L → Option (List ε × σ)
  | s, [] => some ([], s)
  | s, l :: ls => do
    let (answer, s) ← call s l
    let (answers, s) ← runs call s ls
    some (answer :: answers, s)

/-- The same for calls that always have a result. -/
def answers (call : τ → L → ε × τ) : τ → List L → List ε × τ
  | t, [] => ([], t)
  | t, l :: ls =>
    let r := answers call (call t l).2 ls
    ((call t l).1 :: r.1, r.2)

/-- Each call may be made in the state that it is made in. -/
def MakesAll (call : τ → L → ε × τ) (makes : τ → L → Prop) : τ → List L → Prop
  | _, [] => True
  | t, l :: ls => makes t l ∧ MakesAll call makes (call t l).2 ls

/-- A system of which each call is one of the system that it is seen as answers every sequence of calls as
that one does. -/
theorem runs_view (concrete : σ → L → Option (ε × σ)) (abstract : τ → L → ε × τ) (makes : τ → L → Prop)
    (view : σ → τ) (inv : σ → Prop)
    (step : ∀ s l, inv s → makes (view s) l →
      ∃ s', concrete s l = some ((abstract (view s) l).1, s') ∧ inv s' ∧ view s' = (abstract (view s) l).2)
    (s : σ) (hs : inv s) (ls : List L) (hls : MakesAll abstract makes (view s) ls) :
    ∃ s', runs concrete s ls = some ((answers abstract (view s) ls).1, s') ∧ inv s' ∧
      view s' = (answers abstract (view s) ls).2 := by
  induction ls generalizing s with
  | nil => exact ⟨s, rfl, hs, rfl⟩
  | cons l ls ih =>
    obtain ⟨hl, hls⟩ := hls
    obtain ⟨t, hcall, ht, hview⟩ := step s l hs hl
    rw [← hview] at hls
    obtain ⟨s', hruns, hs', hview'⟩ := ih t ht hls
    rw [hview] at hruns hview'
    refine ⟨s', ?_, hs', hview'⟩
    rw [runs, hcall]
    change (runs concrete t ls).bind _ = _
    rw [hruns]
    rfl

end runs

section view
variable {σ τ L ε : Type} (next : σ → L → Option σ) (ok : σ → L → Prop) (abstract : τ → ε → Option τ)
  (view : σ → τ) (inv : σ → Prop)

/-- A system each step of which is, as it is seen, a step of another one or none goes only where that one does. -/
theorem Steps.seen (step : ∀ s l s', inv s → ok s l → next s l = some s' →
      inv s' ∧ (view s' = view s ∨ ∃ e, abstract (view s) e = some (view s')))
    (s s' : σ) (hs : inv s) (run : Steps next ok s s') :
    inv s' ∧ Steps abstract (fun _ _ => True) (view s) (view s') := by
  induction run with
  | refl => exact ⟨hs, .refl⟩
  | snoc t t' l _ allowed taken ih =>
    obtain ⟨ht, habstract⟩ := ih
    obtain ⟨ht', hsame | ⟨e, he⟩⟩ := step t l t' ht allowed taken
    · rw [hsame]
      exact ⟨ht', habstract⟩
    · exact ⟨ht', .snoc _ _ e habstract trivial he⟩

/-- A system that can take each step of another one, as it is seen, goes wherever that one does. -/
theorem Steps.shown (step : ∀ s e t, inv s → abstract (view s) e = some t →
      ∃ s', Steps next ok s s' ∧ inv s' ∧ view s' = t)
    (s : σ) (t : τ) (hs : inv s) (run : Steps abstract (fun _ _ => True) (view s) t) :
    ∃ s', Steps next ok s s' ∧ inv s' ∧ view s' = t := by
  induction run with
  | refl => exact ⟨s, .refl, hs, rfl⟩
  | snoc t t' e _ _ taken ih =>
    obtain ⟨u, hrun, hu, rfl⟩ := ih
    obtain ⟨u', hmore, hu', hview⟩ := step u e t' hu taken
    exact ⟨u', Steps.trans next ok s u u' hrun hmore, hu', hview⟩

end view

end Espbase.Lib
