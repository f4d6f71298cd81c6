import Mathlib.Algebra.Ring.Nat
import Mathlib.Data.List.Induction
import Mathlib.Tactic.Tauto

namespace Espbase.Lib

variable {σ L : Type} (next : σ → L → Option σ)

/-- Takes the steps of a schedule one after the other; `none` when one of them is not possible. -/
def exec : σ → List L → Option σ
  | s, [] => some s
  | s, l :: ls => (next s l).bind fun s' => exec s' ls

theorem exec_cons (s : σ) (l : L) (ls : List L) :
    exec next s (l :: ls) = (next s l).bind fun s' => exec next s' ls := rfl

theorem exec_append (s : σ) (ls ms : List L) :
    exec next s (ls ++ ms) = (exec next s ls).bind fun s' => exec next s' ms := by
  induction ls generalizing s with
  | nil => rfl
  | cons l ls ih =>
    cases h : next s l with
    | none => simp [exec, h]
    | some s' => simp [exec, h, ih]

theorem exec_concat (s s' : σ) (ls : List L) (l : L) (h : exec next s ls = some s') :
    exec next s (ls ++ [l]) = next s' l := by
  rw [exec_append, h]
  change (next s' l).bind some = _
  cases next s' l <;> rfl

/-- A system that records more about the same steps takes the same schedules. -/
theorem exec_map {τ : Type} (record : τ → L → Option τ) (f : τ → σ)
    (step : ∀ t l, (record t l).map f = next (f t) l) (t : τ) (ls : List L) :
    (exec record t ls).map f = exec next (f t) ls := by
  induction ls generalizing t with
  | nil => rfl
  | cons l ls ih =>
    rw [exec_cons, exec_cons, ← step]
    cases record t l with
    | none => rfl
    | some t' => exact ih t'

/-- `s'` is reached from `s` by steps that all meet the condition `ok`. -/
inductive Steps (ok : σ → L → Prop) (s : σ) : σ → Prop where
  | refl : Steps ok s s
  | snoc (s' s'' : σ) (l : L) (before : Steps ok s s') (allowed : ok s' l)
      (taken : next s' l = some s'') : Steps ok s s''

theorem Steps.trans (ok : σ → L → Prop) (s s' s'' : σ) (run : Steps next ok s s')
    (more : Steps next ok s' s'') : Steps next ok s s'' := by
  induction more with
  | refl => exact run
  | snoc t t' l _ allowed taken ih => exact .snoc t t' l ih allowed taken

/-- What holds at the start and is kept by every allowed step holds in every state reached. -/
theorem Steps.invariant (ok : σ → L → Prop) (inv : σ → Prop) (s s' : σ)
    (run : Steps next ok s s') (start : inv s)
    (step : ∀ t l t', inv t → ok t l → next t l = some t' → inv t') : inv s' := by
  induction run with
  | refl => exact start
  | snoc t t' l _ allowed taken ih => exact step t l t' ih allowed taken

/-- Takes a step only where the condition allows it. -/
def guarded (ok : σ → L → Prop) [∀ s l, Decidable (ok s l)] (s : σ) (l : L) : Option σ :=
  if ok s l then next s l else none

/-- A schedule that runs under the guard is a run of allowed steps. -/
theorem steps_of_guarded (ok : σ → L → Prop) [∀ s l, Decidable (ok s l)] (s s' : σ) (ls : List L)
    (h : exec (guarded next ok) s ls = some s') : Steps next ok s s' := by
  induction ls using List.reverseRecOn generalizing s' with
  | nil =>
    obtain rfl : s = s' := Option.some.inj h
    exact .refl
  | append_singleton ls l ih =>
    rw [exec_append, Option.bind_eq_some_iff] at h
    obtain ⟨t, ht, h⟩ := h
    have hg : guarded next ok t l = some s' := by simpa [exec] using h
    unfold guarded at hg
    split at hg
    · exact .snoc t s' l (ih t ht) ‹_› hg
    · cases hg

/-- A schedule of allowed labels is a run. -/
theorem steps_of_exec (ok : L → Prop) (s s' : σ) (ls : List L) (hls : ∀ l ∈ ls, ok l)
    (h : exec next s ls = some s') : Steps next (fun _ l => ok l) s s' := by
  induction ls using List.reverseRecOn generalizing s' with
  | nil =>
    obtain rfl : s = s' := Option.some.inj h
    exact .refl
  | append_singleton ls l ih =>
    rw [List.forall_mem_append] at hls
    rw [exec_append, Option.bind_eq_some_iff] at h
    obtain ⟨t, ht, h⟩ := h
    have hl : next t l = some s' := by simpa [exec] using h
    exact .snoc t s' l (ih t hls.1 ht) (hls.2 l (List.mem_singleton_self l)) hl

section pool
variable {α : Type} (pool : List α) (i : Nat) (c : α) (h : pool[i]? = some c) (c' : Option α)
include h

theorem pool_split : ∃ before after, pool = before ++ c :: after ∧
    pool.take i ++ c'.toList ++ pool.drop (i + 1) = before ++ c'.toList ++ after := by
  obtain ⟨hi, rfl⟩ := List.getElem?_eq_some_iff.mp h
  refine ⟨pool.take i, pool.drop (i + 1), ?_, rfl⟩
  rw [List.getElem_cons_drop, List.take_append_drop]

omit h in
theorem pool_mem (d : α) (hd : d ∈ pool.take i ++ c'.toList ++ pool.drop (i + 1)) :
    d ∈ c' ∨ d ∈ pool := by
  simp only [List.mem_append, Option.mem_toList] at hd
  rcases hd with (hd | hd) | hd
  · exact .inr (List.mem_of_mem_take hd)
  · exact .inl hd
  · exact .inr (List.mem_of_mem_drop hd)

/-- A thread that goes on keeps its place. -/
theorem pool_get (d : α) : (pool.take i ++ (some d).toList ++ pool.drop (i + 1))[i]? = some d := by
  have hi := (List.getElem?_eq_some_iff.mp h).1
  have hlen : (pool.take i).length = i := List.length_take_of_le (Nat.le_of_lt hi)
  rw [List.append_assoc, List.getElem?_append_right (Nat.le_of_eq hlen), hlen, Nat.sub_self]
  rfl

/-- The other threads stay. -/
theorem pool_keep (d : α) (hd : d ∈ pool) (hne : d ≠ c) :
    d ∈ pool.take i ++ c'.toList ++ pool.drop (i + 1) := by
  obtain ⟨before, after, rfl, he⟩ := pool_split pool i c h c'
  rw [he]
  simp only [List.mem_append, List.mem_cons] at hd ⊢
  tauto

/-- A measure of a pool of threads changes as the thread that moves does. -/
theorem pool_sum (f : α → Nat) :
    ((pool.take i ++ c'.toList ++ pool.drop (i + 1)).map f).sum + f c =
      (pool.map f).sum + (c'.map f).getD 0 := by
  obtain ⟨before, after, rfl, he⟩ := pool_split pool i c h c'
  rw [he]
  cases c' <;> simp <;> omega

end pool

end Espbase.Lib
