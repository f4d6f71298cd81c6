import Espbase.Lib.Interleaving

namespace Espbase.Lib

/-- Operations that run one at a time, under a lock: where an operation begins, and what one step of it does to
the data. A step that gives no next place ends the operation. -/
structure Guard (σ Op Pc : Type) where
  enter : σ → Op → Pc
  step : σ → Pc → Option (σ × Option Pc)

/-- The data with its lock: the operations that wait, and the one that has the lock. -/
structure Locked (σ Op Pc : Type) where
  data : σ
  waiting : List Op
  inside : Option (Op × Pc)
  /-- the operations that have ended, in the order of their ends -/
  history : List Op

namespace Locked

inductive Label (Op : Type) where
  /-- a thread begins an operation -/
  | call (op : Op)
  /-- one that waits gets the lock -/
  | acquire (i : Nat)
  | step

variable {σ Op Pc A : Type} (g : Guard σ Op Pc)

def initial (data : σ) : Locked σ Op Pc := ⟨data, [], none, []⟩

def next (s : Locked σ Op Pc) : Label Op → Option (Locked σ Op Pc)
  | .call op => some { s with waiting := s.waiting ++ [op] }
  | .acquire i =>
    if s.inside.isNone then do
      let op ← s.waiting[i]?
      some { s with inside := some (op, g.enter s.data op), waiting := s.waiting.eraseIdx i }
    else none
  | .step => do
    let (op, pc) ← s.inside
    let (data, pc) ← g.step s.data pc
    match pc with
    | some pc => some { s with data, inside := some (op, pc) }
    | none => some { s with data, inside := none, history := s.history ++ [op] }

section inversion
variable (s s' : Locked σ Op Pc)

theorem next_acquire (i : Nat) (h : next g s (.acquire i) = some s') :
    s.inside = none ∧ ∃ op, s.waiting[i]? = some op ∧
      s' = { s with inside := some (op, g.enter s.data op), waiting := s.waiting.eraseIdx i } := by
  simp only [next, Option.bind_eq_bind, Option.isNone_iff_eq_none] at h
  split_ifs at h with hi
  obtain ⟨op, hop, h⟩ := Option.bind_eq_some_iff.mp h
  exact ⟨hi, op, hop, (Option.some.inj h).symm⟩

theorem next_step (h : next g s .step = some s') :
    ∃ op pc data, s.inside = some (op, pc) ∧
      ((∃ pc', g.step s.data pc = some (data, some pc') ∧ s' = { s with data, inside := some (op, pc') }) ∨
        g.step s.data pc = some (data, none) ∧
          s' = { s with data, inside := none, history := s.history ++ [op] }) := by
  simp only [next, Option.bind_eq_bind, Option.bind_eq_some_iff] at h
  obtain ⟨⟨op, pc⟩, hi, ⟨data, pc'⟩, hstep, h⟩ := h
  refine ⟨op, pc, data, hi, ?_⟩
  cases pc' with
  | some pc' => exact .inl ⟨pc', hstep, (Option.some.inj h).symm⟩
  | none => exact .inr ⟨hstep, (Option.some.inj h).symm⟩

end inversion

/-- What the data means while no operation runs, and while one stands at a place in its course. -/
structure Atomic (apply : A → Op → A) (rest : A → σ → Prop) (at' : A → Op → Pc → σ → Prop) : Prop where
  enter : ∀ a op data, rest a data → at' a op (g.enter data op) data
  step : ∀ a op pc data data' pc', at' a op pc data → g.step data pc = some (data', some pc') → at' a op pc' data'
  leave : ∀ a op pc data data', at' a op pc data → g.step data pc = some (data', none) → rest (apply a op) data'

/-- The meaning of the data after the operations of the history, applied whole and in order. -/
def Meaning (apply : A → Op → A) (a : A) (rest : A → σ → Prop) (at' : A → Op → Pc → σ → Prop)
    (s : Locked σ Op Pc) : Prop :=
  match s.inside with
  | none => rest (s.history.foldl apply a) s.data
  | some (op, pc) => at' (s.history.foldl apply a) op pc s.data

variable {g} {apply : A → Op → A} {rest : A → σ → Prop} {at' : A → Op → Pc → σ → Prop}

theorem Atomic.meaning_next (h : Atomic g apply rest at') (a : A) (s s' : Locked σ Op Pc) (l : Label Op)
    (hs : Meaning apply a rest at' s) (hn : next g s l = some s') : Meaning apply a rest at' s' := by
  cases l with
  | call op =>
    obtain rfl := Option.some.inj hn
    exact hs
  | acquire i =>
    obtain ⟨hi, op, -, rfl⟩ := next_acquire g s s' i hn
    unfold Meaning at hs
    rw [hi] at hs
    exact h.enter _ op s.data hs
  | step =>
    obtain ⟨op, pc, data, hi, hstep⟩ := next_step g s s' hn
    unfold Meaning at hs
    rw [hi] at hs
    rcases hstep with ⟨pc', hstep, rfl⟩ | ⟨hstep, rfl⟩
    · exact h.step _ op pc s.data data pc' hs hstep
    · unfold Meaning
      dsimp only
      rw [List.foldl_append]
      exact h.leave _ op pc s.data data hs hstep

/-- In every run the operations take effect whole, in the order of their ends. -/
theorem Atomic.meaning (h : Atomic g apply rest at') (a : A) (data : σ) (hrest : rest a data)
    (ok : Locked σ Op Pc → Label Op → Prop) (s : Locked σ Op Pc) (run : Steps (next g) ok (initial data) s) :
    Meaning apply a rest at' s :=
  run.invariant _ _ (Meaning apply a rest at') _ _ hrest fun t l t' ht _ hn => h.meaning_next a t t' l ht hn

end Locked

end Espbase.Lib
