import Espbase.Lib.Mutex
import Mathlib.Data.List.Nodup

namespace Espbase.ShutdownRegistry

open Espbase.Lib

/-- `MAX_FUNCTIONS` -/
def maxFunctions : Nat := 32

/-- The variables of the registry, and the functions that it has called. -/
structure Registry (F : Type) where
  functions : List (Option F)
  count : Nat
  /-- the calls, the first one first -/
  calls : List F

def Registry.empty (F : Type) : Registry F := ⟨List.replicate maxFunctions none, 0, []⟩

/-- The functions of the registry, behind the test for null. -/
inductive Op (F : Type) where
  | registerFn (fn : F)
  | shutdownAll
  deriving DecidableEq

/-- Where they stand while they have the lock. -/
inductive Pc (F : Type) where
  /-- `functions_[i] == fn` -/
  | scan (fn : F) (i : Nat)
  /-- `functions_[count_++] = fn` -/
  | store (fn : F)
  /-- the functions below the index are still to be called -/
  | call (i : Nat)
  /-- `count_ = 0` -/
  | clear
  /-- a called function waits for the lock that its caller has -/
  | reenter
  deriving DecidableEq

section step
variable {F : Type} [DecidableEq F] (reenters : F → Bool)

def enter (r : Registry F) : Op F → Pc F
  | .registerFn fn => .scan fn 0
  | .shutdownAll => .call r.count

/-- One step with the lock; none where the array ends, and where the thread waits for itself. -/
def step (r : Registry F) : Pc F → Option (Registry F × Option (Pc F))
  | .scan fn i =>
    if i < r.count then do
      let f ← r.functions[i]?
      some (r, if f = some fn then none else some (.scan fn (i + 1)))
    else some (r, some (.store fn))
  | .store fn =>
    if r.count < maxFunctions then
      if r.count < r.functions.length then
        some ({ r with functions := r.functions.set r.count (some fn), count := r.count + 1 }, none)
      else none
    else some (r, none)
  | .call 0 => some (r, some .clear)
  | .call (i + 1) => do
    match ← r.functions[i]? with
    | none => some (r, some (.call i))
    | some f => some ({ r with calls := r.calls ++ [f] }, some (if reenters f then .reenter else .call i))
  | .clear => some ({ r with count := 0 }, none)
  | .reenter => none

/-- The registry under its mutex. A function that is called `reenters` when it uses the registry itself. -/
def guard : Guard (Registry F) (Op F) (Pc F) := ⟨enter, step reenters⟩

end step

/-- What the registry is for: a set of functions in the order of their registration, and all that was called. -/
structure Round (F : Type) where
  registered : List F
  called : List F

namespace Round
variable {F : Type} [DecidableEq F]

def empty (F : Type) : Round F := ⟨[], []⟩

/-- An operation as a whole. A round calls every function once, the last one first, and starts anew. -/
def apply (a : Round F) : Op F → Round F
  | .registerFn fn =>
    if fn ∈ a.registered ∨ maxFunctions ≤ a.registered.length then a
    else { a with registered := a.registered ++ [fn] }
  | .shutdownAll => ⟨[], a.called ++ a.registered.reverse⟩

end Round

/-- The array stands for the registered functions. -/
structure Holds {F : Type} (a : Round F) (r : Registry F) : Prop where
  size : r.functions.length = maxFunctions
  count : r.count = a.registered.length
  functions : r.functions.take r.count = a.registered.map some
  room : a.registered.length ≤ maxFunctions
  nodup : a.registered.Nodup

/-- No operation runs. -/
structure Rest {F : Type} (a : Round F) (r : Registry F) : Prop where
  holds : Holds a r
  calls : r.calls = a.called

/-- An operation stands at a place. -/
def Stands {F : Type} (reenters : F → Bool) (a : Round F) (op : Op F) (pc : Pc F) (r : Registry F) : Prop :=
  Holds a r ∧
    match pc with
    | .scan fn i => op = .registerFn fn ∧ i ≤ r.count ∧ fn ∉ a.registered.take i ∧ r.calls = a.called
    | .store fn => op = .registerFn fn ∧ fn ∉ a.registered ∧ r.calls = a.called
    | .call i => op = .shutdownAll ∧ i ≤ r.count ∧ r.calls = a.called ++ (a.registered.drop i).reverse ∧
        ∀ f ∈ a.registered.drop i, reenters f = false
    | .clear => op = .shutdownAll ∧ r.calls = a.called ++ a.registered.reverse ∧
        ∀ f ∈ a.registered, reenters f = false
    | .reenter => op = .shutdownAll ∧ ∃ i, i < r.count ∧ r.calls = a.called ++ (a.registered.drop i).reverse ∧
        ∃ f, a.registered[i]? = some f ∧ reenters f = true

section holds
variable {F : Type} (a : Round F) (r : Registry F) (h : Holds a r)
include h

theorem Holds.get (i : Nat) (hi : i < r.count) : ∃ f, a.registered[i]? = some f ∧ r.functions[i]? = some (some f) := by
  have hlt : i < a.registered.length := h.count ▸ hi
  refine ⟨a.registered[i], List.getElem?_eq_getElem hlt, ?_⟩
  rw [← List.getElem?_take_of_lt hi, h.functions, List.getElem?_map, List.getElem?_eq_getElem hlt]
  rfl

theorem Holds.calls (calls : List F) : Holds a { r with calls } :=
  ⟨h.size, h.count, h.functions, h.room, h.nodup⟩

theorem Holds.append (fn : F) (hnew : fn ∉ a.registered) (hroom : r.count < maxFunctions) :
    Holds { a with registered := a.registered ++ [fn] }
      { r with functions := r.functions.set r.count (some fn), count := r.count + 1 } := by
  have hlt : r.count < r.functions.length := h.size ▸ hroom
  refine ⟨?_, ?_, ?_, ?_, ?_⟩
  · rw [List.length_set, h.size]
  · rw [List.length_append, h.count]
    rfl
  · rw [List.take_add_one, List.take_set_of_le (Nat.le_refl _), h.functions, List.getElem?_set_self hlt,
      List.map_append]
    rfl
  · rw [List.length_append, ← h.count]
    exact hroom
  · exact List.nodup_append.mpr ⟨h.nodup, List.nodup_singleton fn, fun x hx y hy => by
      rw [List.mem_singleton.mp hy]
      rintro rfl
      exact hnew hx⟩

end holds

section atomic
variable {F : Type} (reenters : F → Bool)

theorem stands_enter (a : Round F) (op : Op F) (r : Registry F) (h : Rest a r) :
    Stands reenters a op (enter r op) r := by
  refine ⟨h.holds, ?_⟩
  cases op with
  | registerFn fn => exact ⟨rfl, Nat.zero_le _, List.not_mem_nil, h.calls⟩
  | shutdownAll =>
    have hdrop : a.registered.drop r.count = [] := by rw [h.holds.count, List.drop_length]
    refine ⟨rfl, Nat.le_refl _, ?_, ?_⟩
    · rw [hdrop, h.calls, List.reverse_nil, List.append_nil]
    · rw [hdrop]
      nofun

variable [DecidableEq F] (a : Round F) (op : Op F) (r r' : Registry F)

/-- The search goes on, or ends at the function. -/
theorem stands_scan (fn : F) (i : Nat) (next : Option (Pc F)) (h : Stands reenters a op (.scan fn i) r)
    (hstep : step reenters r (.scan fn i) = some (r', next)) :
    (∀ pc, next = some pc → Stands reenters a op pc r') ∧ (next = none → Rest (a.apply op) r') := by
  obtain ⟨hh, hop, hi, hnew, hcalls⟩ := h
  by_cases hlt : i < r.count
  · obtain ⟨f, hf, hget⟩ := hh.get a r i hlt
    have hval : step reenters r (.scan fn i) =
        some (r, if (some f : Option F) = some fn then none else some (.scan fn (i + 1))) := by
      rw [step, if_pos hlt, hget]
      rfl
    rw [hval, Option.some.injEq, Prod.mk.injEq] at hstep
    obtain ⟨rfl, rfl⟩ := hstep
    by_cases heq : f = fn
    · subst heq
      rw [if_pos rfl]
      refine ⟨nofun, fun _ => ?_⟩
      have happly : a.apply op = a := by
        rw [hop, Round.apply, if_pos (.inl (List.mem_of_getElem? hf))]
      rw [happly]
      exact ⟨hh, hcalls⟩
    · rw [if_neg fun h => heq (Option.some.inj h)]
      refine ⟨fun pc hpc => ?_, nofun⟩
      obtain rfl := Option.some.inj hpc
      refine ⟨hh, hop, hlt, ?_, hcalls⟩
      rw [List.take_add_one, hf, List.mem_append, not_or]
      exact ⟨hnew, fun hmem => heq (List.mem_singleton.mp hmem).symm⟩
  · rw [step, if_neg hlt, Option.some.injEq, Prod.mk.injEq] at hstep
    obtain ⟨rfl, rfl⟩ := hstep
    refine ⟨fun pc hpc => ?_, nofun⟩
    obtain rfl := Option.some.inj hpc
    refine ⟨hh, hop, ?_, hcalls⟩
    rwa [Nat.le_antisymm hi (Nat.le_of_not_lt hlt), hh.count, List.take_length] at hnew

theorem stands_store (fn : F) (next : Option (Pc F)) (h : Stands reenters a op (.store fn) r)
    (hstep : step reenters r (.store fn) = some (r', next)) : next = none ∧ Rest (a.apply op) r' := by
  obtain ⟨hh, hop, hnew, hcalls⟩ := h
  rw [step] at hstep
  by_cases hroom : r.count < maxFunctions
  · have hlt : r.count < r.functions.length := hh.size ▸ hroom
    rw [if_pos hroom, if_pos hlt, Option.some.injEq, Prod.mk.injEq] at hstep
    obtain ⟨rfl, rfl⟩ := hstep
    have happly : a.apply op = { a with registered := a.registered ++ [fn] } := by
      rw [hop, Round.apply, if_neg]
      rw [hh.count] at hroom
      exact not_or.mpr ⟨hnew, Nat.not_le_of_lt hroom⟩
    rw [happly]
    exact ⟨rfl, hh.append a r fn hnew hroom, hcalls⟩
  · rw [if_neg hroom, Option.some.injEq, Prod.mk.injEq] at hstep
    obtain ⟨rfl, rfl⟩ := hstep
    have happly : a.apply op = a := by
      rw [hop, Round.apply, if_pos]
      exact .inr (hh.count ▸ Nat.le_of_not_lt hroom)
    rw [happly]
    exact ⟨rfl, hh, hcalls⟩

/-- The next function from above is called. -/
theorem stands_call (i : Nat) (next : Option (Pc F)) (h : Stands reenters a op (.call i) r)
    (hstep : step reenters r (.call i) = some (r', next)) : ∃ pc, next = some pc ∧ Stands reenters a op pc r' := by
  obtain ⟨hh, hop, hi, hcalls, hquiet⟩ := h
  cases i with
  | zero =>
    rw [step, Option.some.injEq, Prod.mk.injEq] at hstep
    obtain ⟨rfl, rfl⟩ := hstep
    exact ⟨.clear, rfl, hh, hop, hcalls, hquiet⟩
  | succ i =>
    obtain ⟨f, hf, hget⟩ := hh.get a r i hi
    rw [step, hget] at hstep
    simp only [Option.bind_eq_bind, Option.bind_some, Option.some.injEq, Prod.mk.injEq] at hstep
    obtain ⟨rfl, rfl⟩ := hstep
    have hdrop : a.registered.drop i = f :: a.registered.drop (i + 1) := by
      obtain ⟨hlt, rfl⟩ := List.getElem?_eq_some_iff.mp hf
      exact List.drop_eq_getElem_cons hlt
    have hcalls' : r.calls ++ [f] = a.called ++ (a.registered.drop i).reverse := by
      rw [hcalls, hdrop, List.reverse_cons, List.append_assoc]
    cases hr : reenters f with
    | true => exact ⟨.reenter, rfl, hh.calls a r _, hop, i, hi, hcalls', f, hf, hr⟩
    | false =>
      refine ⟨.call i, rfl, hh.calls a r _, hop, Nat.le_of_succ_le hi, hcalls', ?_⟩
      rw [hdrop]
      exact fun g hg => (List.mem_cons.mp hg).elim (fun h => h ▸ hr) (hquiet g)

theorem stands_clear (next : Option (Pc F)) (h : Stands reenters a op .clear r)
    (hstep : step reenters r .clear = some (r', next)) : next = none ∧ Rest (a.apply op) r' := by
  obtain ⟨hh, hop, hcalls, -⟩ := h
  rw [step, Option.some.injEq, Prod.mk.injEq] at hstep
  obtain ⟨rfl, rfl⟩ := hstep
  rw [hop]
  exact ⟨rfl, ⟨hh.size, rfl, rfl, Nat.zero_le _, List.nodup_nil⟩, hcalls⟩

/-- Every operation takes effect whole. -/
theorem atomic : Locked.Atomic (guard reenters) Round.apply Rest (Stands reenters) := by
  refine ⟨stands_enter reenters, ?_, ?_⟩
  · intro a op pc r r' pc' h hstep
    cases pc with
    | scan fn i => exact (stands_scan reenters a op r r' fn i _ h hstep).1 pc' rfl
    | store fn => cases (stands_store reenters a op r r' fn _ h hstep).1
    | call i =>
      obtain ⟨pc, hpc, hs⟩ := stands_call reenters a op r r' i _ h hstep
      rw [Option.some.inj hpc]
      exact hs
    | clear => cases (stands_clear reenters a op r r' _ h hstep).1
    | reenter => cases hstep
  · intro a op pc r r' h hstep
    cases pc with
    | scan fn i => exact (stands_scan reenters a op r r' fn i _ h hstep).2 rfl
    | store fn => exact (stands_store reenters a op r r' fn _ h hstep).2
    | call i =>
      obtain ⟨pc, hpc, -⟩ := stands_call reenters a op r r' i _ h hstep
      cases hpc
    | clear => exact (stands_clear reenters a op r r' _ h hstep).2
    | reenter => cases hstep

/-- Only a thread that waits for itself has no step; no access leaves the array. -/
theorem step_none_iff (pc : Pc F) (h : Stands reenters a op pc r) :
    step reenters r pc = none ↔ pc = .reenter := by
  cases pc with
  | scan fn i =>
    refine iff_of_false ?_ nofun
    rw [step]
    by_cases hlt : i < r.count
    · obtain ⟨f, -, hget⟩ := h.1.get a r i hlt
      rw [if_pos hlt, hget]
      nofun
    · rw [if_neg hlt]
      nofun
  | store fn =>
    refine iff_of_false ?_ nofun
    rw [step]
    by_cases hroom : r.count < maxFunctions
    · have hlt : r.count < r.functions.length := h.1.size ▸ hroom
      rw [if_pos hroom, if_pos hlt]
      nofun
    · rw [if_neg hroom]
      nofun
  | call i =>
    refine iff_of_false ?_ nofun
    cases i with
    | zero => nofun
    | succ i =>
      obtain ⟨f, -, hget⟩ := h.1.get a r i h.2.2.1
      rw [step, hget]
      nofun
  | clear => exact iff_of_false nofun nofun
  | reenter => exact iff_of_true rfl rfl

end atomic

/-- The registry with its mutex, and the threads that use it. -/
abbrev State (F : Type) := Locked (Registry F) (Op F) (Pc F)

section runs
variable {F : Type} [DecidableEq F] (reenters : F → Bool)

/-- Any number of threads, in any order. -/
def Reached (s : State F) : Prop :=
  Steps (Locked.next (guard reenters)) (fun _ _ => True) (Locked.initial (Registry.empty F)) s

/-- The set that the operations of the history make. -/
def State.round (s : State F) : Round F := s.history.foldl Round.apply (Round.empty F)

omit [DecidableEq F] in
theorem rest_empty : Rest (Round.empty F) (Registry.empty F) :=
  ⟨⟨List.length_replicate .., rfl, rfl, Nat.zero_le _, List.nodup_nil⟩, rfl⟩

theorem Reached.meaning (s : State F) (h : Reached reenters s) :
    Locked.Meaning Round.apply (Round.empty F) Rest (Stands reenters) s :=
  (atomic reenters).meaning _ _ rest_empty _ s h

theorem Reached.stands (s : State F) (h : Reached reenters s) (op : Op F) (pc : Pc F) (hi : s.inside = some (op, pc)) :
    Stands reenters s.round op pc s.data := by
  have hm := h.meaning reenters s
  unfold Locked.Meaning at hm
  rw [hi] at hm
  exact hm

omit [DecidableEq F] in
theorem Stands.called {reenters : F → Bool} {a : Round F} {op : Op F} {pc : Pc F} {r : Registry F}
    (h : Stands reenters a op pc r) : Holds a r ∧ ∃ i, r.calls = a.called ++ (a.registered.drop i).reverse := by
  obtain ⟨hh, h⟩ := h
  have hall (hcalls : r.calls = a.called) : ∃ i, r.calls = a.called ++ (a.registered.drop i).reverse :=
    ⟨a.registered.length, by rw [hcalls, List.drop_length, List.reverse_nil, List.append_nil]⟩
  cases pc with
  | scan fn i => exact ⟨hh, hall h.2.2.2⟩
  | store fn => exact ⟨hh, hall h.2.2⟩
  | call i => exact ⟨hh, i, h.2.2.1⟩
  | clear => exact ⟨hh, 0, h.2.1⟩
  | reenter =>
    obtain ⟨-, i, -, hcalls, -⟩ := h
    exact ⟨hh, i, hcalls⟩

/-- In every run of any number of threads the registry is the set that its operations make, whole and in the order
of their ends: at most 32 different functions; what has been called are the full rounds of the ended shutdowns, each
with every registered function once and the last one first, and of a running one the functions from the end of its
list. No access leaves the array. -/
theorem registry_atomic (s : State F) (h : Reached reenters s) :
    s.round.registered.Nodup ∧ s.round.registered.length ≤ maxFunctions ∧
    (∃ i, s.data.calls = s.round.called ++ (s.round.registered.drop i).reverse) ∧
    (s.inside = none → s.data.calls = s.round.called ∧
      s.data.functions.take s.data.count = s.round.registered.map some) ∧
    ∀ op pc, s.inside = some (op, pc) → ((guard reenters).step s.data pc = none ↔ pc = .reenter) := by
  have hm := h.meaning reenters s
  unfold Locked.Meaning at hm
  cases hi : s.inside with
  | none =>
    rw [hi] at hm
    have hrest : Rest s.round s.data := hm
    refine ⟨hrest.holds.nodup, hrest.holds.room, ⟨s.round.registered.length, ?_⟩,
      fun _ => ⟨hrest.calls, hrest.holds.functions⟩, nofun⟩
    rw [hrest.calls, List.drop_length, List.reverse_nil, List.append_nil]
  | some held =>
    obtain ⟨op, pc⟩ := held
    have hs := h.stands reenters s op pc hi
    obtain ⟨hh, hcalls⟩ := hs.called
    refine ⟨hh.nodup, hh.room, hcalls, nofun, ?_⟩
    intro op' pc' heq
    obtain ⟨rfl, rfl⟩ := Prod.mk.inj (Option.some.inj heq)
    exact step_none_iff reenters _ _ _ _ hs

variable {reenters}

/-- One step with the lock. -/
theorem Reached.snoc_step (s : State F) (h : Reached reenters s) (op : Op F) (pc : Pc F) (r : Registry F)
    (next : Option (Pc F)) (hi : s.inside = some (op, pc)) (hstep : step reenters s.data pc = some (r, next)) :
    ∃ t, Locked.next (guard reenters) s .step = some t ∧ Reached reenters t ∧
      t.inside = next.map (Prod.mk op) ∧ t.history = s.history ++ if next.isNone then [op] else [] := by
  have hnext : Locked.next (guard reenters) s .step = some (match next with
      | some pc' => { s with data := r, inside := some (op, pc') }
      | none => { s with data := r, inside := none, history := s.history ++ [op] }) := by
    simp only [Locked.next, hi, guard, hstep, Option.bind_eq_bind, Option.bind_some]
    cases next <;> rfl
  refine ⟨_, hnext, .snoc s _ .step h trivial hnext, ?_, ?_⟩
  · cases next <;> rfl
  · cases next with
    | some pc' => exact (List.append_nil _).symm
    | none => rfl

/-- The round is cleared. -/
theorem clear_ends (s₀ s : State F) (run : Steps (Locked.next (guard reenters)) (fun _ _ => True) s₀ s)
    (h : Reached reenters s) (hi : s.inside = some (.shutdownAll, .clear)) :
    ∃ t, Steps (Locked.next (guard reenters)) (fun _ _ => True) s₀ t ∧ t.history = s.history ++ [.shutdownAll] := by
  obtain ⟨t, hnext, -, -, hhist⟩ := h.snoc_step s _ _ _ none hi rfl
  exact ⟨t, .snoc s t .step run trivial hnext, hhist⟩

/-- A round without functions that use the registry runs to its end. -/
theorem call_ends (s₀ : State F) (i : Nat) (s : State F)
    (run : Steps (Locked.next (guard reenters)) (fun _ _ => True) s₀ s) (h : Reached reenters s)
    (hi : s.inside = some (.shutdownAll, .call i)) (hquiet : ∀ f ∈ s.round.registered, reenters f = false) :
    ∃ t, Steps (Locked.next (guard reenters)) (fun _ _ => True) s₀ t ∧ t.history = s.history ++ [.shutdownAll] := by
  induction i generalizing s with
  | zero =>
    obtain ⟨t, hnext, ht, hin, hhist⟩ := h.snoc_step s _ _ _ (some .clear) hi rfl
    obtain ⟨u, hu, huhist⟩ := clear_ends s₀ t (.snoc s t .step run trivial hnext) ht hin
    refine ⟨u, hu, ?_⟩
    rw [huhist, hhist]
    simp
  | succ i ih =>
    have hs := h.stands reenters s _ _ hi
    obtain ⟨f, hf, hget⟩ := hs.1.get _ _ i hs.2.2.1
    have hstep : step reenters s.data (.call (i + 1)) =
        some ({ s.data with calls := s.data.calls ++ [f] }, some (.call i)) := by
      rw [step, hget]
      simp [hquiet f (List.mem_of_getElem? hf)]
    obtain ⟨t, hnext, ht, hin, hhist⟩ := h.snoc_step s _ _ _ _ hi hstep
    have hsame : t.history = s.history := hhist.trans (List.append_nil _)
    have hround : State.round t = State.round s := congrArg (fun l => l.foldl Round.apply (Round.empty F)) hsame
    obtain ⟨u, hu, huhist⟩ := ih t (.snoc s t .step run trivial hnext) ht hin (by rw [hround]; exact hquiet)
    exact ⟨u, hu, by rw [huhist, hsame]⟩

/-- A round with a function that uses the registry keeps the lock. -/
theorem shutdown_stays (s : State F) (h : Reached reenters s) (f : F) (hf : f ∈ s.round.registered)
    (hr : reenters f = true) (pc : Pc F) (hi : s.inside = some (.shutdownAll, pc)) (t : State F)
    (run : Steps (Locked.next (guard reenters)) (fun _ _ => True) s t) : t.history = s.history := by
  have hinv : Reached reenters t ∧ t.history = s.history ∧ ∃ pc, t.inside = some (.shutdownAll, pc) := by
    refine run.invariant _ _ (fun t => Reached reenters t ∧ t.history = s.history ∧
      ∃ pc, t.inside = some (.shutdownAll, pc)) _ _ ⟨h, rfl, pc, hi⟩ ?_
    intro t l t' ht _ hn
    obtain ⟨htr, hhist, pc, hin⟩ := ht
    refine ⟨.snoc t t' l htr trivial hn, ?_⟩
    cases l with
    | call op =>
      obtain rfl := Option.some.inj hn
      exact ⟨hhist, pc, hin⟩
    | acquire i =>
      obtain ⟨hnone, -⟩ := Locked.next_acquire _ t t' i hn
      cases hnone.symm.trans hin
    | step =>
      obtain ⟨op, pc', r, hin', hstep⟩ := Locked.next_step _ t t' hn
      obtain ⟨rfl, rfl⟩ := Prod.mk.inj (Option.some.inj (hin'.symm.trans hin))
      rcases hstep with ⟨pc'', -, rfl⟩ | ⟨hleave, -⟩
      · exact ⟨hhist, pc'', rfl⟩
      have hs := htr.stands reenters t _ _ hin
      have hround : State.round t = State.round s :=
        congrArg (fun l => l.foldl Round.apply (Round.empty F)) hhist
      cases pc' with
      | clear =>
        have hquiet := hs.2.2.2 f (hround ▸ hf)
        rw [hr] at hquiet
        cases hquiet
      | call i =>
        obtain ⟨pc, hpc, -⟩ := stands_call reenters _ _ _ _ i none hs hleave
        cases hpc
      | scan fn i => cases hs.2.1
      | store fn => cases hs.2.1
      | reenter => cases hleave
  exact hinv.2.1

end runs

/-- A shutdown that has begun can end if and only if none of the registered functions uses the registry. Where one
does, no operation of any thread ends any more. -/
theorem shutdown_ends_iff {F : Type} [DecidableEq F] (reenters : F → Bool) (s : State F) (h : Reached reenters s)
    (pc : Pc F) (hi : s.inside = some (.shutdownAll, pc)) :
    (∃ t, Steps (Locked.next (guard reenters)) (fun _ _ => True) s t ∧ t.history ≠ s.history) ↔
      ∀ f ∈ s.round.registered, reenters f = false := by
  constructor
  · intro ⟨t, run, hne⟩ f hf
    by_contra hr
    exact hne (shutdown_stays s h f hf (eq_true_of_ne_false hr) pc hi t run)
  · intro hquiet
    have hend : ∃ t, Steps (Locked.next (guard reenters)) (fun _ _ => True) s t ∧
        t.history = s.history ++ [.shutdownAll] := by
      have hs := h.stands reenters s _ _ hi
      cases pc with
      | call i => exact call_ends s i s .refl h hi hquiet
      | clear => exact clear_ends s s .refl h hi
      | reenter =>
        obtain ⟨-, -, i, -, -, f, hf, hr⟩ := hs
        rw [hquiet f (List.mem_of_getElem? hf)] at hr
        cases hr
      | scan fn i => cases hs.2.1
      | store fn => cases hs.2.1
    obtain ⟨t, run, hhist⟩ := hend
    refine ⟨t, run, fun heq => ?_⟩
    have hlen := congrArg List.length (hhist.symm.trans heq)
    rw [List.length_append] at hlen
    exact absurd hlen (by simp)

/-- Two functions are registered, one of them twice. -/
def registerTwo : List (Locked.Label (Op Nat)) :=
  [.call (.registerFn 7), .call (.registerFn 8), .call (.registerFn 7), .acquire 0, .step, .step,
    .acquire 0, .step, .step, .step, .acquire 0, .step]

/-- They are called. -/
def shutdownTwo : List (Locked.Label (Op Nat)) :=
  registerTwo ++ [.call .shutdownAll, .acquire 0, .step, .step, .step, .step]

theorem registry_atomic_two :
    ∃ s : State Nat, exec (guarded (Locked.next (guard fun _ => false)) fun _ _ => True)
        (Locked.initial (Registry.empty Nat)) shutdownTwo = some s ∧
      s.round.called = [8, 7] ∧ s.data.calls = [8, 7] := by
  have hrun : (exec (guarded (Locked.next (guard fun _ => false)) fun _ _ => True)
      (Locked.initial (Registry.empty Nat)) shutdownTwo).any
        (fun s => s.inside = none ∧ (State.round s).called = [8, 7]) = true := by decide
  obtain ⟨s, hs, hp⟩ := (Option.any_eq_true _ _).mp hrun
  obtain ⟨hi, hcalled⟩ := of_decide_eq_true hp
  have h := registry_atomic (fun _ => false) s (steps_of_guarded _ _ _ _ _ hs)
  exact ⟨s, hs, hcalled, (h.2.2.2.1 hi).1.trans hcalled⟩

/-- The second function uses the registry. -/
theorem shutdown_ends_iff_two :
    ∃ s : State Nat, exec (guarded (Locked.next (guard fun f => f == 8)) fun _ _ => True)
        (Locked.initial (Registry.empty Nat)) (registerTwo ++ [.call .shutdownAll, .acquire 0]) = some s ∧
      ¬ ∃ t, Steps (Locked.next (guard fun f => f == 8)) (fun _ _ => True) s t ∧ t.history ≠ s.history := by
  have hrun : (exec (guarded (Locked.next (guard fun f => f == 8)) fun _ _ => True)
      (Locked.initial (Registry.empty Nat)) (registerTwo ++ [.call .shutdownAll, .acquire 0])).any
        (fun s => s.inside = some (.shutdownAll, .call 2) ∧ 8 ∈ (State.round s).registered) = true := by decide
  obtain ⟨s, hs, hp⟩ := (Option.any_eq_true _ _).mp hrun
  obtain ⟨hi, hmem⟩ := of_decide_eq_true hp
  refine ⟨s, hs, fun hends => ?_⟩
  have hquiet := (shutdown_ends_iff (fun f => f == 8) s (steps_of_guarded _ _ _ _ _ hs) _ hi).mp hends 8 hmem
  cases hquiet

end Espbase.ShutdownRegistry
