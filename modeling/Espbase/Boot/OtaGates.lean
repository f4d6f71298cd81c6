import Espbase.Boot.OtaRollbackWatchdog

namespace Espbase.Boot.Ota

open Espbase.Lib

/-- What is recorded of the gates. -/
structure Trace where
  /-- the checks that the last start has stored -/
  checks : Int32
  /-- the gates that have passed since -/
  passed : Nat
  /-- those of them that went on to `mark_ota_valid` -/
  opened : Nat
  /-- for each gate that ever went on, the checks stored and the gates passed -/
  opens : List (Int32 × Nat)
  deriving DecidableEq

def Trace.next (r : Trace) (s : State) : Label → Trace
  | .call i _ =>
    match s.calls[i]? with
    | some (.start (.store checks)) => { r with checks, passed := 0, opened := 0 }
    | some .gate =>
      if s.chip.startupChecks - 1 = 0 then { r with
        passed := r.passed + 1
        opened := r.opened + 1
        opens := r.opens ++ [(r.checks, r.passed + 1)] }
      else { r with passed := r.passed + 1 }
    | _ => r
  | _ => r

structure Traced where
  state : State
  trace : Trace
  deriving DecidableEq

namespace Traced

def next (t : Traced) (l : Label) : Option Traced :=
  (t.state.next l).map fun s => ⟨s, t.trace.next t.state l⟩

def booted (otaState : Option ImgState) : Traced := ⟨.booted otaState, ⟨0, 0, 0, []⟩⟩

/-- Nobody calls `mark_ota_valid` directly. -/
def ByGates (_ : Traced) (l : Label) : Prop := l ≠ .begin .markValid

instance (t : Traced) (l : Label) : Decidable (t.ByGates l) := inferInstanceAs (Decidable (_ ≠ _))

end Traced

theorem eq_ofNat_iff (checks : Int32) (n : Nat) :
    checks = Int32.ofNat n ↔ n % 2 ^ 32 = checks.toUInt32.toNat := by
  have hbits : checks = Int32.ofNat n ↔ checks.toUInt32 = UInt32.ofNat n := by
    refine ⟨fun h => congrArg Int32.toUInt32 h, fun h => ?_⟩
    cases checks
    exact congrArg Int32.ofUInt32 h
  rw [hbits, ← UInt32.toNat_inj, UInt32.toNat_ofNat']
  exact eq_comm

/-- The gate that counts down to 0 is the one whose number is that of the checks, as 32-bit numbers. -/
theorem sub_ofNat_eq_zero (checks : Int32) (n : Nat) :
    checks - Int32.ofNat n = 0 ↔ n % 2 ^ 32 = checks.toUInt32.toNat := by
  rw [Int32.sub_eq_iff_eq_add, Int32.zero_add, eq_ofNat_iff]

theorem sub_succ (checks : Int32) (n : Nat) :
    checks - Int32.ofNat n - 1 = checks - Int32.ofNat (n + 1) := by
  rw [Int32.sub_sub, Int32.ofNat_add]
  rfl

/-- The gates that open among the first `passed` ones. -/
def openings (checks : Int32) (passed : Nat) : Nat :=
  if 0 < checks.toUInt32.toNat ∧ checks.toUInt32.toNat ≤ passed then 1 else 0

theorem openings_succ (checks : Int32) (n : Nat) (hn : n + 1 < 2 ^ 32) :
    openings checks (n + 1) = openings checks n + if checks - Int32.ofNat (n + 1) = 0 then 1 else 0 := by
  unfold openings
  simp only [sub_ofNat_eq_zero, Nat.mod_eq_of_lt hn]
  split_ifs <;> omega

/-- A gate opens with no fewer gates passed than were asked for. -/
theorem le_of_opens (checks : Int32) (n : Nat) (h : checks - Int32.ofNat n = 0) :
    checks.toUInt32.toNat ≤ n := by
  rw [sub_ofNat_eq_zero] at h
  rw [← h]
  exact Nat.mod_le _ _

structure Counted (otaState : Option ImgState) (t : Traced) : Prop where
  count : t.state.chip.startupChecks = t.trace.checks - Int32.ofNat t.trace.passed
  opened : t.trace.passed < 2 ^ 32 → t.trace.opened = openings t.trace.checks t.trace.passed
  opens : ∀ e ∈ t.trace.opens, 0 < e.2 ∧ e.1.toUInt32.toNat ≤ e.2
  marks : ∀ c ∈ t.state.calls, ∀ pc, c = .mark pc → t.trace.opens ≠ []
  image : t.state.chip.otaState ≠ otaState → t.trace.opens ≠ []

theorem markPc_step_checks (ok : Bool) (c : Chip) (pc : MarkPc) :
    (pc.step ok c).1.startupChecks = c.startupChecks := by
  cases pc with
  | readState | testTimer | clear => rfl
  | markValid => cases ok <;> rfl
  | stop => exact (c.timerStop_only _).startupChecks
  | delete => exact (c.timerDelete_only _).startupChecks

theorem startPc_step_otaState (ok : Bool) (c : Chip) (pc : StartPc) :
    (pc.step ok c).1.otaState = c.otaState := by
  cases pc with
  | store checks => rfl
  | readState => rfl
  | create => cases ok <;> rfl
  | startOnce => exact (c.timerStartOnce_only _).otaState

theorem startPc_step_checks (ok : Bool) (c : Chip) (pc : StartPc) (hpc : ∀ checks, pc ≠ .store checks) :
    (pc.step ok c).1.startupChecks = c.startupChecks := by
  cases pc with
  | store checks => exact absurd rfl (hpc checks)
  | readState => rfl
  | create => cases ok <;> rfl
  | startOnce => exact (c.timerStartOnce_only _).startupChecks

theorem callbackPc_step_image (c : Chip) (pc : CallbackPc) :
    (pc.step c).1.otaState = c.otaState ∧ (pc.step c).1.startupChecks = c.startupChecks := by
  cases pc with
  | readState => exact ⟨rfl, rfl⟩
  | restart => exact ⟨rfl, rfl⟩

section steps
variable (otaState : Option ImgState) (t : Traced) (h : Counted otaState t)
include h

theorem counted_begin (e : Entry) (he : e ≠ .markValid) :
    Counted otaState ⟨{ t.state with calls := t.state.calls ++ [e.call] }, t.trace⟩ := by
  refine ⟨h.count, h.opened, h.opens, ?_, h.image⟩
  intro c hc pc hpc
  rcases List.mem_append.mp hc with hc | hc
  · exact h.marks c hc pc hpc
  · obtain rfl := List.mem_singleton.mp hc
    cases e with
    | start checks => cases hpc
    | gatePassed => cases hpc
    | markValid => exact absurd rfl he

/-- A gate counts down, and goes on when it reaches 0. -/
theorem counted_gate (i : Nat) (ok : Bool) (hc : t.state.calls[i]? = some .gate) (calls : List Call)
    (hcalls : ∀ d ∈ calls, d ∈ (Call.gate.step ok t.state.chip).2 ∨ d ∈ t.state.calls) :
    Counted otaState ⟨{ t.state with chip := (Call.gate.step ok t.state.chip).1, calls },
      t.trace.next t.state (.call i ok)⟩ := by
  have hcount : t.state.chip.startupChecks - 1 = t.trace.checks - Int32.ofNat (t.trace.passed + 1) := by
    rw [h.count, sub_succ]
  have hopened (hn : t.trace.passed + 1 < 2 ^ 32) : t.trace.opened = openings t.trace.checks t.trace.passed :=
    h.opened (by omega)
  simp only [Trace.next, hc]
  by_cases hz : t.state.chip.startupChecks - 1 = 0
  · rw [if_pos hz]
    have hopens : t.trace.opens ++ [(t.trace.checks, t.trace.passed + 1)] ≠ [] := by simp
    refine ⟨hcount, ?_, ?_, fun _ _ _ _ => hopens, fun _ => hopens⟩
    · intro hn
      dsimp only at hn ⊢
      rw [openings_succ _ _ hn, hopened hn, ← hcount, if_pos hz]
    · intro e he
      rcases List.mem_append.mp he with he | he
      · exact h.opens e he
      · obtain rfl := List.mem_singleton.mp he
        exact ⟨Nat.succ_pos _, le_of_opens _ _ (hcount ▸ hz)⟩
  · rw [if_neg hz]
    refine ⟨hcount, ?_, h.opens, ?_, h.image⟩
    · intro hn
      dsimp only at hn ⊢
      rw [openings_succ _ _ hn, hopened hn, ← hcount, if_neg hz]
      rfl
    · intro d hd pc hpc
      rcases hcalls d hd with hd | hd
      · simp only [Call.step, if_neg hz] at hd
        cases hd
      · exact h.marks d hd pc hpc

/-- A start sets the counter; nothing has passed since. -/
theorem counted_start (i : Nat) (ok : Bool) (pc : StartPc) (hc : t.state.calls[i]? = some (.start pc))
    (calls : List Call)
    (hcalls : ∀ d ∈ calls, d ∈ ((Call.start pc).step ok t.state.chip).2 ∨ d ∈ t.state.calls) :
    Counted otaState ⟨{ t.state with chip := ((Call.start pc).step ok t.state.chip).1, calls },
      t.trace.next t.state (.call i ok)⟩ := by
  have hmarks : ∀ d ∈ calls, ∀ m, d = .mark m → t.trace.opens ≠ [] := by
    intro d hd m hm
    rcases hcalls d hd with hd | hd
    · obtain ⟨pc', -, rfl⟩ := Option.map_eq_some_iff.mp hd
      cases hm
    · exact h.marks d hd m hm
  have himage : (pc.step ok t.state.chip).1.otaState ≠ otaState → t.trace.opens ≠ [] := by
    rw [startPc_step_otaState]
    exact h.image
  by_cases hstore : ∃ checks, pc = .store checks
  · obtain ⟨checks, rfl⟩ := hstore
    simp only [Trace.next, hc]
    refine ⟨?_, ?_, h.opens, hmarks, himage⟩
    · exact (Int32.sub_zero checks).symm
    · intro _
      unfold openings
      dsimp only
      split_ifs <;> omega
  · have hpc : ∀ checks, pc ≠ .store checks := fun checks he => hstore ⟨checks, he⟩
    have htrace : t.trace.next t.state (.call i ok) = t.trace := by
      cases pc with
      | store checks => exact absurd rfl (hpc checks)
      | _ => simp only [Trace.next, hc]
    rw [htrace]
    refine ⟨?_, h.opened, h.opens, hmarks, himage⟩
    exact (startPc_step_checks ok t.state.chip pc hpc).trans h.count

/-- Only a mark that a gate has begun changes the image. -/
theorem counted_mark (i : Nat) (ok : Bool) (pc : MarkPc) (hc : t.state.calls[i]? = some (.mark pc))
    (calls : List Call) :
    Counted otaState ⟨{ t.state with chip := ((Call.mark pc).step ok t.state.chip).1, calls },
      t.trace.next t.state (.call i ok)⟩ := by
  have hopens := h.marks _ (List.mem_of_getElem? hc) pc rfl
  simp only [Trace.next, hc]
  exact ⟨(markPc_step_checks ok t.state.chip pc).trans h.count, h.opened, h.opens, fun _ _ _ _ => hopens,
    fun _ => hopens⟩

theorem counted_next (l : Label) (t' : Traced) (hl : t.ByGates l) (hn : t.next l = some t') :
    Counted otaState t' := by
  obtain ⟨s', hs, rfl⟩ := Option.map_eq_some_iff.mp hn
  cases l with
  | begin e =>
    obtain rfl := State.next_begin _ _ e hs
    apply counted_begin otaState t h e
    rintro rfl
    exact hl rfl
  | call i ok =>
    obtain ⟨c, hc, rfl⟩ := State.next_call _ _ i ok hs
    have hcalls := pool_mem t.state.calls i (c.step ok t.state.chip).2
    cases c with
    | start pc => exact counted_start otaState t h i ok pc hc _ hcalls
    | gate => exact counted_gate otaState t h i ok hc _ hcalls
    | mark pc => exact counted_mark otaState t h i ok pc hc _
  | fire handle =>
    obtain ⟨-, -, rfl⟩ := State.next_fire _ _ handle hs
    exact ⟨h.count, h.opened, h.opens, h.marks, h.image⟩
  | callback =>
    obtain ⟨pc, -, rfl⟩ := State.next_callback _ _ hs
    have himage := callbackPc_step_image t.state.chip pc
    refine ⟨himage.2.trans h.count, h.opened, h.opens, h.marks, ?_⟩
    intro hne
    exact h.image (himage.1 ▸ hne)

end steps

theorem booted_counted (otaState : Option ImgState) : Counted otaState (.booted otaState) :=
  ⟨(Int32.sub_zero 0).symm, fun _ => rfl, nofun, nofun, fun h => absurd rfl h⟩

/-- In every run in which `mark_ota_valid` is left to the gates: exactly the gate opens whose number is that of
the checks, of the first 2^32 - 1 after a start; no gate opens with fewer passed; and the image stays as it was
at boot until one has opened. -/
theorem gates_guard (otaState : Option ImgState) (t : Traced)
    (run : Steps Traced.next Traced.ByGates (.booted otaState) t) :
    (t.trace.passed < 2 ^ 32 → t.trace.opened = openings t.trace.checks t.trace.passed) ∧
    (∀ e ∈ t.trace.opens, 0 < e.2 ∧ e.1.toUInt32.toNat ≤ e.2) ∧
    (t.state.chip.otaState ≠ otaState → t.trace.opens ≠ []) := by
  have h : Counted otaState t := run.invariant _ _ (Counted otaState) _ _ (booted_counted otaState)
    fun t l t' ht hl hn => counted_next otaState t ht l t' hl hn
  exact ⟨h.opened, h.opens, h.image⟩

/-- Two gates; the second one validates the image. -/
def Traced.twoGates : List Label :=
  .begin (.start 2) :: List.replicate 4 (.call 0 true) ++ [.begin .gatePassed, .begin .gatePassed] ++
    List.replicate 8 (.call 0 true)

theorem gates_guard_two :
    ∃ t, exec (guarded Traced.next Traced.ByGates) (.booted (some .pendingVerify)) Traced.twoGates = some t ∧
      t.state.chip.otaState = some .valid ∧ t.trace.opens = [(2, 2)] ∧
      t.trace.opened = openings t.trace.checks t.trace.passed := by
  have hrun : (exec (guarded Traced.next Traced.ByGates) (.booted (some .pendingVerify)) Traced.twoGates).any
      (fun t => t.state.chip.otaState = some .valid ∧ t.trace.opens = [(2, 2)] ∧ t.trace.passed = 2) =
        true := by decide
  obtain ⟨t, ht, hp⟩ := (Option.any_eq_true _ _).mp hrun
  obtain ⟨hv, ho, hpassed⟩ := of_decide_eq_true hp
  have h := gates_guard (some .pendingVerify) t (steps_of_guarded _ _ _ _ _ ht)
  exact ⟨t, ht, hv, ho, h.1 (by omega)⟩

end Espbase.Boot.Ota
