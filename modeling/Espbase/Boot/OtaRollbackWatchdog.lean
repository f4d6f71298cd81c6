import Espbase.Lib.Handles
import Espbase.Lib.Interleaving

namespace Espbase.Boot.Ota

open Espbase.Lib

/-- `esp_ota_img_states_t` -/
inductive ImgState where
  | new
  | pendingVerify
  | valid
  | invalid
  | aborted
  | undefined
  deriving DecidableEq

/-- What resets the chip. -/
inductive Reset where
  /-- `esp_restart()` of the watchdog -/
  | watchdog
  /-- `ESP_ERROR_CHECK(esp_timer_create(..))` aborts -/
  | createFailed
  /-- `ESP_ERROR_CHECK(esp_timer_start_once(..))` aborts -/
  | startFailed
  deriving DecidableEq

/-- The variables of the file, the state of the running partition (nothing where it cannot be read) and the
timers of `esp_timer`, each with whether it runs. -/
structure Chip where
  otaState : Option ImgState
  startupChecks : Int32
  watchdogTimer : Option Nat
  timers : Handles Bool
  /-- a timer was used after its deletion -/
  misuse : Bool
  reset : Option Reset
  deriving DecidableEq

namespace Chip
variable (c : Chip)

def booted (otaState : Option ImgState) : Chip := ⟨otaState, 0, none, .empty, false, none⟩

/-- A call on the timer of a handle; for a null handle it returns an error. -/
def onTimer (handle : Option Nat) (f : Nat → Bool → Chip) : Chip :=
  match handle with
  | none => c
  | some h =>
    match c.timers.get h with
    | none => { c with misuse := true }
    | some running => f h running

@[simp] theorem onTimer_null (f : Nat → Bool → Chip) : c.onTimer none f = c := rfl

theorem onTimer_dead (f : Nat → Bool → Chip) (h : Nat) (hg : c.timers.get h = none) :
    c.onTimer (some h) f = { c with misuse := true } := by
  simp only [onTimer, hg]

theorem onTimer_live (f : Nat → Bool → Chip) (h : Nat) (running : Bool) (hg : c.timers.get h = some running) :
    c.onTimer (some h) f = f h running := by
  simp only [onTimer, hg]

/-- `esp_timer_start_once` under `ESP_ERROR_CHECK`, which aborts for a null handle and for a running timer. -/
def timerStartOnce (handle : Option Nat) : Chip :=
  if handle = none then { c with reset := some .startFailed }
  else c.onTimer handle fun h running =>
    if running then { c with reset := some .startFailed }
    else { c with timers := c.timers.modify h fun _ => true }

def timerStop (handle : Option Nat) : Chip :=
  c.onTimer handle fun h _ => { c with timers := c.timers.modify h fun _ => false }

/-- A running timer is not deleted. -/
def timerDelete (handle : Option Nat) : Chip :=
  c.onTimer handle fun h running => if running then c else { c with timers := c.timers.delete h }

/-- What an operation on timers leaves alone. -/
structure TimersOnly (c c' : Chip) : Prop where
  otaState : c'.otaState = c.otaState
  startupChecks : c'.startupChecks = c.startupChecks
  watchdog : c'.reset = some .watchdog → c.reset = some .watchdog

section only
variable (handle : Option Nat)

theorem onTimer_only (f : Nat → Bool → Chip) (hf : ∀ h running, TimersOnly c (f h running)) :
    TimersOnly c (c.onTimer handle f) := by
  cases handle with
  | none => exact ⟨rfl, rfl, id⟩
  | some h =>
    cases hg : c.timers.get h with
    | none =>
      rw [c.onTimer_dead f h hg]
      exact ⟨rfl, rfl, id⟩
    | some running =>
      rw [c.onTimer_live f h running hg]
      exact hf h running

theorem timerStartOnce_only : TimersOnly c (c.timerStartOnce handle) := by
  unfold timerStartOnce
  split_ifs
  · exact ⟨rfl, rfl, nofun⟩
  · apply onTimer_only
    intro h running
    split_ifs
    · exact ⟨rfl, rfl, nofun⟩
    · exact ⟨rfl, rfl, id⟩

theorem timerStop_only : TimersOnly c (c.timerStop handle) := by
  apply onTimer_only
  intro h running
  exact ⟨rfl, rfl, id⟩

theorem timerDelete_only : TimersOnly c (c.timerDelete handle) := by
  apply onTimer_only
  intro h running
  split_ifs <;> exact ⟨rfl, rfl, id⟩

end only

end Chip

/-- Where `mark_ota_valid` stands. -/
inductive MarkPc where
  /-- `esp_ota_get_state_partition` -/
  | readState
  /-- `esp_ota_mark_app_valid_cancel_rollback` -/
  | markValid
  /-- `if (s_watchdog_timer)` -/
  | testTimer
  | stop
  | delete
  | clear
  deriving DecidableEq

/-- `ok`: the state can be written. -/
def MarkPc.step (ok : Bool) (c : Chip) : MarkPc → Chip × Option MarkPc
  | .readState => (c, if c.otaState = some .pendingVerify then some .markValid else none)
  | .markValid => (if ok then { c with otaState := some .valid } else c, some .testTimer)
  | .testTimer => (c, if c.watchdogTimer = none then none else some .stop)
  | .stop => (c.timerStop c.watchdogTimer, some .delete)
  | .delete => (c.timerDelete c.watchdogTimer, some .clear)
  | .clear => ({ c with watchdogTimer := none }, none)

/-- Where `start_ota_rollback_watchdog` stands. -/
inductive StartPc where
  | store (checks : Int32)
  | readState
  /-- `esp_timer_create` -/
  | create
  /-- `esp_timer_start_once` -/
  | startOnce
  deriving DecidableEq

/-- `ok`: the timer can be created. -/
def StartPc.step (ok : Bool) (c : Chip) : StartPc → Chip × Option StartPc
  | .store checks => ({ c with startupChecks := checks }, some .readState)
  | .readState => (c, if c.otaState = some .pendingVerify then some .create else none)
  | .create =>
    if ok then
      ({ c with watchdogTimer := some c.timers.fresh, timers := c.timers.create false }, some .startOnce)
    else ({ c with reset := some .createFailed }, none)
  | .startOnce => (c.timerStartOnce c.watchdogTimer, none)

inductive Call where
  | start (pc : StartPc)
  /-- `--startup_checks == 0` of `startup_gate_passed` -/
  | gate
  | mark (pc : MarkPc)
  deriving DecidableEq

def Call.step (ok : Bool) (c : Chip) : Call → Chip × Option Call
  | .start pc => ((pc.step ok c).1, (pc.step ok c).2.map .start)
  | .gate =>
    ({ c with startupChecks := c.startupChecks - 1 },
      if c.startupChecks - 1 = 0 then some (.mark .readState) else none)
  | .mark pc => ((pc.step ok c).1, (pc.step ok c).2.map .mark)

/-- Where `watchdog_timer_callback` stands. -/
inductive CallbackPc where
  | readState
  /-- `esp_restart()` -/
  | restart
  deriving DecidableEq

def CallbackPc.step (c : Chip) : CallbackPc → Chip × Option CallbackPc
  | .readState => (c, if c.otaState = some .pendingVerify then some .restart else none)
  | .restart => ({ c with reset := some .watchdog }, none)

inductive Entry where
  | start (checks : Int32)
  | gatePassed
  | markValid
  deriving DecidableEq

def Entry.call : Entry → Call
  | .start checks => .start (.store checks)
  | .gatePassed => .gate
  | .markValid => .mark .readState

/-- The chip, the calls in progress and the callback that the timer task runs. -/
structure State where
  chip : Chip
  calls : List Call
  callback : Option CallbackPc
  deriving DecidableEq

inductive Label where
  | begin (e : Entry)
  /-- one step of the `i`th call -/
  | call (i : Nat) (ok : Bool)
  /-- the timer of a handle fires -/
  | fire (h : Nat)
  | callback
  deriving DecidableEq

namespace State

def booted (otaState : Option ImgState) : State := ⟨.booted otaState, [], none⟩

/-- One step of the whole system; a chip that has been reset makes none. -/
def next (s : State) (l : Label) : Option State :=
  if s.chip.reset.isSome then none
  else match l with
    | .begin e => some { s with calls := s.calls ++ [e.call] }
    | .call i ok => do
      let c ← s.calls[i]?
      let (chip, c') := c.step ok s.chip
      some { s with chip, calls := s.calls.take i ++ c'.toList ++ s.calls.drop (i + 1) }
    | .fire h =>
      if s.callback = none ∧ s.chip.timers.get h = some true then
        some { s with
          chip := { s.chip with timers := s.chip.timers.modify h fun _ => false }
          callback := some .readState }
      else none
    | .callback => do
      let pc ← s.callback
      let (chip, callback) := pc.step s.chip
      some { s with chip, callback }

section inversion
variable (s s' : State)

theorem next_begin (e : Entry) (h : s.next (.begin e) = some s') :
    s' = { s with calls := s.calls ++ [e.call] } := by
  unfold next at h
  split_ifs at h
  exact (Option.some.inj h).symm

theorem next_call (i : Nat) (ok : Bool) (h : s.next (.call i ok) = some s') :
    ∃ c, s.calls[i]? = some c ∧ s' = { s with
      chip := (c.step ok s.chip).1
      calls := s.calls.take i ++ (c.step ok s.chip).2.toList ++ s.calls.drop (i + 1) } := by
  unfold next at h
  split_ifs at h
  simp only [Option.bind_eq_bind, Option.bind_eq_some_iff] at h
  obtain ⟨c, hc, h⟩ := h
  exact ⟨c, hc, (Option.some.inj h).symm⟩

theorem next_fire (h : Nat) (hn : s.next (.fire h) = some s') :
    s.callback = none ∧ s.chip.timers.get h = some true ∧ s' = { s with
      chip := { s.chip with timers := s.chip.timers.modify h fun _ => false }
      callback := some .readState } := by
  unfold next at hn
  split_ifs at hn
  dsimp only at hn
  split_ifs at hn with hf
  exact ⟨hf.1, hf.2, (Option.some.inj hn).symm⟩

theorem next_callback (h : s.next .callback = some s') :
    ∃ pc, s.callback = some pc ∧
      s' = { s with chip := (pc.step s.chip).1, callback := (pc.step s.chip).2 } := by
  unfold next at h
  split_ifs at h
  simp only [Option.bind_eq_bind, Option.bind_eq_some_iff] at h
  obtain ⟨pc, hpc, h⟩ := h
  exact ⟨pc, hpc, (Option.some.inj h).symm⟩

end inversion

end State

end Espbase.Boot.Ota
