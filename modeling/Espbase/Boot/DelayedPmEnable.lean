import Espbase.Lib.Handles
import Espbase.Lib.Interleaving

namespace Espbase.Boot.Pm

open Espbase.Lib

inductive PmState where
  | bootWindowNoOverride
  | bootWindowAllowOverride
  | pmActiveAllowOverride
  | pmActiveNoOverride
  | pmOverridden
  deriving DecidableEq

/-- A function that is pended to the daemon task of the FreeRTOS timers. -/
inductive Pended where
  /-- `apply_pm_override` -/
  | applyPmOverride
  /-- `delete_timer_deferred` -/
  | deleteTimer (h : Option Nat)
  deriving DecidableEq

/-- The variables of the file, and what its calls have done to the chip. -/
structure Chip where
  state : PmState
  timerHandle : Option Nat
  /-- the timers of `esp_timer`, each with whether it runs -/
  timers : Handles Bool
  /-- the interrupt of the pin is enabled -/
  interrupt : Bool
  /-- `boot_button_isr` is its handler -/
  handler : Bool
  /-- the calls of `esp_pm_configure` that succeeded -/
  configured : Nat
  /-- the override locks that were acquired -/
  locks : Nat
  pended : List Pended
  /-- a timer was deleted that did not exist -/
  misuse : Bool
  /-- `ESP_ERROR_CHECK` has aborted -/
  aborted : Bool
  deriving DecidableEq

def Chip.booted : Chip :=
  ⟨.bootWindowNoOverride, none, .empty, false, false, 0, 0, [], false, false⟩

/-- The members of `DelayedPmEnableConfig` that the state depends on. -/
structure Config where
  disableSleepOnGpio0Press : Bool
  allowOverrideAfterBootWindow : Bool
  deriving DecidableEq

/-- Where `delayed_pm_enable` stands. -/
inductive EnablePc where
  | storeState
  /-- `gpio_config` -/
  | gpioConfig
  /-- `gpio_isr_handler_add` -/
  | addHandler
  /-- `esp_timer_create` -/
  | create
  /-- `esp_timer_start_once` -/
  | startOnce
  deriving DecidableEq

/-- `ok`: the timer can be created. -/
def EnablePc.step (cfg : Config) (ok : Bool) (c : Chip) : EnablePc → Chip × Option EnablePc
  | .storeState =>
    if cfg.disableSleepOnGpio0Press then
      (if cfg.allowOverrideAfterBootWindow then { c with state := .bootWindowAllowOverride } else c,
        some .gpioConfig)
    else (c, some .create)
  | .gpioConfig => ({ c with interrupt := true }, some .addHandler)
  | .addHandler => ({ c with handler := true }, some .create)
  | .create =>
    if ok then
      ({ c with timerHandle := some c.timers.fresh, timers := c.timers.create false }, some .startOnce)
    else ({ c with aborted := true }, none)
  | .startOnce =>
    match c.timerHandle with
    | some h => ({ c with timers := c.timers.modify h fun _ => true }, none)
    | none => ({ c with aborted := true }, none)

/-- Where `boot_button_isr` stands. -/
inductive IsrPc where
  | read
  /-- `s_state = PmState::PM_OVERRIDDEN` -/
  | write (wasActive : PmState)
  /-- `gpio_set_intr_type` -/
  | disable (wasActive : PmState)
  /-- `xTimerPendFunctionCallFromISR`, after its test -/
  | pend (wasActive : PmState)
  deriving DecidableEq

/-- `ok`: the queue of the daemon has room. -/
def IsrPc.step (ok : Bool) (c : Chip) : IsrPc → Chip × Option IsrPc
  | .read => (c, some (.write c.state))
  | .write wasActive => ({ c with state := .pmOverridden }, some (.disable wasActive))
  | .disable wasActive => ({ c with interrupt := false }, some (.pend wasActive))
  | .pend wasActive =>
    (if wasActive = .pmActiveAllowOverride ∧ ok then { c with pended := c.pended ++ [.applyPmOverride] } else c,
      none)

/-- Where `delayed_pm_callback` stands. -/
inductive CallbackPc where
  /-- `s_state == PmState::BOOT_WINDOW_NO_OVERRIDE` -/
  | testNo
  /-- `s_state == PmState::BOOT_WINDOW_ALLOW_OVERRIDE` -/
  | testAllow
  /-- `esp_pm_configure` -/
  | configure
  /-- the read for the new state -/
  | choose
  | write (state : PmState)
  /-- `xTimerPendFunctionCall`, which waits for room -/
  | pendDelete
  deriving DecidableEq

/-- `ok`: power management can be configured. -/
def CallbackPc.step (ok : Bool) (c : Chip) : CallbackPc → Chip × Option CallbackPc
  | .testNo => (c, some (if c.state = .bootWindowNoOverride then .configure else .testAllow))
  | .testAllow => (c, some (if c.state = .bootWindowAllowOverride then .configure else .pendDelete))
  | .configure =>
    if ok then ({ c with configured := c.configured + 1 }, some .choose) else ({ c with aborted := true }, none)
  | .choose =>
    (c, some (.write (if c.state = .bootWindowNoOverride then .pmActiveNoOverride else .pmActiveAllowOverride)))
  | .write state => ({ c with state }, some .pendDelete)
  | .pendDelete => ({ c with pended := c.pended ++ [.deleteTimer c.timerHandle] }, none)

/-- The override that is lost where there is no room for it. -/
def IsrPc.refuses (ok : Bool) : IsrPc → Nat
  | .pend .pmActiveAllowOverride => (!ok).toNat
  | _ => 0

/-- The daemon runs a pended function. `ok`: the lock can be created. -/
def Pended.run (ok : Bool) (c : Chip) : Pended → Chip
  | .applyPmOverride => if ok then { c with locks := c.locks + 1 } else c
  | .deleteTimer none => c
  | .deleteTimer (some h) =>
    match c.timers.get h with
    | none => { c with misuse := true }
    | some running => if running then c else { c with timers := c.timers.delete h }

/-- The override that is lost where its lock cannot be created. -/
def Pended.refuses (ok : Bool) : Pended → Nat
  | .applyPmOverride => (!ok).toNat
  | .deleteTimer _ => 0

/-- The chip, where its code stands, and what is recorded. -/
structure State where
  chip : Chip
  enable : Option EnablePc
  isr : Option IsrPc
  callback : Option CallbackPc
  /-- the interrupts that have run or run -/
  presses : Nat
  /-- the times the timer has fired -/
  firings : Nat
  /-- the overrides that were lost for want of room or memory -/
  refused : Nat
  deriving DecidableEq

inductive Label where
  | enable (ok : Bool)
  /-- the button is pressed, and the interrupt taken -/
  | press
  | isr (ok : Bool)
  /-- the timer of a handle fires -/
  | fire (h : Nat)
  | callback (ok : Bool)
  | daemon (ok : Bool)
  deriving DecidableEq

namespace State

/-- `delayed_pm_enable` is called. -/
def called : State := ⟨.booted, some .storeState, none, none, 0, 0, 0⟩

/-- One step of the whole system. The interrupt does not interrupt itself. -/
def step (cfg : Config) (s : State) : Label → Option State
  | .enable ok => do
    let pc ← s.enable
    let (chip, enable) := pc.step cfg ok s.chip
    some { s with chip, enable }
  | .press =>
    if s.chip.interrupt ∧ s.chip.handler ∧ s.isr = none then
      some { s with isr := some .read, presses := s.presses + 1 }
    else none
  | .isr ok => do
    let pc ← s.isr
    let (chip, isr) := pc.step ok s.chip
    some { s with chip, isr, refused := s.refused + pc.refuses ok }
  | .fire h =>
    if s.callback = none ∧ s.chip.timers.get h = some true then
      some { s with
        chip := { s.chip with timers := s.chip.timers.modify h fun _ => false }
        callback := some .testNo
        firings := s.firings + 1 }
    else none
  | .callback ok => do
    let pc ← s.callback
    let (chip, callback) := pc.step ok s.chip
    some { s with chip, callback }
  | .daemon ok =>
    match s.chip.pended with
    | [] => none
    | p :: pended => some { s with
        chip := p.run ok { s.chip with pended }
        refused := s.refused + p.refuses ok }

/-- After an abort there is no step. -/
def next (cfg : Config) (s : State) (l : Label) : Option State := if s.chip.aborted then none else s.step cfg l

section inversion
variable (cfg : Config) (s s' : State)

theorem next_step (l : Label) (h : s.next cfg l = some s') : s.step cfg l = some s' := by
  unfold next at h
  split_ifs at h
  exact h

theorem step_enable (ok : Bool) (h : s.step cfg (.enable ok) = some s') :
    ∃ pc, s.enable = some pc ∧
      s' = { s with chip := (pc.step cfg ok s.chip).1, enable := (pc.step cfg ok s.chip).2 } := by
  simp only [step, Option.bind_eq_bind, Option.bind_eq_some_iff] at h
  obtain ⟨pc, hpc, h⟩ := h
  exact ⟨pc, hpc, (Option.some.inj h).symm⟩

theorem step_press (h : s.step cfg .press = some s') :
    s.chip.interrupt = true ∧ s.chip.handler = true ∧ s.isr = none ∧
      s' = { s with isr := some .read, presses := s.presses + 1 } := by
  simp only [step] at h
  split_ifs at h with hp
  exact ⟨hp.1, hp.2.1, hp.2.2, (Option.some.inj h).symm⟩

theorem step_isr (ok : Bool) (h : s.step cfg (.isr ok) = some s') :
    ∃ pc, s.isr = some pc ∧ s' = { s with
      chip := (pc.step ok s.chip).1
      isr := (pc.step ok s.chip).2
      refused := s.refused + pc.refuses ok } := by
  simp only [step, Option.bind_eq_bind, Option.bind_eq_some_iff] at h
  obtain ⟨pc, hpc, h⟩ := h
  exact ⟨pc, hpc, (Option.some.inj h).symm⟩

theorem step_fire (h : Nat) (hn : s.step cfg (.fire h) = some s') :
    s.callback = none ∧ s.chip.timers.get h = some true ∧ s' = { s with
      chip := { s.chip with timers := s.chip.timers.modify h fun _ => false }
      callback := some .testNo
      firings := s.firings + 1 } := by
  simp only [step] at hn
  split_ifs at hn with hf
  exact ⟨hf.1, hf.2, (Option.some.inj hn).symm⟩

theorem step_callback (ok : Bool) (h : s.step cfg (.callback ok) = some s') :
    ∃ pc, s.callback = some pc ∧
      s' = { s with chip := (pc.step ok s.chip).1, callback := (pc.step ok s.chip).2 } := by
  simp only [step, Option.bind_eq_bind, Option.bind_eq_some_iff] at h
  obtain ⟨pc, hpc, h⟩ := h
  exact ⟨pc, hpc, (Option.some.inj h).symm⟩

theorem step_daemon (ok : Bool) (h : s.step cfg (.daemon ok) = some s') :
    ∃ p pended, s.chip.pended = p :: pended ∧ s' = { s with
      chip := p.run ok { s.chip with pended }
      refused := s.refused + p.refuses ok } := by
  simp only [step] at h
  cases hp : s.chip.pended with
  | nil =>
    rw [hp] at h
    cases h
  | cons p pended =>
    rw [hp] at h
    exact ⟨p, pended, rfl, (Option.some.inj h).symm⟩

end inversion

end State

end Espbase.Boot.Pm
