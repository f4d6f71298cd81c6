import Espbase.Boot.PmTimer

namespace Espbase.Boot.Pm

open Espbase.Lib

/-- The button overrides the configuration after the window. -/
def Config.allows (cfg : Config) : Bool := cfg.disableSleepOnGpio0Press && cfg.allowOverrideAfterBootWindow

/-- The state in the window. -/
def Config.boot (cfg : Config) : PmState :=
  if cfg.allows then .bootWindowAllowOverride else .bootWindowNoOverride

/-- The state after it. -/
def Config.active (cfg : Config) : PmState := if cfg.allows then .pmActiveAllowOverride else .pmActiveNoOverride

/-- The overrides that wait for the daemon. -/
def applications (pended : List Pended) : Nat := pended.count .applyPmOverride

/-- The overrides that were acquired, that wait, and that were lost. -/
def State.overrides (s : State) : Nat := s.chip.locks + applications s.chip.pended + s.refused

/-- The callback stands between its decision and the store of the new state. -/
def CallbackPc.configures : CallbackPc → Bool
  | .configure => true
  | .choose => true
  | .write _ => true
  | _ => false

def CallbackPc.stores : CallbackPc → Bool
  | .write _ => true
  | _ => false

def IsrPc.stores : IsrPc → Bool
  | .write _ => true
  | _ => false

namespace State

/-- The interrupt stores its state at no time between the callback's decision and its store, and the callback
at none between the interrupt's read and its store. -/
def Undisturbed (s : State) : Label → Prop
  | .isr _ => s.isr.any IsrPc.stores = true → s.callback.any CallbackPc.configures = false
  | .callback _ => s.callback.any CallbackPc.stores = true → s.isr.any IsrPc.stores = false
  | _ => True

instance (s : State) : (l : Label) → Decidable (s.Undisturbed l)
  | .isr _ => inferInstanceAs (Decidable (_ → _))
  | .callback _ => inferInstanceAs (Decidable (_ → _))
  | .enable _ => .isTrue trivial
  | .press => .isTrue trivial
  | .fire _ => .isTrue trivial
  | .daemon _ => .isTrue trivial

end State

/-- How far the callback has come while no press has been stored. -/
def Calm (cfg : Config) (s : State) : Prop :=
  match s.callback with
  | some .testNo => s.chip.state = cfg.boot ∧ s.chip.configured = 0
  | some .testAllow => s.chip.state = cfg.boot ∧ s.chip.configured = 0 ∧ cfg.allows = true
  | some .configure => s.chip.state = cfg.boot ∧ s.chip.configured = 0
  | some .choose => s.chip.state = cfg.boot ∧ s.chip.configured = 1
  | some (.write v) => s.chip.state = cfg.boot ∧ s.chip.configured = 1 ∧ v = cfg.active
  | some .pendDelete => s.chip.state = cfg.active ∧ s.chip.configured = 1
  | none =>
    if s.firings = 0 then
      s.chip.configured = 0 ∧
        s.chip.state = if s.enable = some .storeState then .bootWindowNoOverride else cfg.boot
    else s.chip.state = cfg.active ∧ s.chip.configured = 1

/-- A press has been stored; the callback does not configure any more. -/
structure Pressed (s : State) : Prop where
  state : s.chip.state = .pmOverridden
  callback : s.callback.any CallbackPc.configures = false
  configured : s.chip.configured ≤ 1
  fired : s.callback = none → s.firings = 0 → s.chip.configured = 0

/-- The state that the interrupt has read. -/
def Read (cfg : Config) (s : State) (wasActive : PmState) : Prop :=
  wasActive = if s.chip.configured = 1 then cfg.active else cfg.boot

def Tracked (cfg : Config) (s : State) : Prop :=
  match s.isr with
  | some .read => Calm cfg s ∧ s.overrides = 0 ∧ s.presses = 1
  | some (.write wasActive) => Calm cfg s ∧ s.chip.state = wasActive ∧ s.overrides = 0 ∧ s.presses = 1
  | some (.disable wasActive) => Pressed s ∧ Read cfg s wasActive ∧ s.overrides = 0 ∧ s.presses = 1
  | some (.pend wasActive) => Pressed s ∧ Read cfg s wasActive ∧ s.overrides = 0 ∧ s.presses = 1 ∧
      s.chip.interrupt = false
  | none =>
    if s.presses = 0 then Calm cfg s ∧ s.overrides = 0
    else Pressed s ∧ s.presses = 1 ∧ s.chip.interrupt = false ∧
      s.overrides = if s.chip.configured = 1 ∧ cfg.allows = true then 1 else 0

/-- Before its handler is added there is no interrupt. -/
def EnablePc.early : EnablePc → Bool
  | .storeState => true
  | .gpioConfig => true
  | .addHandler => true
  | _ => false

structure Early (s : State) : Prop where
  handler : s.enable.any EnablePc.early = true → s.chip.handler = false
  presses : s.chip.handler = false → s.presses = 0 ∧ s.isr = none

structure Followed (cfg : Config) (s : State) : Prop where
  timed : Timed s
  early : Early s
  tracked : s.chip.aborted = false → Tracked cfg s

section configs
variable (cfg : Config)

theorem active_eq_iff : cfg.active = .pmActiveAllowOverride ↔ cfg.allows = true := by
  unfold Config.active
  split_ifs with h <;> simp [h]

theorem boot_ne : cfg.boot ≠ .pmActiveAllowOverride := by
  unfold Config.boot
  split_ifs <;> nofun

theorem boot_eq_no_iff : cfg.boot = .bootWindowNoOverride ↔ cfg.allows = false := by
  unfold Config.boot
  split_ifs with h <;> simp [h]

/-- The new state that is chosen is the active one. -/
theorem chosen_eq : (if cfg.boot = .bootWindowNoOverride then PmState.pmActiveNoOverride else .pmActiveAllowOverride) =
    cfg.active := by
  simp only [boot_eq_no_iff]
  unfold Config.active
  cases cfg.allows <;> rfl

end configs

/-- A step that is not the interrupt's. -/
theorem Tracked.carry (cfg : Config) (s s' : State) (h : Tracked cfg s) (hisr : s'.isr = s.isr)
    (hpresses : s'.presses = s.presses) (ho : s'.overrides = s.overrides)
    (hi : s.presses = 0 ∨ s'.chip.interrupt = s.chip.interrupt) (hcalm : Calm cfg s → Calm cfg s')
    (hpressed : Pressed s → Pressed s' ∧ s'.chip.configured = s.chip.configured)
    (hstate : s.isr.any IsrPc.stores = true → s'.chip.state = s.chip.state) : Tracked cfg s' := by
  have hread (hpr : Pressed s) (wasActive : PmState) (hr : Read cfg s wasActive) : Read cfg s' wasActive := by
    unfold Read at hr ⊢
    rw [(hpressed hpr).2]
    exact hr
  unfold Tracked at h ⊢
  rw [hisr]
  cases hpc : s.isr with
  | none =>
    rw [hpc] at h
    dsimp only at h ⊢
    by_cases hp : s.presses = 0
    · rw [if_pos hp] at h
      rw [if_pos (hpresses.trans hp)]
      exact ⟨hcalm h.1, ho.trans h.2⟩
    · rw [if_neg hp] at h
      rw [if_neg (hpresses ▸ hp), (hpressed h.1).2, ho, hpresses, hi.resolve_left hp]
      exact ⟨(hpressed h.1).1, h.2⟩
  | some pc =>
    rw [hpc] at h
    cases pc with
    | read => exact ⟨hcalm h.1, ho.trans h.2.1, hpresses.trans h.2.2⟩
    | write wasActive =>
      obtain ⟨hc, hw, hz, hp⟩ := h
      exact ⟨hcalm hc, (hstate (by rw [hpc]; rfl)).trans hw, ho.trans hz, hpresses.trans hp⟩
    | disable wasActive =>
      obtain ⟨hpr, hr, hz, hp⟩ := h
      exact ⟨(hpressed hpr).1, hread hpr _ hr, ho.trans hz, hpresses.trans hp⟩
    | pend wasActive =>
      obtain ⟨hpr, hr, hz, hp, hoff⟩ := h
      have hone : ¬ s.presses = 0 := by omega
      exact ⟨(hpressed hpr).1, hread hpr _ hr, ho.trans hz, hpresses.trans hp, (hi.resolve_left hone).trans hoff⟩

/-- What the interrupt and the callback track is the same. -/
structure SameTrack (s s' : State) : Prop where
  state : s'.chip.state = s.chip.state
  configured : s'.chip.configured = s.chip.configured
  overrides : s'.overrides = s.overrides
  presses : s'.presses = s.presses
  firings : s'.firings = s.firings
  isr : s'.isr = s.isr
  callback : s'.callback = s.callback
  interrupt : s.presses = 0 ∨ s'.chip.interrupt = s.chip.interrupt
  enable : s'.enable = some .storeState ↔ s.enable = some .storeState

section same
variable (cfg : Config) (s s' : State) (hs : SameTrack s s')
include hs

theorem Calm.same (h : Calm cfg s) : Calm cfg s' := by
  unfold Calm at h ⊢
  simp only [hs.callback, hs.state, hs.configured, hs.firings, hs.enable]
  exact h

theorem Pressed.same (h : Pressed s) : Pressed s' :=
  ⟨hs.state.trans h.state, hs.callback ▸ h.callback, hs.configured ▸ h.configured,
    fun hc hf => hs.configured.trans (h.fired (hs.callback ▸ hc) (hs.firings ▸ hf))⟩

theorem Tracked.same (h : Tracked cfg s) : Tracked cfg s' :=
  h.carry cfg s s' hs.isr hs.presses hs.overrides hs.interrupt (Calm.same cfg s s' hs)
    (fun hpr => ⟨hpr.same s s' hs, hs.configured⟩) fun _ => hs.state

end same

section isr
variable (cfg : Config) (s : State)

/-- Outside the callback's decision the state tells whether power management is configured. -/
theorem Calm.read (h : Calm cfg s) (hc : s.callback.any CallbackPc.configures = false)
    (he : s.enable ≠ some .storeState) : Read cfg s s.chip.state ∧ s.chip.configured ≤ 1 ∧
      (s.callback = none → s.firings = 0 → s.chip.configured = 0) := by
  have hboot (hst : s.chip.state = cfg.boot) (hz : s.chip.configured = 0) : Read cfg s s.chip.state ∧
      s.chip.configured ≤ 1 ∧ (s.callback = none → s.firings = 0 → s.chip.configured = 0) := by
    refine ⟨?_, hz ▸ Nat.zero_le 1, fun _ _ => hz⟩
    rw [Read, hz, hst]
    rfl
  have hactive (hst : s.chip.state = cfg.active) (hz : s.chip.configured = 1)
      (hf : s.callback = none → s.firings ≠ 0) : Read cfg s s.chip.state ∧
      s.chip.configured ≤ 1 ∧ (s.callback = none → s.firings = 0 → s.chip.configured = 0) := by
    refine ⟨?_, Nat.le_of_eq hz, fun hn hf0 => absurd hf0 (hf hn)⟩
    rw [Read, if_pos hz, hst]
  unfold Calm at h
  cases hcb : s.callback with
  | none =>
    rw [hcb] at h hboot hactive
    dsimp only at h
    by_cases hf : s.firings = 0
    · rw [if_pos hf, if_neg he] at h
      exact hboot h.2 h.1
    · rw [if_neg hf] at h
      exact hactive h.1 h.2 fun _ => hf
  | some pc =>
    rw [hcb] at h hc hboot hactive
    cases pc with
    | testNo => exact hboot h.1 h.2
    | testAllow => exact hboot h.1 h.2.1
    | pendDelete => exact hactive h.1 h.2 nofun
    | configure | choose | write => cases hc

theorem tracked_isr (h : Tracked cfg s) (he : Early s) (ok : Bool) (hl : s.Undisturbed (.isr ok)) (pc : IsrPc)
    (hpc : s.isr = some pc) :
    Tracked cfg { s with
      chip := (pc.step ok s.chip).1
      isr := (pc.step ok s.chip).2
      refused := s.refused + pc.refuses ok } := by
  -- the interrupt comes after its handler has been added
  have henable : s.enable ≠ some .storeState := by
    intro hs
    have hnone := (he.presses (he.handler (by rw [hs]; rfl))).2
    cases hpc.symm.trans hnone
  unfold Tracked at h
  rw [hpc] at h
  cases pc with
  | read => exact ⟨h.1, rfl, h.2.1, h.2.2⟩
  | write wasActive =>
    obtain ⟨hcalm, hw, ho, hp⟩ := h
    have hcb : s.callback.any CallbackPc.configures = false := by
      apply hl
      rw [hpc]
      rfl
    obtain ⟨hread, hle, hfired⟩ := hcalm.read cfg s hcb henable
    exact ⟨⟨rfl, hcb, hle, hfired⟩, hw ▸ hread, ho, hp⟩
  | disable wasActive =>
    obtain ⟨hpr, hr, ho, hp⟩ := h
    exact ⟨⟨hpr.state, hpr.callback, hpr.configured, hpr.fired⟩, hr, ho, hp, rfl⟩
  | pend wasActive =>
    obtain ⟨hpr, hr, ho, hp, hi⟩ := h
    have hiff : wasActive = .pmActiveAllowOverride ↔ s.chip.configured = 1 ∧ cfg.allows = true := by
      rw [show wasActive = if s.chip.configured = 1 then cfg.active else cfg.boot from hr]
      by_cases hc : s.chip.configured = 1
      · rw [if_pos hc, active_eq_iff]
        exact ⟨fun ha => ⟨hc, ha⟩, fun hca => hca.2⟩
      · rw [if_neg hc]
        exact ⟨fun hb => absurd hb (boot_ne cfg), fun hca => absurd hca.1 hc⟩
    have hpresses : ¬ s.presses = 0 := by omega
    have hnext (pended : List Pended) (refused : Nat)
        (hover : s.chip.locks + applications pended + refused =
          if s.chip.configured = 1 ∧ cfg.allows = true then 1 else 0) :
        Tracked cfg { s with chip := { s.chip with pended }, isr := none, refused } := by
      unfold Tracked
      dsimp only
      rw [if_neg hpresses]
      exact ⟨⟨hpr.state, hpr.callback, hpr.configured, hpr.fired⟩, hp, hi, hover⟩
    have hzero : s.chip.locks = 0 ∧ applications s.chip.pended = 0 ∧ s.refused = 0 := by
      unfold State.overrides at ho
      omega
    by_cases hw : wasActive = .pmActiveAllowOverride
    · subst hw
      have hone : (if s.chip.configured = 1 ∧ cfg.allows = true then 1 else 0) = 1 := if_pos (hiff.mp rfl)
      rw [hone] at hnext
      cases ok with
      | true =>
        refine hnext (s.chip.pended ++ [.applyPmOverride]) s.refused ?_
        rw [applications, List.count_append, ← applications, hzero.1, hzero.2.1, hzero.2.2]
        rfl
      | false =>
        refine hnext s.chip.pended (s.refused + 1) ?_
        rw [hzero.1, hzero.2.1, hzero.2.2]
    · have hstep : (IsrPc.pend wasActive).step ok s.chip = (s.chip, none) := by
        simp only [IsrPc.step, hw, false_and, if_false]
      have hrefuses : (IsrPc.pend wasActive).refuses ok = 0 := by
        cases wasActive with
        | pmActiveAllowOverride => exact absurd rfl hw
        | _ => rfl
      rw [hstep, hrefuses]
      refine hnext s.chip.pended s.refused ?_
      rw [if_neg fun hca => hw (hiff.mpr hca), hzero.1, hzero.2.1, hzero.2.2]

end isr

section callback
variable (cfg : Config) (s : State)

/-- The callback goes on while no press has been stored. -/
theorem Calm.callback (h : Calm cfg s) (pc : CallbackPc) (hpc : s.callback = some pc) (hf : s.firings = 1)
    (ok : Bool) (ha : (pc.step ok s.chip).1.aborted = false) :
    Calm cfg { s with chip := (pc.step ok s.chip).1, callback := (pc.step ok s.chip).2 } := by
  unfold Calm at h
  rw [hpc] at h
  cases pc with
  | testNo =>
    obtain ⟨hst, hz⟩ := h
    simp only [CallbackPc.step]
    split_ifs with hno
    · exact ⟨hst, hz⟩
    · refine ⟨hst, hz, ?_⟩
      rw [hst, boot_eq_no_iff] at hno
      exact eq_true_of_ne_false hno
  | testAllow =>
    obtain ⟨hst, hz, hallows⟩ := h
    have hboot : s.chip.state = .bootWindowAllowOverride := by rw [hst, Config.boot, if_pos hallows]
    simp only [CallbackPc.step]
    rw [if_pos hboot]
    exact ⟨hst, hz⟩
  | configure =>
    cases ok with
    | true => exact ⟨h.1, congrArg (· + 1) h.2⟩
    | false => cases ha
  | choose =>
    refine ⟨h.1, h.2, ?_⟩
    rw [h.1]
    exact chosen_eq cfg
  | write v => exact ⟨h.2.2, h.2.1⟩
  | pendDelete =>
    simp only [Calm, CallbackPc.step]
    rw [if_neg (hf ▸ Nat.one_ne_zero)]
    exact h

/-- After a press the callback only sees to its timer. -/
theorem Pressed.callback_step (h : Pressed s) (pc : CallbackPc) (hpc : s.callback = some pc) (hf : s.firings = 1)
    (ok : Bool) :
    Pressed { s with chip := (pc.step ok s.chip).1, callback := (pc.step ok s.chip).2 } ∧
      (pc.step ok s.chip).1.configured = s.chip.configured := by
  obtain ⟨hst, hcb, hc, -⟩ := h
  rw [hpc] at hcb
  have hfired {P : Prop} (hz : s.firings = 0) : P := by
    rw [hf] at hz
    cases hz
  cases pc with
  | testNo =>
    have hne : ¬ s.chip.state = .bootWindowNoOverride := by rw [hst]; nofun
    have hstep : CallbackPc.testNo.step ok s.chip = (s.chip, some .testAllow) := by rw [CallbackPc.step, if_neg hne]
    rw [hstep]
    exact ⟨⟨hst, rfl, hc, fun _ => hfired⟩, rfl⟩
  | testAllow =>
    have hne : ¬ s.chip.state = .bootWindowAllowOverride := by rw [hst]; nofun
    have hstep : CallbackPc.testAllow.step ok s.chip = (s.chip, some .pendDelete) := by rw [CallbackPc.step, if_neg hne]
    rw [hstep]
    exact ⟨⟨hst, rfl, hc, fun _ => hfired⟩, rfl⟩
  | pendDelete => exact ⟨⟨hst, rfl, hc, fun _ => hfired⟩, rfl⟩
  | configure | choose | write => cases hcb

theorem CallbackPc.step_frame (pc : CallbackPc) (ok : Bool) (c : Chip) :
    (pc.step ok c).1.locks = c.locks ∧ applications (pc.step ok c).1.pended = applications c.pended ∧
      (pc.step ok c).1.interrupt = c.interrupt ∧ (pc.step ok c).1.handler = c.handler := by
  cases pc with
  | configure =>
    cases ok with
    | true => exact ⟨rfl, rfl, rfl, rfl⟩
    | false => exact ⟨rfl, rfl, rfl, rfl⟩
  | pendDelete =>
    refine ⟨rfl, ?_, rfl, rfl⟩
    simp only [step, applications, List.count_append]
    rfl
  | _ => exact ⟨rfl, rfl, rfl, rfl⟩

theorem CallbackPc.step_state (pc : CallbackPc) (ok : Bool) (c : Chip) (h : pc.stores = false) :
    (pc.step ok c).1.state = c.state := by
  cases pc with
  | write v => cases h
  | configure =>
    cases ok with
    | true => rfl
    | false => rfl
  | _ => rfl

theorem tracked_callback (h : Tracked cfg s) (ok : Bool) (hl : s.Undisturbed (.callback ok)) (pc : CallbackPc)
    (hpc : s.callback = some pc) (hf : s.firings = 1) (ha : (pc.step ok s.chip).1.aborted = false) :
    Tracked cfg { s with chip := (pc.step ok s.chip).1, callback := (pc.step ok s.chip).2 } := by
  obtain ⟨hlocks, happlications, hinterrupt, -⟩ := pc.step_frame ok s.chip
  refine h.carry cfg s _ rfl rfl ?_ (.inr hinterrupt) (fun hc => hc.callback cfg s pc hpc hf ok ha)
    (fun hpr => hpr.callback_step s pc hpc hf ok) ?_
  · simp only [State.overrides, hlocks, happlications]
  · intro hisr
    refine pc.step_state ok s.chip (eq_false_of_ne_true fun hstores => ?_)
    have hquiet := hl (by rw [hpc]; exact hstores)
    rw [hisr] at hquiet
    cases hquiet

/-- The timer fires; nothing has been configured yet. -/
theorem tracked_fire (h : Tracked cfg s) (hc : s.callback = none) (hf : s.firings = 0) (he : s.enable = none)
    (timers : Handles Bool) :
    Tracked cfg { s with chip := { s.chip with timers }, callback := some .testNo, firings := s.firings + 1 } := by
  refine h.carry cfg s _ rfl rfl rfl (.inr rfl) ?_ ?_ fun _ => rfl
  · intro hcalm
    unfold Calm at hcalm
    rw [hc] at hcalm
    dsimp only at hcalm
    rw [if_pos hf, he, if_neg nofun] at hcalm
    exact ⟨hcalm.2, hcalm.1⟩
  · intro hpr
    exact ⟨⟨hpr.state, rfl, hpr.configured, nofun⟩, rfl⟩

end callback

section enable
variable (cfg : Config) (s : State)

/-- Before the handler is added nothing has been pressed. -/
theorem Early.unpressed (h : Early s) (pc : EnablePc) (hpc : s.enable = some pc) (hearly : pc.early = true) :
    s.presses = 0 ∧ s.isr = none := h.presses (h.handler (by rw [hpc]; exact hearly))

theorem tracked_store_state (h : Tracked cfg s) (he : Early s) (hpc : s.enable = some .storeState)
    (hc : s.callback = none) (hf : s.firings = 0) (ok : Bool) :
    Tracked cfg { s with
      chip := (EnablePc.storeState.step cfg ok s.chip).1
      enable := (EnablePc.storeState.step cfg ok s.chip).2 } := by
  obtain ⟨hp, hisr⟩ := he.unpressed s _ hpc rfl
  unfold Tracked at h
  rw [hisr] at h
  dsimp only at h
  rw [if_pos hp] at h
  obtain ⟨hcalm, ho⟩ := h
  unfold Calm at hcalm
  rw [hc] at hcalm
  dsimp only at hcalm
  rw [if_pos hf, if_pos hpc] at hcalm
  obtain ⟨hz, hst⟩ := hcalm
  -- in each branch the state of the window is stored
  have hnext (state : PmState) (pc : EnablePc) (hne : pc ≠ .storeState) (hboot : state = cfg.boot) :
      Tracked cfg { s with chip := { s.chip with state }, enable := some pc } := by
    unfold Tracked
    dsimp only
    rw [hisr]
    dsimp only
    rw [if_pos hp]
    refine ⟨?_, ho⟩
    unfold Calm
    dsimp only
    rw [hc]
    dsimp only
    rw [if_pos hf, if_neg fun h => hne (Option.some.inj h)]
    exact ⟨hz, hboot⟩
  simp only [EnablePc.step]
  split_ifs with hd ha
  · exact hnext _ .gpioConfig (by decide) (by rw [Config.boot, Config.allows, hd, ha]; rfl)
  · exact hnext _ .gpioConfig (by decide) (by rw [Config.boot, Config.allows, eq_false_of_ne_true ha, hst, hd]; rfl)
  · exact hnext _ .create (by decide) (by rw [Config.boot, Config.allows, eq_false_of_ne_true hd, hst]; rfl)

theorem EnablePc.step_frame (pc : EnablePc) (hne : pc ≠ .storeState) (ok : Bool) (c : Chip) :
    (pc.step cfg ok c).1.state = c.state ∧ (pc.step cfg ok c).1.configured = c.configured ∧
    (pc.step cfg ok c).1.locks = c.locks ∧ (pc.step cfg ok c).1.pended = c.pended ∧
    (pc ≠ .gpioConfig → (pc.step cfg ok c).1.interrupt = c.interrupt) ∧
    (pc.step cfg ok c).2 ≠ some .storeState := by
  cases pc with
  | storeState => exact absurd rfl hne
  | gpioConfig => exact ⟨rfl, rfl, rfl, rfl, fun h => absurd rfl h, by rintro ⟨⟩⟩
  | addHandler => exact ⟨rfl, rfl, rfl, rfl, fun _ => rfl, by rintro ⟨⟩⟩
  | create =>
    cases ok with
    | true => exact ⟨rfl, rfl, rfl, rfl, fun _ => rfl, by rintro ⟨⟩⟩
    | false => exact ⟨rfl, rfl, rfl, rfl, fun _ => rfl, by rintro ⟨⟩⟩
  | startOnce =>
    simp only [step]
    split <;> exact ⟨rfl, rfl, rfl, rfl, fun _ => rfl, by rintro ⟨⟩⟩

theorem tracked_enable (h : Tracked cfg s) (he : Early s) (pc : EnablePc) (hpc : s.enable = some pc)
    (hstore : pc = .storeState → s.callback = none ∧ s.firings = 0) (ok : Bool) :
    Tracked cfg { s with chip := (pc.step cfg ok s.chip).1, enable := (pc.step cfg ok s.chip).2 } := by
  by_cases hne : pc = .storeState
  · obtain ⟨hc, hf⟩ := hstore hne
    subst hne
    exact tracked_store_state cfg s h he hpc hc hf ok
  obtain ⟨hstate, hconf, hlocks, hpend, hint, hafter⟩ := pc.step_frame cfg hne ok s.chip
  refine h.same cfg s _ ⟨hstate, hconf, ?_, rfl, rfl, rfl, rfl, ?_, ?_⟩
  · simp only [State.overrides, hlocks, hpend]
  · by_cases hg : pc = .gpioConfig
    · subst hg
      exact .inl (he.unpressed s _ hpc rfl).1
    · exact .inr (hint hg)
  · refine ⟨fun h => absurd h hafter, fun h => ?_⟩
    exact absurd (Option.some.inj (hpc.symm.trans h)) hne

theorem tracked_press (h : Tracked cfg s) (hi : s.chip.interrupt = true) (hn : s.isr = none) :
    Tracked cfg { s with isr := some .read, presses := s.presses + 1 } := by
  unfold Tracked at h
  rw [hn] at h
  dsimp only at h
  by_cases hp : s.presses = 0
  · rw [if_pos hp] at h
    exact ⟨h.1, h.2, congrArg (· + 1) hp⟩
  · rw [if_neg hp] at h
    cases hi.symm.trans h.2.2.1

/-- The daemon applies an override, or loses it. -/
theorem tracked_daemon (h : Tracked cfg s) (ok : Bool) (p : Pended) (pended : List Pended)
    (hp : s.chip.pended = p :: pended) :
    Tracked cfg { s with
      chip := p.run ok { s.chip with pended }
      refused := s.refused + p.refuses ok } := by
  have hcount : applications s.chip.pended = applications pended + applications [p] := by
    rw [hp, Nat.add_comm, applications, applications, applications, ← List.count_append]
    rfl
  cases p with
  | applyPmOverride =>
    have hone : applications [Pended.applyPmOverride] = 1 := rfl
    rw [hone] at hcount
    cases ok with
    | true =>
      refine h.same cfg s _ ⟨rfl, rfl, ?_, rfl, rfl, rfl, rfl, .inr rfl, Iff.rfl⟩
      change s.chip.locks + 1 + applications pended + s.refused = _
      rw [State.overrides, hcount]
      omega
    | false =>
      refine h.same cfg s _ ⟨rfl, rfl, ?_, rfl, rfl, rfl, rfl, .inr rfl, Iff.rfl⟩
      change s.chip.locks + applications pended + (s.refused + 1) = _
      rw [State.overrides, hcount]
      omega
  | deleteTimer handle =>
    have hchip : ∃ timers misuse, (Pended.deleteTimer handle).run ok { s.chip with pended } =
        { s.chip with pended, timers, misuse } := by
      cases handle with
      | none => exact ⟨_, _, rfl⟩
      | some h' =>
        simp only [Pended.run]
        split
        · exact ⟨_, _, rfl⟩
        · split_ifs
          · exact ⟨_, _, rfl⟩
          · exact ⟨_, _, rfl⟩
    obtain ⟨timers, misuse, hchip⟩ := hchip
    rw [hchip]
    refine h.same cfg s _ ⟨rfl, rfl, ?_, rfl, rfl, rfl, rfl, .inr rfl, Iff.rfl⟩
    simp only [State.overrides, hcount]
    rfl

end enable

section early
variable (cfg : Config) (s : State)

theorem Early.same (h : Early s) (s' : State) (he : s'.enable = s.enable) (hh : s'.chip.handler = s.chip.handler)
    (hp : s'.presses = s.presses) (hi : s'.isr = s.isr) : Early s' := by
  refine ⟨fun h' => ?_, fun h' => ?_⟩
  · rw [hh]
    exact h.handler (he ▸ h')
  · rw [hp, hi]
    exact h.presses (hh ▸ h')

/-- An interrupt comes only to its handler. -/
theorem early_handled (h : Early s) (s' : State) (hh : s.chip.handler = true) (he : s'.enable = s.enable)
    (hh' : s'.chip.handler = s.chip.handler) : Early s' := by
  refine ⟨fun h' => ?_, fun h' => ?_⟩
  · have hoff := h.handler (he ▸ h')
    rw [hh] at hoff
    cases hoff
  · rw [hh', hh] at h'
    cases h'

theorem early_enable (h : Early s) (pc : EnablePc) (hpc : s.enable = some pc) (ok : Bool) :
    Early { s with chip := (pc.step cfg ok s.chip).1, enable := (pc.step cfg ok s.chip).2 } := by
  have hoff (hearly : pc.early = true) := h.handler (by rw [hpc]; exact hearly)
  cases pc with
  | storeState =>
    have hquiet := h.presses (hoff rfl)
    simp only [EnablePc.step]
    split_ifs <;> exact ⟨fun _ => hoff rfl, fun _ => hquiet⟩
  | gpioConfig => exact ⟨fun _ => hoff rfl, h.presses⟩
  | addHandler => exact ⟨fun h => (Bool.false_ne_true h).elim, fun h => (Bool.false_ne_true h.symm).elim⟩
  | create =>
    cases ok with
    | true => exact ⟨fun h => (Bool.false_ne_true h).elim, h.presses⟩
    | false => exact ⟨fun h => (Bool.false_ne_true h).elim, h.presses⟩
  | startOnce =>
    simp only [EnablePc.step]
    split <;> exact ⟨fun h => (Bool.false_ne_true h).elim, h.presses⟩

theorem IsrPc.step_handler (pc : IsrPc) (ok : Bool) (c : Chip) : (pc.step ok c).1.handler = c.handler := by
  cases pc with
  | pend wasActive =>
    simp only [step]
    split_ifs <;> rfl
  | _ => rfl

theorem Pended.run_handler (p : Pended) (ok : Bool) (c : Chip) : (p.run ok c).handler = c.handler := by
  cases p with
  | applyPmOverride =>
    simp only [run]
    split_ifs <;> rfl
  | deleteTimer h =>
    cases h with
    | none => rfl
    | some h' =>
      simp only [run]
      split
      · rfl
      · split_ifs <;> rfl

theorem early_next (h : Early s) (l : Label) (s' : State) (hstep : s.step cfg l = some s') : Early s' := by
  cases l with
  | enable ok =>
    obtain ⟨pc, hpc, rfl⟩ := State.step_enable cfg s s' ok hstep
    exact early_enable cfg s h pc hpc ok
  | press =>
    obtain ⟨-, hh, -, rfl⟩ := State.step_press cfg s s' hstep
    exact early_handled s h _ hh rfl rfl
  | isr ok =>
    obtain ⟨pc, hpc, rfl⟩ := State.step_isr cfg s s' ok hstep
    have hh : s.chip.handler = true := by
      by_contra hoff
      have hquiet := (h.presses (eq_false_of_ne_true hoff)).2
      cases hpc.symm.trans hquiet
    exact early_handled s h _ hh rfl (pc.step_handler ok s.chip)
  | fire handle =>
    obtain ⟨-, -, rfl⟩ := State.step_fire cfg s s' handle hstep
    exact h.same s _ rfl rfl rfl rfl
  | callback ok =>
    obtain ⟨pc, -, rfl⟩ := State.step_callback cfg s s' ok hstep
    exact h.same s _ rfl (pc.step_frame ok s.chip).2.2.2 rfl rfl
  | daemon ok =>
    obtain ⟨p, pended, -, rfl⟩ := State.step_daemon cfg s s' ok hstep
    exact h.same s _ rfl (p.run_handler ok _) rfl rfl

end early

section followed
variable (cfg : Config) (s : State)

theorem followed_next (h : Followed cfg s) (l : Label) (hl : s.Undisturbed l) (s' : State)
    (hn : s.next cfg l = some s') : Followed cfg s' := by
  have ha : s.chip.aborted = false := by
    unfold State.next at hn
    split_ifs at hn with ha
    exact eq_false_of_ne_true ha
  have htracked := h.tracked ha
  obtain ⟨st, hst⟩ := h.timed.stage ha
  have htimed := timed_next s h.timed cfg l s' hn
  have hstep := State.next_step cfg s s' l hn
  refine ⟨htimed, early_next cfg s h.early l s' hstep, fun hna => ?_⟩
  cases l with
  | enable ok =>
    obtain ⟨pc, hpc, rfl⟩ := State.step_enable cfg s s' ok hstep
    refine tracked_enable cfg s htracked h.early pc hpc ?_ ok
    intro hp
    have hne : pc ≠ .startOnce := by rw [hp]; nofun
    obtain ⟨-, hi, -⟩ := at_absent s st hst pc hpc hne
    exact ⟨hi.callback, hi.firings⟩
  | press =>
    obtain ⟨hi, -, hnone, rfl⟩ := State.step_press cfg s s' hstep
    exact tracked_press cfg s htracked hi hnone
  | isr ok =>
    obtain ⟨pc, hpc, rfl⟩ := State.step_isr cfg s s' ok hstep
    exact tracked_isr cfg s htracked h.early ok hl pc hpc
  | fire handle =>
    obtain ⟨hc, hg, rfl⟩ := State.step_fire cfg s s' handle hstep
    -- the timer has not fired before, for it fires once
    have hf : s.firings = 0 := by
      have hle := htimed.firings
      dsimp only at hle
      omega
    have he : s.enable = none := by
      have hlive : s.chip.timers.Live handle := by
        rw [Handles.Live, hg]
        rfl
      cases st with
      | absent => exact absurd hlive (hst.2.2.2 handle)
      | created h' =>
        obtain ⟨-, -, -, -, hget, honly⟩ := hst
        obtain rfl := honly handle hlive
        cases hg.symm.trans hget
      | running h' => exact hst.1
      | fired h' => exact hst.1
      | doomed h' => exact hst.1
      | gone => exact hst.1
    exact tracked_fire cfg s htracked hc hf he _
  | callback ok =>
    obtain ⟨pc, hpc, rfl⟩ := State.step_callback cfg s s' ok hstep
    obtain ⟨h', -, -, hf, -⟩ := at_fired s st hst pc hpc
    exact tracked_callback cfg s htracked ok hl pc hpc hf hna
  | daemon ok =>
    obtain ⟨p, pended, hp, rfl⟩ := State.step_daemon cfg s s' ok hstep
    exact tracked_daemon cfg s htracked ok p pended hp

theorem early_called : Early .called := ⟨fun _ => rfl, fun _ => ⟨rfl, rfl⟩⟩

theorem followed_called : Followed cfg .called := by
  refine ⟨called_timed, early_called, fun _ => ?_⟩
  exact ⟨⟨rfl, rfl⟩, rfl⟩

end followed

/-- In every run in which the interrupt's and the callback's stores do not fall into each other: the button is
heard at most once. Once its interrupt has returned the state is that of an override for good and the callback
does not configure power management any more; if it had been configured and the override is allowed after the
window, exactly one override was applied, waits, or was lost for want of room or memory, else none. Without a
press there is none. -/
theorem press_respected (cfg : Config) (s : State)
    (run : Steps (State.next cfg) State.Undisturbed .called s) (ha : s.chip.aborted = false) (hi : s.isr = none) :
    if s.presses = 0 then s.overrides = 0
    else s.presses = 1 ∧ s.chip.state = .pmOverridden ∧ s.chip.interrupt = false ∧
      s.callback.any CallbackPc.configures = false ∧
      s.overrides = if s.chip.configured = 1 ∧ cfg.allows = true then 1 else 0 := by
  have h : Followed cfg s := run.invariant _ _ (Followed cfg) _ _ (followed_called cfg)
    fun t l t' ht hl hn => followed_next cfg t ht l hl t' hn
  have htracked := h.tracked ha
  unfold Tracked at htracked
  rw [hi] at htracked
  dsimp only at htracked
  by_cases hp : s.presses = 0
  · rw [if_pos hp] at htracked ⊢
    exact htracked.2
  · rw [if_neg hp] at htracked ⊢
    obtain ⟨hpr, hone, hoff, ho⟩ := htracked
    exact ⟨hone, hpr.state, hoff, hpr.callback, ho⟩

/-- The window passes, and then the button is pressed. -/
def pressAfterWindow : List Label :=
  List.replicate 5 (.enable true) ++ .fire 0 :: List.replicate 6 (.callback true) ++
    .press :: List.replicate 4 (.isr true) ++ [.daemon true, .daemon true]

theorem press_respected_after :
    ∃ s, exec (guarded (State.next ⟨true, true⟩) State.Undisturbed) .called pressAfterWindow = some s ∧
      s.chip.locks = 1 ∧ s.overrides = 1 := by
  have hrun : (exec (guarded (State.next ⟨true, true⟩) State.Undisturbed) .called pressAfterWindow).any
      (fun s => s.chip.locks = 1 ∧ s.chip.aborted = false ∧ s.isr = none ∧ s.presses = 1 ∧
        s.chip.configured = 1) = true := by decide
  obtain ⟨s, hs, hp⟩ := (Option.any_eq_true _ _).mp hrun
  obtain ⟨hlocks, ha, hi, hone, hc⟩ := of_decide_eq_true hp
  have h := press_respected ⟨true, true⟩ s (steps_of_guarded _ _ _ _ _ hs) ha hi
  rw [hone, if_neg Nat.one_ne_zero, hc] at h
  exact ⟨s, hs, hlocks, h.2.2.2.2⟩

end Espbase.Boot.Pm
