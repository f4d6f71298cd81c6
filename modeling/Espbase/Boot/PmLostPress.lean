import Espbase.Boot.PmOverride

namespace Espbase.Boot.Pm

open Espbase.Lib

/-- The states after the window without a press. -/
def PmState.active : PmState → Bool
  | .pmActiveAllowOverride => true
  | .pmActiveNoOverride => true
  | _ => false

/-- The state that the interrupt has read. -/
def IsrPc.wasActive : IsrPc → Option PmState
  | .read => none
  | .write wasActive => some wasActive
  | .disable wasActive => some wasActive
  | .pend wasActive => some wasActive

def CallbackPc.configured : CallbackPc → Bool
  | .choose => true
  | .write _ => true
  | _ => false

/-- The callback has not stored its state. -/
def State.Open (s : State) : Prop := s.callback ≠ some .pendDelete ∧ (s.callback = none → s.firings = 0)

/-- What holds of every run until the callback has stored its state: an interrupt overrides nothing. -/
structure Unstored (s : State) : Prop where
  state : s.Open → s.chip.state ≠ .pmActiveAllowOverride
  wasActive : s.Open → ∀ pc ∈ s.isr, pc.wasActive ≠ some .pmActiveAllowOverride
  overrides : s.Open → s.overrides = 0
  configured : s.callback.any CallbackPc.configured = true → s.chip.configured = 1
  chosen : ∀ v, s.callback = some (.write v) → v.active = true
  disabled : ∀ wasActive, s.isr = some (.pend wasActive) → s.chip.interrupt = false

/-- The count of overrides reads the locks, what is pended and what was refused. -/
theorem overrides_congr {s t : State} {n : Nat} (h : s.overrides = n) (hlocks : t.chip.locks = s.chip.locks)
    (hpended : t.chip.pended = s.chip.pended) (hrefused : t.refused = s.refused) : t.overrides = n := by
  rw [State.overrides, hlocks, hpended, hrefused]
  exact h

section unstored
variable (cfg : Config) (s : State)

theorem unstored_enable (h : Unstored s) (he : Early s) (pc : EnablePc) (hpc : s.enable = some pc) (ok : Bool) :
    Unstored { s with chip := (pc.step cfg ok s.chip).1, enable := (pc.step cfg ok s.chip).2 } := by
  -- only the first step stores a state, and only the second enables the interrupt, which has no handler then
  have hnext (chip : Chip) (enable : Option EnablePc)
      (hstate : chip.state = s.chip.state ∨ chip.state = .bootWindowAllowOverride)
      (hsame : chip.locks = s.chip.locks ∧ chip.pended = s.chip.pended ∧ chip.configured = s.chip.configured)
      (hint : chip.interrupt = s.chip.interrupt ∨ s.isr = none) : Unstored { s with chip, enable } := by
    obtain ⟨hlocks, hpended, hconfigured⟩ := hsame
    refine ⟨fun ho => ?_, h.wasActive, fun ho => overrides_congr (h.overrides ho) hlocks hpended rfl,
      fun hc => hconfigured.trans (h.configured hc), h.chosen, ?_⟩
    · rcases hstate with hst | hst
      · dsimp only
        rw [hst]
        exact h.state ho
      · dsimp only
        rw [hst]
        decide
    · intro wasActive hi
      rcases hint with hsame | hnone
      · exact hsame.trans (h.disabled wasActive hi)
      · cases hi.symm.trans hnone
  cases pc with
  | storeState =>
    simp only [EnablePc.step]
    split_ifs
    · exact hnext _ _ (.inr rfl) ⟨rfl, rfl, rfl⟩ (.inl rfl)
    · exact hnext _ _ (.inl rfl) ⟨rfl, rfl, rfl⟩ (.inl rfl)
    · exact hnext _ _ (.inl rfl) ⟨rfl, rfl, rfl⟩ (.inl rfl)
  | gpioConfig => exact hnext _ _ (.inl rfl) ⟨rfl, rfl, rfl⟩ (.inr (he.unpressed s _ hpc rfl).2)
  | addHandler =>
    exact hnext _ _ (.inl rfl) ⟨rfl, rfl, rfl⟩ (.inl rfl)
  | create =>
    obtain ⟨hst, hc, hl, hp, hi, -⟩ := EnablePc.step_frame cfg .create (by simp) ok s.chip
    exact hnext _ _ (.inl hst) ⟨hl, hp, hc⟩ (.inl (hi (by simp)))
  | startOnce =>
    obtain ⟨hst, hc, hl, hp, hi, -⟩ := EnablePc.step_frame cfg .startOnce (by simp) ok s.chip
    exact hnext _ _ (.inl hst) ⟨hl, hp, hc⟩ (.inl (hi (by simp)))

theorem unstored_isr (h : Unstored s) (pc : IsrPc) (hpc : s.isr = some pc) (ok : Bool) :
    Unstored { s with
      chip := (pc.step ok s.chip).1
      isr := (pc.step ok s.chip).2
      refused := s.refused + pc.refuses ok } := by
  have hread (ho : s.Open) := h.wasActive ho pc hpc
  cases pc with
  | read =>
    refine ⟨h.state, fun ho pc' hpc' => ?_, h.overrides, h.configured, h.chosen, by rintro _ ⟨⟩⟩
    obtain rfl := Option.some.inj hpc'
    exact fun he => h.state ho (Option.some.inj he)
  | write wasActive =>
    refine ⟨fun _ => by simp [IsrPc.step], fun ho pc' hpc' => ?_, h.overrides, h.configured, h.chosen,
      by rintro _ ⟨⟩⟩
    obtain rfl := Option.some.inj hpc'
    exact hread ho
  | disable wasActive =>
    refine ⟨h.state, fun ho pc' hpc' => ?_, h.overrides, h.configured, h.chosen, fun _ _ => rfl⟩
    obtain rfl := Option.some.inj hpc'
    exact hread ho
  | pend wasActive =>
    have hquiet (ho : s.Open) : (IsrPc.pend wasActive).step ok s.chip = (s.chip, none) ∧
        (IsrPc.pend wasActive).refuses ok = 0 := by
      have hne : ¬ wasActive = .pmActiveAllowOverride := fun he => hread ho (congrArg some he)
      refine ⟨by simp only [IsrPc.step, hne, false_and, if_false], ?_⟩
      cases wasActive with
      | pmActiveAllowOverride => exact absurd rfl hne
      | _ => rfl
    have hframe : ((IsrPc.pend wasActive).step ok s.chip).1.state = s.chip.state ∧
        ((IsrPc.pend wasActive).step ok s.chip).1.configured = s.chip.configured := by
      simp only [IsrPc.step]
      split_ifs <;> exact ⟨rfl, rfl⟩
    refine ⟨fun ho => hframe.1 ▸ h.state ho, by rintro _ _ ⟨⟩, fun ho => ?_, fun hc => hframe.2.trans (h.configured hc),
      h.chosen, by rintro _ ⟨⟩⟩
    obtain ⟨hstep, hrefuses⟩ := hquiet ho
    rw [hstep, hrefuses]
    exact overrides_congr (h.overrides ho) rfl rfl rfl

/-- Once the callback has stored its state nothing is asked of the interrupt any more. -/
theorem Unstored.close (h : Unstored s) (hf : s.firings = 1) (chip : Chip) (callback : Option CallbackPc)
    (hc : callback = none ∨ callback = some .pendDelete) (hint : chip.interrupt = s.chip.interrupt) :
    Unstored { s with chip, callback } := by
  have hclosed : ¬ State.Open { s with chip, callback } := by
    intro ho
    rcases hc with hc | hc
    · have hz : s.firings = 0 := ho.2 hc
      rw [hf] at hz
      cases hz
    · exact ho.1 hc
  refine ⟨fun ho => absurd ho hclosed, fun ho => absurd ho hclosed, fun ho => absurd ho hclosed, fun hm => ?_,
    fun v hv => ?_, fun wasActive hi => hint.trans (h.disabled wasActive hi)⟩
  · rcases hc with rfl | rfl <;> cases hm
  · rcases hc with rfl | rfl <;> cases hv

theorem unstored_callback (h : Unstored s) (ht : Timed s) (ha : s.chip.aborted = false) (pc : CallbackPc)
    (hpc : s.callback = some pc) (ok : Bool) :
    Unstored { s with chip := (pc.step ok s.chip).1, callback := (pc.step ok s.chip).2 } := by
  obtain ⟨st, hst⟩ := ht.stage ha
  obtain ⟨h', -, -, hf, -, ⟨pc', hpc', hmade⟩, -⟩ := at_fired s st hst pc hpc
  obtain rfl : pc = pc' := Option.some.inj (hpc.symm.trans hpc')
  -- with a callback that is not at its end the store is still to come
  have hopen (hne : pc ≠ .pendDelete) : s.Open := by
    refine ⟨fun he => hne (Option.some.inj (hpc.symm.trans he)), fun hn => ?_⟩
    cases hpc.symm.trans hn
  have hzero (chip : Chip) (callback : Option CallbackPc) (hne : pc ≠ .pendDelete)
      (hlocks : chip.locks = s.chip.locks) (hpended : chip.pended = s.chip.pended) :
      State.overrides { s with chip, callback } = 0 :=
    overrides_congr (h.overrides (hopen hne)) hlocks hpended rfl
  -- the state is the same, and the callback goes on to a place before its store
  have hnext (next : CallbackPc) (hne : pc ≠ .pendDelete)
      (hmade' : next.configured = true → s.chip.configured = 1) (hchosen : ∀ v, next = .write v → v.active = true) :
      Unstored { s with callback := some next } := by
    refine ⟨fun _ => h.state (hopen hne), fun _ => h.wasActive (hopen hne), fun _ => hzero _ _ hne rfl rfl, hmade', ?_,
      h.disabled⟩
    intro v hv
    exact hchosen v (Option.some.inj hv)
  cases pc with
  | testNo =>
    simp only [CallbackPc.step]
    split_ifs
    · exact hnext .configure (by simp) (by rintro ⟨⟩) (by rintro _ ⟨⟩)
    · exact hnext .testAllow (by simp) (by rintro ⟨⟩) (by rintro _ ⟨⟩)
  | testAllow =>
    simp only [CallbackPc.step]
    split_ifs
    · exact hnext .configure (by simp) (by rintro ⟨⟩) (by rintro _ ⟨⟩)
    · exact h.close s hf s.chip _ (.inr rfl) rfl
  | configure =>
    have hnone : s.chip.configured = 0 := Nat.le_zero.mp hmade
    cases ok with
    | true =>
      refine ⟨fun _ => h.state (hopen (by simp)), fun _ => h.wasActive (hopen (by simp)),
        fun _ => hzero _ _ (by simp) rfl rfl, fun _ => congrArg (· + 1) hnone, by rintro _ ⟨⟩, h.disabled⟩
    | false => exact h.close s hf _ _ (.inl rfl) rfl
  | choose =>
    refine hnext _ (by simp) (fun _ => h.configured (by rw [hpc]; rfl)) ?_
    intro v hv
    obtain rfl := CallbackPc.write.inj hv
    split_ifs <;> rfl
  | write v => exact h.close s hf _ _ (.inr rfl) rfl
  | pendDelete => exact h.close s hf _ _ (.inl rfl) rfl

end unstored

theorem Pended.run_frame (p : Pended) (ok : Bool) (c : Chip) :
    (p.run ok c).interrupt = c.interrupt ∧ (p.run ok c).state = c.state ∧ (p.run ok c).configured = c.configured ∧
      (p.run ok c).pended = c.pended ∧ (p.run ok c).locks + p.refuses ok = c.locks + applications [p] := by
  cases p with
  | applyPmOverride =>
    cases ok with
    | true => exact ⟨rfl, rfl, rfl, rfl, rfl⟩
    | false => exact ⟨rfl, rfl, rfl, rfl, rfl⟩
  | deleteTimer h =>
    cases h with
    | none => exact ⟨rfl, rfl, rfl, rfl, rfl⟩
    | some h' =>
      simp only [run]
      split
      · exact ⟨rfl, rfl, rfl, rfl, rfl⟩
      · split_ifs <;> exact ⟨rfl, rfl, rfl, rfl, rfl⟩

theorem applications_cons (p : Pended) (pended : List Pended) :
    applications (p :: pended) = applications [p] + applications pended := by
  rw [applications, applications, applications, ← List.count_append]
  rfl

theorem overrides_daemon (s : State) (ok : Bool) (p : Pended) (pended : List Pended)
    (hp : s.chip.pended = p :: pended) :
    State.overrides { s with chip := p.run ok { s.chip with pended }, refused := s.refused + p.refuses ok } =
      s.overrides := by
  obtain ⟨-, -, -, hpend, hlocks⟩ := p.run_frame ok { s.chip with pended }
  rw [State.overrides, State.overrides, hp, applications_cons, hpend]
  dsimp only at hlocks ⊢
  omega

section run
variable (cfg : Config) (s : State)

theorem unstored_next (h : Unstored s) (ht : Timed s) (he : Early s) (l : Label) (s' : State)
    (hn : s.next cfg l = some s') : Unstored s' := by
  have ha : s.chip.aborted = false := by
    unfold State.next at hn
    split_ifs at hn with ha
    exact eq_false_of_ne_true ha
  have htimed := timed_next s ht cfg l s' hn
  have hstep := State.next_step cfg s s' l hn
  cases l with
  | enable ok =>
    obtain ⟨pc, hpc, rfl⟩ := State.step_enable cfg s s' ok hstep
    exact unstored_enable cfg s h he pc hpc ok
  | press =>
    obtain ⟨-, -, -, rfl⟩ := State.step_press cfg s s' hstep
    refine ⟨h.state, fun _ pc hpc => ?_, h.overrides, h.configured, h.chosen, by rintro _ ⟨⟩⟩
    obtain rfl := Option.some.inj hpc
    rintro ⟨⟩
  | isr ok =>
    obtain ⟨pc, hpc, rfl⟩ := State.step_isr cfg s s' ok hstep
    exact unstored_isr s h pc hpc ok
  | fire handle =>
    obtain ⟨hc, -, rfl⟩ := State.step_fire cfg s s' handle hstep
    -- the timer fires once
    have hopen : s.Open := by
      have hle := htimed.firings
      dsimp only at hle
      refine ⟨by rw [hc]; rintro ⟨⟩, fun _ => ?_⟩
      omega
    exact ⟨fun _ => h.state hopen, fun _ => h.wasActive hopen, fun _ => h.overrides hopen, by rintro ⟨⟩,
      by rintro _ ⟨⟩, h.disabled⟩
  | callback ok =>
    obtain ⟨pc, hpc, rfl⟩ := State.step_callback cfg s s' ok hstep
    exact unstored_callback s h ht ha pc hpc ok
  | daemon ok =>
    obtain ⟨p, pended, hp, rfl⟩ := State.step_daemon cfg s s' ok hstep
    obtain ⟨hi, hst, hc, -⟩ := p.run_frame ok { s.chip with pended }
    exact ⟨fun ho => fun he => h.state ho (hst.symm.trans he), h.wasActive,
      fun ho => (overrides_daemon s ok p pended hp).trans (h.overrides ho), fun hm => hc.trans (h.configured hm),
      h.chosen, fun wasActive hw => hi.trans (h.disabled wasActive hw)⟩

theorem unstored_called : Unstored .called :=
  ⟨fun _ => by rintro ⟨⟩, by rintro _ _ ⟨⟩, fun _ => rfl, by rintro ⟨⟩, by rintro _ ⟨⟩, by rintro _ ⟨⟩⟩

/-- The invariants of a run in which the stores may fall into each other. -/
structure Overlapped (s : State) : Prop where
  timed : Timed s
  early : Early s
  unstored : Unstored s

theorem overlapped_run (run : Steps (State.next cfg) (fun _ _ => True) .called s) : Overlapped s :=
  run.invariant _ _ Overlapped _ _ ⟨called_timed, early_called, unstored_called⟩ fun t l t' ht _ hn =>
    ⟨timed_next t ht.timed cfg l t' hn, early_next cfg t ht.early l t' (State.next_step cfg t t' l hn),
      unstored_next cfg t ht.unstored ht.timed ht.early l t' hn⟩

end run

/-- The state is that of configured power management, and the button is not heard any more. -/
structure Deaf (presses overrides : Nat) (s : State) : Prop where
  interrupt : s.chip.interrupt = false
  isr : s.isr = none
  enable : s.enable = none
  state : s.chip.state.active = true
  callback : s.callback.any CallbackPc.configures = false
  configured : s.chip.configured = 1
  presses : s.presses = presses
  overrides : s.overrides = overrides

section deaf
variable (cfg : Config) (m n : Nat) (s : State)

theorem Deaf.callback_step (h : Deaf m n s) (pc : CallbackPc) (hpc : s.callback = some pc) (ok : Bool) :
    Deaf m n { s with chip := (pc.step ok s.chip).1, callback := (pc.step ok s.chip).2 } := by
  obtain ⟨hlocks, happlications, hinterrupt, -⟩ := pc.step_frame ok s.chip
  have hcb := h.callback
  rw [hpc] at hcb
  have ho : (pc.step ok s.chip).1.locks + applications (pc.step ok s.chip).1.pended + s.refused = n := by
    rw [hlocks, happlications]
    exact h.overrides
  have hst : (pc.step ok s.chip).1.state.active = true ∧ (pc.step ok s.chip).1.configured = 1 ∧
      (pc.step ok s.chip).2.any CallbackPc.configures = false := by
    cases pc with
    | testNo =>
      have hne : ¬ s.chip.state = .bootWindowNoOverride := fun he => by cases (he ▸ h.state)
      rw [CallbackPc.step, if_neg hne]
      exact ⟨h.state, h.configured, rfl⟩
    | testAllow =>
      have hne : ¬ s.chip.state = .bootWindowAllowOverride := fun he => by cases (he ▸ h.state)
      rw [CallbackPc.step, if_neg hne]
      exact ⟨h.state, h.configured, rfl⟩
    | pendDelete => exact ⟨h.state, h.configured, rfl⟩
    | configure | choose | write => cases hcb
  exact ⟨hinterrupt.trans h.interrupt, h.isr, h.enable, hst.1, hst.2.2, hst.2.1, h.presses, ho⟩

theorem deaf_next (h : Deaf m n s) (l : Label) (s' : State) (hn : s.next cfg l = some s') : Deaf m n s' := by
  have hstep := State.next_step cfg s s' l hn
  cases l with
  | enable ok =>
    obtain ⟨pc, hpc, -⟩ := State.step_enable cfg s s' ok hstep
    cases hpc.symm.trans h.enable
  | press =>
    obtain ⟨hi, -⟩ := State.step_press cfg s s' hstep
    cases hi.symm.trans h.interrupt
  | isr ok =>
    obtain ⟨pc, hpc, -⟩ := State.step_isr cfg s s' ok hstep
    cases hpc.symm.trans h.isr
  | fire handle =>
    obtain ⟨-, -, rfl⟩ := State.step_fire cfg s s' handle hstep
    exact ⟨h.interrupt, h.isr, h.enable, h.state, rfl, h.configured, h.presses, h.overrides⟩
  | callback ok =>
    obtain ⟨pc, hpc, rfl⟩ := State.step_callback cfg s s' ok hstep
    exact h.callback_step m n s pc hpc ok
  | daemon ok =>
    obtain ⟨p, pended, hp, rfl⟩ := State.step_daemon cfg s s' ok hstep
    obtain ⟨hi, hst, hc, -⟩ := p.run_frame ok { s.chip with pended }
    exact ⟨hi.trans h.interrupt, h.isr, h.enable, (congrArg PmState.active hst).trans h.state, h.callback,
      hc.trans h.configured, h.presses, (overrides_daemon s ok p pended hp).trans h.overrides⟩

end deaf

/-- The steps that the interrupt still has to take. -/
def IsrPc.left : IsrPc → Nat
  | .read => 4
  | .write _ => 3
  | .disable _ => 2
  | .pend _ => 1

/-- The steps of the callback up to its store. -/
def CallbackPc.left : CallbackPc → Nat
  | .configure => 3
  | .choose => 2
  | _ => 1

/-- The interrupt returns, and then the callback stores its state. -/
def disturbed (isr : IsrPc) (callback : CallbackPc) : List Label :=
  List.replicate isr.left (.isr true) ++ List.replicate callback.left (.callback true)

section disturbed
variable (cfg : Config) (s : State) (ha : s.chip.aborted = false)
include ha

theorem exec_isr (pc : IsrPc) (hpc : s.isr = some pc) (hstate : s.chip.state ≠ .pmActiveAllowOverride)
    (hread : pc.wasActive ≠ some .pmActiveAllowOverride)
    (hoff : ∀ wasActive, pc = .pend wasActive → s.chip.interrupt = false) :
    ∃ state, exec (State.next cfg) s (List.replicate pc.left (.isr true)) =
      some { s with chip := { s.chip with state, interrupt := false }, isr := none } := by
  obtain ⟨⟨state, timerHandle, timers, interrupt, handler, configured, locks, pended, misuse, aborted⟩, enable, isr,
    callback, presses, firings, refused⟩ := s
  obtain rfl : aborted = false := ha
  obtain rfl : isr = some pc := hpc
  cases pc with
  | read =>
    refine ⟨.pmOverridden, ?_⟩
    cases state with
    | pmActiveAllowOverride => exact absurd rfl hstate
    | _ => rfl
  | write wasActive =>
    refine ⟨.pmOverridden, ?_⟩
    cases wasActive with
    | pmActiveAllowOverride => exact absurd rfl hread
    | _ => rfl
  | disable wasActive =>
    refine ⟨state, ?_⟩
    cases wasActive with
    | pmActiveAllowOverride => exact absurd rfl hread
    | _ => rfl
  | pend wasActive =>
    obtain rfl : interrupt = false := hoff _ rfl
    refine ⟨state, ?_⟩
    cases wasActive with
    | pmActiveAllowOverride => exact absurd rfl hread
    | _ => rfl

theorem exec_callback (pc : CallbackPc) (hpc : s.callback = some pc) (hconf : pc.configures = true)
    (hchosen : ∀ v, pc = .write v → v.active = true) :
    ∃ state configured, exec (State.next cfg) s (List.replicate pc.left (.callback true)) =
      some { s with chip := { s.chip with state, configured }, callback := some .pendDelete } ∧
      state.active = true ∧ configured = if pc.configured then s.chip.configured else s.chip.configured + 1 := by
  obtain ⟨⟨state, timerHandle, timers, interrupt, handler, configured, locks, pended, misuse, aborted⟩, enable, isr,
    callback, presses, firings, refused⟩ := s
  obtain rfl : aborted = false := ha
  obtain rfl : callback = some pc := hpc
  have hactive : PmState.active (if state = .bootWindowNoOverride then .pmActiveNoOverride else .pmActiveAllowOverride) =
      true := by
    split_ifs <;> rfl
  cases pc with
  | configure => exact ⟨_, _, rfl, hactive, rfl⟩
  | choose => exact ⟨_, _, rfl, hactive, rfl⟩
  | write v => exact ⟨v, _, rfl, hchosen v rfl, rfl⟩
  | testNo | testAllow | pendDelete => cases hconf

end disturbed

/-- Where the interrupt runs while the callback stands between its decision and its store, the press is lost: when
the interrupt has returned the callback stores over it, and in every run from there power management stays
configured, without an override, though the button has been disabled. -/
theorem disturbed_lost (cfg : Config) (s : State) (run : Steps (State.next cfg) (fun _ _ => True) .called s)
    (ha : s.chip.aborted = false) (callback : CallbackPc) (hc : s.callback = some callback)
    (hconf : callback.configures = true) (isr : IsrPc) (hi : s.isr = some isr) :
    ∃ t, exec (State.next cfg) s (disturbed isr callback) = some t ∧
      ∀ u, Steps (State.next cfg) (fun _ _ => True) t u →
        u.chip.state.active = true ∧ u.chip.configured = 1 ∧ u.chip.interrupt = false ∧
          u.presses = s.presses ∧ u.overrides = 0 := by
  obtain ⟨htimed, -, hun⟩ := overlapped_run cfg s run
  obtain ⟨st, hst⟩ := htimed.stage ha
  obtain ⟨h', he, -, -, -, ⟨pc, hpc, hmade⟩, -⟩ := at_fired s st hst _ hc
  obtain rfl : callback = pc := Option.some.inj (hc.symm.trans hpc)
  have hopen : s.Open := by
    refine ⟨fun hp => ?_, fun hn => by cases hc.symm.trans hn⟩
    obtain rfl := Option.some.inj (hc.symm.trans hp)
    cases hconf
  have hread := hun.wasActive hopen isr hi
  obtain ⟨state, hisr⟩ := exec_isr cfg s ha isr hi (hun.state hopen) hread
    fun wasActive hw => hun.disabled wasActive (hw ▸ hi)
  obtain ⟨state', configured, hcallback, hactive, hconfigured⟩ := exec_callback cfg
    { s with chip := { s.chip with state, interrupt := false }, isr := none } ha callback hc hconf
    fun v hv => hun.chosen v (hv ▸ hc)
  have hrun := congrArg (·.bind fun t => exec (State.next cfg) t (List.replicate callback.left (.callback true))) hisr
  refine ⟨_, (exec_append _ _ _ _).trans (hrun.trans hcallback), ?_⟩
  intro u hu
  have hone : configured = 1 := by
    rw [hconfigured]
    cases callback with
    | configure => exact congrArg (· + 1) (Nat.le_zero.mp hmade)
    | choose => exact hun.configured (by rw [hc]; rfl)
    | write v => exact hun.configured (by rw [hc]; rfl)
    | testNo | testAllow | pendDelete => cases hconf
  have h : Deaf s.presses 0 u := hu.invariant _ _ _ _ _
    ⟨rfl, rfl, he, hactive, rfl, hone, rfl, hun.overrides hopen⟩ fun t l t' ht _ hn => deaf_next cfg _ _ t ht l t' hn
  exact ⟨h.state, h.configured, h.interrupt, h.presses, h.overrides⟩

/-- The button is pressed when the callback has made its decision. -/
def pressInCallback : List Label :=
  List.replicate 5 (.enable true) ++ [.fire 0, .callback true, .callback true, .press]

theorem disturbed_lost_once :
    ∃ s t, exec (guarded (State.next ⟨true, true⟩) fun _ _ => True) .called pressInCallback = some s ∧
      exec (State.next ⟨true, true⟩) s (disturbed .read .configure) = some t ∧ t.presses = 1 ∧ t.overrides = 0 := by
  have hrun : (exec (guarded (State.next ⟨true, true⟩) fun _ _ => True) .called pressInCallback).any
      (fun s => s.chip.aborted = false ∧ s.callback = some .configure ∧ s.isr = some .read ∧ s.presses = 1) = true := by
    decide
  obtain ⟨s, hs, hp⟩ := (Option.any_eq_true _ _).mp hrun
  obtain ⟨ha, hc, hi, hone⟩ := of_decide_eq_true hp
  obtain ⟨t, ht, hall⟩ := disturbed_lost ⟨true, true⟩ s (steps_of_guarded _ _ _ _ _ hs) ha .configure hc rfl .read hi
  obtain ⟨-, -, -, hpresses, ho⟩ := hall t .refl
  exact ⟨s, t, hs, ht, hpresses.trans hone, ho⟩

end Espbase.Boot.Pm
