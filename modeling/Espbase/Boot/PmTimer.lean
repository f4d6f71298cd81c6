import Espbase.Boot.DelayedPmEnable

namespace Espbase.Boot.Pm

open Espbase.Lib

/-- How far the timer has come. -/
inductive Stage where
  | absent
  | created (h : Nat)
  | running (h : Nat)
  /-- the callback runs -/
  | fired (h : Nat)
  /-- its deletion is pended -/
  | doomed (h : Nat)
  | gone

/-- The timers whose deletion is pended. -/
def deletions (pended : List Pended) : List (Option Nat) :=
  pended.filterMap fun
    | .deleteTimer h => some h
    | .applyPmOverride => none

/-- There is this timer and no other. -/
def Only (t : Handles Bool) (h : Nat) (running : Bool) : Prop :=
  t.get h = some running ∧ ∀ h', t.Live h' → h' = h

/-- The configurations that have been made when the callback is here. -/
def CallbackPc.made : CallbackPc → Nat
  | .testNo => 0
  | .testAllow => 0
  | .configure => 0
  | _ => 1

structure Idle (s : State) (firings : Nat) (pending : List (Option Nat)) : Prop where
  callback : s.callback = none
  firings : s.firings = firings
  deletions : deletions s.chip.pended = pending

def At (s : State) : Stage → Prop
  | .absent => (∃ pc, s.enable = some pc ∧ pc ≠ .startOnce) ∧ Idle s 0 [] ∧ s.chip.configured = 0 ∧
      ∀ h, ¬ s.chip.timers.Live h
  | .created h => s.enable = some .startOnce ∧ s.chip.timerHandle = some h ∧ Idle s 0 [] ∧
      s.chip.configured = 0 ∧ Only s.chip.timers h false
  | .running h => s.enable = none ∧ s.chip.timerHandle = some h ∧ Idle s 0 [] ∧ s.chip.configured = 0 ∧
      Only s.chip.timers h true
  | .fired h => s.enable = none ∧ s.chip.timerHandle = some h ∧ s.firings = 1 ∧
      deletions s.chip.pended = [] ∧ (∃ pc, s.callback = some pc ∧ s.chip.configured ≤ pc.made) ∧
      Only s.chip.timers h false
  | .doomed h => s.enable = none ∧ Idle s 1 [some h] ∧ s.chip.configured ≤ 1 ∧ Only s.chip.timers h false
  | .gone => s.enable = none ∧ Idle s 1 [] ∧ s.chip.configured ≤ 1 ∧ ∀ h, ¬ s.chip.timers.Live h

/-- What holds of the timer, also after an abort. -/
structure Timed (s : State) : Prop where
  misuse : s.chip.misuse = false
  firings : s.firings ≤ 1
  configured : s.chip.configured ≤ s.firings
  one : ∀ h h', s.chip.timers.Live h → s.chip.timers.Live h' → h = h'
  stage : s.chip.aborted = false → ∃ st, At s st

section only
variable (t : Handles Bool) (h : Nat)

theorem only_create (hn : ∀ h', ¬ t.Live h') : Only (t.create false) t.fresh false := by
  refine ⟨t.get_create_fresh false, ?_⟩
  intro h' hl
  exact ((t.live_create false h').mp hl).resolve_right (hn h')

theorem Only.modify (running running' : Bool) (ho : Only t h running) :
    Only (t.modify h fun _ => running') h running' := by
  refine ⟨?_, fun h' hl => ho.2 h' ((t.live_modify h h' _).mp hl)⟩
  rw [Handles.get_modify_self, ho.1]
  rfl

theorem Only.delete (running : Bool) (ho : Only t h running) (h' : Nat) : ¬ (t.delete h).Live h' := by
  intro hl
  obtain ⟨hne, hl⟩ := (t.live_delete h h').mp hl
  exact hne (ho.2 h' hl)

theorem Only.one (running : Bool) (ho : Only t h running) (i j : Nat) (hi : t.Live i) (hj : t.Live j) :
    i = j := (ho.2 i hi).trans (ho.2 j hj).symm

end only

/-- What the stage is about is the same. -/
structure SameTimer (s s' : State) : Prop where
  enable : s'.enable = s.enable
  callback : s'.callback = s.callback
  firings : s'.firings = s.firings
  timerHandle : s'.chip.timerHandle = s.chip.timerHandle
  timers : s'.chip.timers = s.chip.timers
  configured : s'.chip.configured = s.chip.configured
  deletions : deletions s'.chip.pended = deletions s.chip.pended

section same
variable (s s' : State) (hs : SameTimer s s')
include hs

theorem Idle.same (firings : Nat) (pending : List (Option Nat)) (h : Idle s firings pending) :
    Idle s' firings pending :=
  ⟨hs.callback.trans h.callback, hs.firings.trans h.firings, hs.deletions.trans h.deletions⟩

theorem At.same (st : Stage) (h : At s st) : At s' st := by
  cases st with
  | absent =>
    obtain ⟨he, hi, hc, hn⟩ := h
    exact ⟨hs.enable ▸ he, hi.same s s' hs, hs.configured.trans hc, hs.timers ▸ hn⟩
  | created h' =>
    obtain ⟨he, hh, hi, hc, ho⟩ := h
    exact ⟨hs.enable.trans he, hs.timerHandle.trans hh, hi.same s s' hs, hs.configured.trans hc, hs.timers ▸ ho⟩
  | running h' =>
    obtain ⟨he, hh, hi, hc, ho⟩ := h
    exact ⟨hs.enable.trans he, hs.timerHandle.trans hh, hi.same s s' hs, hs.configured.trans hc, hs.timers ▸ ho⟩
  | fired h' =>
    obtain ⟨he, hh, hf, hd, ⟨pc, hpc, hc⟩, ho⟩ := h
    exact ⟨hs.enable.trans he, hs.timerHandle.trans hh, hs.firings.trans hf, hs.deletions.trans hd,
      ⟨pc, hs.callback.trans hpc, hs.configured ▸ hc⟩, hs.timers ▸ ho⟩
  | doomed h' =>
    obtain ⟨he, hi, hc, ho⟩ := h
    exact ⟨hs.enable.trans he, hi.same s s' hs, hs.configured ▸ hc, hs.timers ▸ ho⟩
  | gone =>
    obtain ⟨he, hi, hc, hn⟩ := h
    exact ⟨hs.enable.trans he, hi.same s s' hs, hs.configured ▸ hc, hs.timers ▸ hn⟩

end same

section timed
variable (s : State)

/-- What the stage says of the state as a whole. -/
theorem timed_of_at (st : Stage) (hm : s.chip.misuse = false) (h : At s st) : Timed s := by
  have hone : s.firings ≤ 1 ∧ s.chip.configured ≤ s.firings ∧
      ∀ i j, s.chip.timers.Live i → s.chip.timers.Live j → i = j := by
    cases st with
    | absent =>
      obtain ⟨-, hi, hc, hn⟩ := h
      rw [hi.firings, hc]
      exact ⟨Nat.zero_le 1, Nat.le_refl 0, fun i _ hl => absurd hl (hn i)⟩
    | created h' =>
      obtain ⟨-, -, hi, hc, ho⟩ := h
      rw [hi.firings, hc]
      exact ⟨Nat.zero_le 1, Nat.le_refl 0, ho.one _ h' false⟩
    | running h' =>
      obtain ⟨-, -, hi, hc, ho⟩ := h
      rw [hi.firings, hc]
      exact ⟨Nat.zero_le 1, Nat.le_refl 0, ho.one _ h' true⟩
    | fired h' =>
      obtain ⟨-, -, hf, -, ⟨pc, -, hc⟩, ho⟩ := h
      rw [hf]
      have hmade : pc.made ≤ 1 := by cases pc <;> simp [CallbackPc.made]
      exact ⟨Nat.le_refl 1, Nat.le_trans hc hmade, ho.one _ h' false⟩
    | doomed h' =>
      obtain ⟨-, hi, hc, ho⟩ := h
      rw [hi.firings]
      exact ⟨Nat.le_refl 1, hc, ho.one _ h' false⟩
    | gone =>
      obtain ⟨-, hi, hc, hn⟩ := h
      rw [hi.firings]
      exact ⟨Nat.le_refl 1, hc, fun i _ hl => absurd hl (hn i)⟩
  exact ⟨hm, hone.1, hone.2.1, hone.2.2, fun _ => ⟨st, h⟩⟩

variable (h : Timed s)
include h

/-- An abort leaves what has been done. -/
theorem timed_abort (s' : State) (hm : s'.chip.misuse = s.chip.misuse) (hf : s'.firings = s.firings)
    (hc : s'.chip.configured = s.chip.configured) (ht : s'.chip.timers = s.chip.timers)
    (ha : s'.chip.aborted = true) : Timed s' := by
  refine ⟨hm.trans h.misuse, hf ▸ h.firings, by rw [hc, hf]; exact h.configured, ?_, ?_⟩
  · rw [ht]
    exact h.one
  · intro hna
    rw [ha] at hna
    cases hna

omit h in
theorem at_absent (st : Stage) (hst : At s st) (pc : EnablePc) (hpc : s.enable = some pc) (hne : pc ≠ .startOnce) :
    At s .absent := by
  cases st with
  | absent => exact hst
  | created h' => exact absurd (Option.some.inj (hpc.symm.trans hst.1)) hne
  | _ => cases hpc.symm.trans hst.1

omit h in
theorem at_created (st : Stage) (hst : At s st) (hpc : s.enable = some .startOnce) : ∃ h, At s (.created h) := by
  cases st with
  | absent =>
    obtain ⟨⟨pc, hpc', hne⟩, -⟩ := hst
    exact absurd (Option.some.inj (hpc'.symm.trans hpc)) hne
  | created h' => exact ⟨h', hst⟩
  | _ => cases hpc.symm.trans hst.1

omit h in
/-- The steps before the timer is created. -/
theorem timed_absent (hm : s.chip.misuse = false) (hst : At s .absent) (chip : Chip) (pc : EnablePc)
    (hne : pc ≠ .startOnce) (hc : chip.timers = s.chip.timers ∧ chip.pended = s.chip.pended ∧
      chip.configured = s.chip.configured ∧ chip.misuse = s.chip.misuse) :
    Timed { s with chip, enable := some pc } := by
  obtain ⟨ht, hp, hconf, hmis⟩ := hc
  obtain ⟨-, hi, hz, hn⟩ := hst
  refine timed_of_at _ .absent (hmis.trans hm) ⟨⟨pc, rfl, hne⟩, ⟨hi.callback, hi.firings, ?_⟩, ?_, ?_⟩
  · exact (congrArg deletions hp).trans hi.deletions
  · exact hconf.trans hz
  · intro h' hl
    exact hn h' (ht ▸ hl)

theorem timed_enable (cfg : Config) (ok : Bool) (ha : s.chip.aborted = false) (pc : EnablePc)
    (hpc : s.enable = some pc) :
    Timed { s with chip := (pc.step cfg ok s.chip).1, enable := (pc.step cfg ok s.chip).2 } := by
  obtain ⟨st, hst⟩ := h.stage ha
  cases pc with
  | storeState =>
    have habsent := at_absent s st hst _ hpc nofun
    simp only [EnablePc.step]
    split_ifs
    · exact timed_absent s h.misuse habsent _ .gpioConfig nofun ⟨rfl, rfl, rfl, rfl⟩
    · exact timed_absent s h.misuse habsent _ .gpioConfig nofun ⟨rfl, rfl, rfl, rfl⟩
    · exact timed_absent s h.misuse habsent _ .create nofun ⟨rfl, rfl, rfl, rfl⟩
  | gpioConfig =>
    have habsent := at_absent s st hst _ hpc nofun
    exact timed_absent s h.misuse habsent _ .addHandler nofun ⟨rfl, rfl, rfl, rfl⟩
  | addHandler =>
    have habsent := at_absent s st hst _ hpc nofun
    exact timed_absent s h.misuse habsent _ .create nofun ⟨rfl, rfl, rfl, rfl⟩
  | create =>
    obtain ⟨-, hi, hz, hn⟩ := at_absent s st hst _ hpc nofun
    cases ok with
    | true =>
      exact timed_of_at _ (.created s.chip.timers.fresh) h.misuse
        ⟨rfl, rfl, ⟨hi.callback, hi.firings, hi.deletions⟩, hz, only_create _ hn⟩
    | false => exact timed_abort s h _ rfl rfl rfl rfl rfl
  | startOnce =>
    obtain ⟨h', -, hh, hi, hz, ho⟩ := at_created s st hst hpc
    simp only [EnablePc.step, hh]
    exact timed_of_at _ (.running h') h.misuse
      ⟨rfl, rfl, ⟨hi.callback, hi.firings, hi.deletions⟩, hz, ho.modify _ h' false true⟩

theorem timed_fire (ha : s.chip.aborted = false) (handle : Nat)
    (hg : s.chip.timers.get handle = some true) :
    Timed { s with
      chip := { s.chip with timers := s.chip.timers.modify handle fun _ => false }
      callback := some .testNo
      firings := s.firings + 1 } := by
  obtain ⟨st, hst⟩ := h.stage ha
  have hlive : s.chip.timers.Live handle := by
    rw [Handles.Live, hg]
    rfl
  -- a timer that is there does not run, except in its stage
  have hoff (h' : Nat) (ho : Only s.chip.timers h' false) : False := by
    obtain rfl := ho.2 handle hlive
    cases hg.symm.trans ho.1
  cases st with
  | absent => exact absurd hlive (hst.2.2.2 handle)
  | created h' => exact (hoff h' hst.2.2.2.2).elim
  | running h' =>
    obtain ⟨he, hh, hi, hz, ho⟩ := hst
    obtain rfl := ho.2 handle hlive
    refine timed_of_at _ (.fired handle) h.misuse ⟨he, hh, ?_, hi.deletions, ⟨.testNo, rfl, ?_⟩, ?_⟩
    · exact congrArg (· + 1) hi.firings
    · exact Nat.le_of_eq hz
    · exact ho.modify _ handle true false
  | fired h' => exact (hoff h' hst.2.2.2.2.2).elim
  | doomed h' => exact (hoff h' hst.2.2.2).elim
  | gone => exact absurd hlive (hst.2.2.2 handle)

omit h in
theorem at_fired (st : Stage) (hst : At s st) (pc : CallbackPc) (hpc : s.callback = some pc) :
    ∃ h, At s (.fired h) := by
  cases st with
  | fired h' => exact ⟨h', hst⟩
  | absent => cases hpc.symm.trans hst.2.1.callback
  | created h' => cases hpc.symm.trans hst.2.2.1.callback
  | running h' => cases hpc.symm.trans hst.2.2.1.callback
  | doomed h' => cases hpc.symm.trans hst.2.1.callback
  | gone => cases hpc.symm.trans hst.2.1.callback

theorem timed_callback (ok : Bool) (ha : s.chip.aborted = false) (pc : CallbackPc) (hpc : s.callback = some pc) :
    Timed { s with chip := (pc.step ok s.chip).1, callback := (pc.step ok s.chip).2 } := by
  obtain ⟨st, hst⟩ := h.stage ha
  obtain ⟨h', he, hh, hf, hd, ⟨pc', hpc', hmade⟩, ho⟩ := at_fired s st hst pc hpc
  obtain rfl : pc = pc' := Option.some.inj (hpc.symm.trans hpc')
  -- the callback goes on
  have hgoes (chip : Chip) (next : CallbackPc) (hc : chip.timers = s.chip.timers ∧
      chip.timerHandle = s.chip.timerHandle ∧ chip.pended = s.chip.pended ∧ chip.misuse = s.chip.misuse)
      (hnext : chip.configured ≤ next.made) : Timed { s with chip, callback := some next } := by
    obtain ⟨ht, hth, hp, hm⟩ := hc
    refine timed_of_at _ (.fired h') (hm.trans h.misuse) ⟨he, hth.trans hh, hf, ?_, ⟨next, rfl, hnext⟩, ?_⟩
    · exact (congrArg deletions hp).trans hd
    · exact ht.symm ▸ ho
  cases pc with
  | testNo =>
    refine hgoes s.chip _ ⟨rfl, rfl, rfl, rfl⟩ ?_
    split_ifs <;> exact hmade
  | testAllow =>
    refine hgoes s.chip _ ⟨rfl, rfl, rfl, rfl⟩ (Nat.le_trans hmade (Nat.zero_le _))
  | configure =>
    cases ok with
    | true => exact hgoes _ .choose ⟨rfl, rfl, rfl, rfl⟩ (Nat.succ_le_succ hmade)
    | false => exact timed_abort s h _ rfl rfl rfl rfl rfl
  | choose => exact hgoes s.chip _ ⟨rfl, rfl, rfl, rfl⟩ hmade
  | write state => exact hgoes _ .pendDelete ⟨rfl, rfl, rfl, rfl⟩ hmade
  | pendDelete =>
    refine timed_of_at _ (.doomed h') h.misuse ⟨he, ⟨rfl, hf, ?_⟩, hmade, ho⟩
    dsimp only [CallbackPc.step]
    rw [deletions, List.filterMap_append, hh]
    exact congrArg (· ++ [some h']) hd

/-- Only the deletion of a stopped timer that exists is pended. -/
theorem timed_daemon (ok : Bool) (ha : s.chip.aborted = false) (p : Pended) (pended : List Pended)
    (hp : s.chip.pended = p :: pended) :
    Timed { s with
      chip := p.run ok { s.chip with pended }
      refused := s.refused + p.refuses ok } := by
  obtain ⟨st, hst⟩ := h.stage ha
  cases p with
  | applyPmOverride =>
    have hrest : deletions pended = deletions s.chip.pended := by
      rw [hp]
      rfl
    have hchip : ∃ locks, Pended.applyPmOverride.run ok { s.chip with pended } = { s.chip with pended, locks } := by
      cases ok with
      | true => exact ⟨_, rfl⟩
      | false => exact ⟨_, rfl⟩
    obtain ⟨locks, hchip⟩ := hchip
    rw [hchip]
    refine timed_of_at _ st h.misuse (At.same s _ ?_ st hst)
    exact ⟨rfl, rfl, rfl, rfl, rfl, rfl, hrest⟩
  | deleteTimer handle =>
    have hfirst : deletions s.chip.pended = handle :: deletions pended := by
      rw [hp]
      rfl
    cases st with
    | absent => cases hfirst.symm.trans hst.2.1.deletions
    | created h' => cases hfirst.symm.trans hst.2.2.1.deletions
    | running h' => cases hfirst.symm.trans hst.2.2.1.deletions
    | fired h' => cases hfirst.symm.trans hst.2.2.2.1
    | gone => cases hfirst.symm.trans hst.2.1.deletions
    | doomed h' =>
      obtain ⟨he, hi, hz, ho⟩ := hst
      obtain ⟨rfl, hrest⟩ := List.cons.inj (hfirst.symm.trans hi.deletions)
      have hrun : (Pended.deleteTimer (some h')).run ok { s.chip with pended } =
          { s.chip with pended, timers := s.chip.timers.delete h' } := by
        simp only [Pended.run, ho.1]
        rfl
      rw [hrun]
      exact timed_of_at _ .gone h.misuse ⟨he, ⟨hi.callback, hi.firings, hrest⟩, hz, ho.delete _ h' false⟩

/-- The interrupt does not touch the timer. -/
theorem timed_isr (ok : Bool) (pc : IsrPc) (isr : Option IsrPc) (refused : Nat) :
    Timed { s with chip := (pc.step ok s.chip).1, isr, refused } := by
  have hchip : ∃ state interrupt pended, (pc.step ok s.chip).1 = { s.chip with state, interrupt, pended } ∧
      deletions pended = deletions s.chip.pended := by
    cases pc with
    | read => exact ⟨_, _, _, rfl, rfl⟩
    | write wasActive => exact ⟨_, _, _, rfl, rfl⟩
    | disable wasActive => exact ⟨_, _, _, rfl, rfl⟩
    | pend wasActive =>
      simp only [IsrPc.step]
      split_ifs
      · refine ⟨_, _, _, rfl, ?_⟩
        rw [deletions, List.filterMap_append]
        exact List.append_nil _
      · exact ⟨_, _, _, rfl, rfl⟩
  obtain ⟨state, interrupt, pended, hchip, hd⟩ := hchip
  rw [hchip]
  refine ⟨h.misuse, h.firings, h.configured, h.one, ?_⟩
  intro ha
  obtain ⟨st, hst⟩ := h.stage ha
  refine ⟨st, At.same s _ ?_ st hst⟩
  exact ⟨rfl, rfl, rfl, rfl, rfl, rfl, hd⟩

theorem timed_next (cfg : Config) (l : Label) (s' : State) (hn : s.next cfg l = some s') : Timed s' := by
  have ha : s.chip.aborted = false := by
    unfold State.next at hn
    split_ifs at hn with ha
    exact eq_false_of_ne_true ha
  have hstep := State.next_step cfg s s' l hn
  cases l with
  | enable ok =>
    obtain ⟨pc, hpc, rfl⟩ := State.step_enable cfg s s' ok hstep
    exact timed_enable s h cfg ok ha pc hpc
  | press =>
    obtain ⟨-, -, -, rfl⟩ := State.step_press cfg s s' hstep
    obtain ⟨st, hst⟩ := h.stage ha
    refine timed_of_at _ st h.misuse (At.same s _ ?_ st hst)
    exact ⟨rfl, rfl, rfl, rfl, rfl, rfl, rfl⟩
  | isr ok =>
    obtain ⟨pc, -, rfl⟩ := State.step_isr cfg s s' ok hstep
    exact timed_isr s h ok pc _ _
  | fire handle =>
    obtain ⟨-, hg, rfl⟩ := State.step_fire cfg s s' handle hstep
    exact timed_fire s h ha handle hg
  | callback ok =>
    obtain ⟨pc, hpc, rfl⟩ := State.step_callback cfg s s' ok hstep
    exact timed_callback s h ok ha pc hpc
  | daemon ok =>
    obtain ⟨p, pended, hp, rfl⟩ := State.step_daemon cfg s s' ok hstep
    exact timed_daemon s h ok ha p pended hp

end timed

theorem called_timed : Timed .called :=
  timed_of_at _ .absent rfl ⟨⟨.storeState, rfl, nofun⟩, ⟨rfl, rfl, rfl⟩, rfl, Handles.not_live_empty⟩

/-- In every run: the timer fires at most once, power management is configured at most once and only then,
there is at most one timer, none is deleted that does not exist, and when the window is over and nothing is
left to do the timer is gone. -/
theorem pm_timer (cfg : Config) (s : State) (run : Steps (State.next cfg) (fun _ _ => True) .called s) :
    s.firings ≤ 1 ∧ s.chip.configured ≤ s.firings ∧ s.chip.misuse = false ∧
    (∀ h h', s.chip.timers.Live h → s.chip.timers.Live h' → h = h') ∧
    (s.chip.aborted = false → s.firings = 1 → s.callback = none → s.chip.pended = [] →
      ∀ h, ¬ s.chip.timers.Live h) := by
  have h : Timed s := run.invariant _ _ Timed _ _ called_timed
    fun t l t' ht _ hn => timed_next t ht cfg l t' hn
  refine ⟨h.firings, h.configured, h.misuse, h.one, ?_⟩
  intro ha hf hc hp
  obtain ⟨st, hst⟩ := h.stage ha
  cases st with
  | gone => exact hst.2.2.2
  | doomed h' =>
    have hd := hst.2.1.deletions
    rw [hp] at hd
    cases hd
  | fired h' =>
    obtain ⟨pc, hpc, -⟩ := hst.2.2.2.2.1
    cases hc.symm.trans hpc
  | absent => cases hf.symm.trans hst.2.1.firings
  | created h' => cases hf.symm.trans hst.2.2.1.firings
  | running h' => cases hf.symm.trans hst.2.2.1.firings

/-- The window passes without a press. -/
def windowOver : List Label :=
  List.replicate 5 (.enable true) ++ .fire 0 :: List.replicate 6 (.callback true) ++ [.daemon true]

theorem pm_timer_over :
    ∃ s, exec (guarded (State.next ⟨true, true⟩) fun _ _ => True) .called windowOver = some s ∧
      s.chip.configured = 1 ∧ s.chip.misuse = false ∧ ∀ h, ¬ s.chip.timers.Live h := by
  have hrun : (exec (guarded (State.next ⟨true, true⟩) fun _ _ => True) .called windowOver).any
      (fun s => s.chip.configured = 1 ∧ s.chip.aborted = false ∧ s.firings = 1 ∧ s.callback = none ∧
        s.chip.pended = []) = true := by decide
  obtain ⟨s, hs, hp⟩ := (Option.any_eq_true _ _).mp hrun
  obtain ⟨hc, ha, hf, hcb, hpend⟩ := of_decide_eq_true hp
  have h := pm_timer ⟨true, true⟩ s (steps_of_guarded _ _ _ _ _ hs)
  exact ⟨s, hs, hc, h.2.2.1, h.2.2.2.2 ha hf hcb hpend⟩

end Espbase.Boot.Pm
