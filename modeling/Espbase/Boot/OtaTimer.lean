import Espbase.Boot.OtaRollbackWatchdog

namespace Espbase.Boot.Ota

open Espbase.Lib

namespace State

/-- A start or a mark is in progress. -/
def Busy (s : State) : Prop := ∃ c ∈ s.calls, c ≠ .gate

instance (s : State) : Decidable s.Busy := inferInstanceAs (Decidable (∃ c ∈ s.calls, _))

/-- The step begins a start or a mark. -/
def enters (s : State) : Label → Bool
  | .begin e => e ≠ .gatePassed
  | .call i _ => s.calls[i]? = some .gate && s.chip.startupChecks - 1 = 0
  | _ => false

end State

def Label.starts : Label → Bool
  | .begin (.start _) => true
  | _ => false

namespace State

/-- Starts and marks do not overlap, and the watchdog is not started twice. -/
def Orderly (s : State) (l : Label) : Prop :=
  (s.enters l = true → ¬ s.Busy) ∧ (l.starts = true → s.chip.watchdogTimer = none)

instance (s : State) (l : Label) : Decidable (s.Orderly l) := inferInstanceAs (Decidable (_ ∧ _))

/-- The starts and marks in progress. -/
def work (s : State) : List Call := s.calls.filter fun c => c ≠ .gate

end State

namespace Chip
variable (c : Chip)

/-- The variable holds the only timer that exists. -/
def Keeps : Prop := c.timers.Owned fun _ : Unit => c.watchdogTimer

/-- The watchdog is off, unless the image is unverified. -/
def Guarded : Prop := c.Keeps ∧ (c.otaState ≠ some .pendingVerify → c.watchdogTimer = none)

end Chip

/-- What is known of the timers while the call is where it is, or while there is none. -/
def Fits (c : Chip) : Option Call → Prop
  | none => c.Guarded
  | some .gate => False
  | some (.start (.store _)) => c.Keeps ∧ c.watchdogTimer = none
  | some (.start .readState) => c.Keeps ∧ c.watchdogTimer = none
  | some (.start .create) => c.Keeps ∧ c.watchdogTimer = none ∧ c.otaState = some .pendingVerify
  | some (.start .startOnce) => c.Keeps ∧ c.otaState = some .pendingVerify ∧
      ∃ h, c.watchdogTimer = some h ∧ c.timers.get h = some false
  | some (.mark .readState) => c.Guarded
  | some (.mark .markValid) => c.Keeps
  | some (.mark .testTimer) => c.Keeps
  | some (.mark .stop) => c.Keeps ∧ ∃ h, c.watchdogTimer = some h
  | some (.mark .delete) => c.Keeps ∧ ∃ h, c.watchdogTimer = some h ∧ c.timers.get h = some false
  | some (.mark .clear) => ∀ h, ¬ c.timers.Live h

structure Tidy (s : State) : Prop where
  misuse : s.chip.misuse = false
  reset : s.chip.reset ≠ some .startFailed
  fits : ∃ w : Option Call, s.work = w.toList ∧ Fits s.chip w

namespace Chip
variable (c : Chip)

theorem Keeps.none_live (h : c.Keeps) (hw : c.watchdogTimer = none) (handle : Nat) : ¬ c.timers.Live handle :=
  Handles.Owned.none_live _ _ h (fun _ => hw) handle

theorem keeps_of_none (hw : c.watchdogTimer = none) (hn : ∀ h, ¬ c.timers.Live h) : c.Keeps := by
  refine ⟨?_, fun _ _ _ _ _ => rfl, fun h hl => absurd hl (hn h)⟩
  intro _ h hh
  rw [hw] at hh
  cases hh

/-- A change of a timer that exists. -/
theorem Keeps.modify (h : c.Keeps) (handle : Nat) (f : Bool → Bool) :
    Keeps { c with timers := c.timers.modify handle f } := Handles.Owned.modify _ _ h handle f

theorem Keeps.create (h : c.Keeps) (hw : c.watchdogTimer = none) :
    Keeps { c with watchdogTimer := some c.timers.fresh, timers := c.timers.create false } := by
  have hc := Handles.Owned.create _ _ h () false hw
  have hone : Function.update (fun _ : Unit => c.watchdogTimer) () (some c.timers.fresh) =
      fun _ => some c.timers.fresh := funext fun _ => Function.update_self ..
  rw [hone] at hc
  exact hc

/-- What the variable held is deleted, and nothing is left. -/
theorem Keeps.delete (h : c.Keeps) (handle : Nat) (hw : c.watchdogTimer = some handle) (handle' : Nat) :
    ¬ (c.timers.delete handle).Live handle' := by
  have hd := Handles.Owned.delete _ _ h () handle hw
  exact Handles.Owned.none_live _ _ hd (fun _ => Function.update_self ..) handle'

theorem Keeps.held (h : c.Keeps) (handle : Nat) (hw : c.watchdogTimer = some handle) :
    ∃ running, c.timers.get handle = some running :=
  c.timers.live_get handle (Handles.Owned.live h () handle hw)

end Chip

/-- Each step of a start or of a mark, which is the only one in progress. -/
theorem fits_step (ok : Bool) (c : Chip) (call : Call) (h : Fits c (some call)) :
    Fits (call.step ok c).1 (call.step ok c).2 ∧ (call.step ok c).1.misuse = c.misuse ∧
      ((call.step ok c).1.reset = some .startFailed → c.reset = some .startFailed) := by
  cases call with
  | gate => exact h.elim
  | start pc =>
    cases pc with
    | store checks => exact ⟨h, rfl, id⟩
    | readState =>
      refine ⟨?_, rfl, id⟩
      by_cases hp : c.otaState = some .pendingVerify
      · simp only [Call.step, StartPc.step, if_pos hp]
        exact ⟨h.1, h.2, hp⟩
      · simp only [Call.step, StartPc.step, if_neg hp]
        exact ⟨h.1, fun _ => h.2⟩
    | create =>
      obtain ⟨hk, hw, hp⟩ := h
      cases ok with
      | true => exact ⟨⟨hk.create c hw, hp, c.timers.fresh, rfl, c.timers.get_create_fresh false⟩, rfl, id⟩
      | false => exact ⟨⟨hk, fun hne => absurd hp hne⟩, rfl, nofun⟩
    | startOnce =>
      obtain ⟨hk, hp, handle, hw, hg⟩ := h
      have hstep : (Call.start .startOnce).step ok c =
          ({ c with timers := c.timers.modify handle fun _ => true }, none) := by
        simp only [Call.step, StartPc.step, Chip.timerStartOnce, hw, c.onTimer_live _ handle false hg]
        rfl
      rw [hstep]
      exact ⟨⟨hk.modify c handle _, fun hne => absurd hp hne⟩, rfl, id⟩
  | mark pc =>
    cases pc with
    | readState =>
      refine ⟨?_, rfl, id⟩
      by_cases hp : c.otaState = some .pendingVerify
      · simp only [Call.step, MarkPc.step, if_pos hp]
        exact h.1
      · simp only [Call.step, MarkPc.step, if_neg hp]
        exact h
    | markValid =>
      cases ok with
      | true => exact ⟨h, rfl, id⟩
      | false => exact ⟨h, rfl, id⟩
    | testTimer =>
      refine ⟨?_, rfl, id⟩
      cases hw : c.watchdogTimer with
      | none =>
        simp only [Call.step, MarkPc.step, hw]
        exact ⟨h, fun _ => hw⟩
      | some handle =>
        simp only [Call.step, MarkPc.step, hw]
        exact ⟨h, handle, hw⟩
    | stop =>
      obtain ⟨hk, handle, hw⟩ := h
      obtain ⟨running, hg⟩ := hk.held c handle hw
      have hstep : (Call.mark .stop).step ok c =
          ({ c with timers := c.timers.modify handle fun _ => false }, some (.mark .delete)) := by
        simp only [Call.step, MarkPc.step, Chip.timerStop, hw, c.onTimer_live _ handle running hg]
        rfl
      rw [hstep]
      refine ⟨⟨hk.modify c handle _, handle, hw, ?_⟩, rfl, id⟩
      rw [Handles.get_modify_self, hg]
      rfl
    | delete =>
      obtain ⟨hk, handle, hw, hg⟩ := h
      have hstep : (Call.mark .delete).step ok c =
          ({ c with timers := c.timers.delete handle }, some (.mark .clear)) := by
        simp only [Call.step, MarkPc.step, Chip.timerDelete, hw, c.onTimer_live _ handle false hg]
        rfl
      rw [hstep]
      exact ⟨hk.delete c handle hw, rfl, id⟩
    | clear =>
      refine ⟨?_, rfl, id⟩
      have hn : ∀ handle, ¬ c.timers.Live handle := h
      exact ⟨Chip.keeps_of_none { c with watchdogTimer := none } rfl hn, fun _ => rfl⟩

/-- A timer that fires stops running. -/
theorem fits_fire (c : Chip) (handle : Nat) (w : Option Call) (h : Fits c w) :
    Fits { c with timers := c.timers.modify handle fun _ => false } w := by
  have hstopped (handle' : Nat) (hg : c.timers.get handle' = some false) :
      (c.timers.modify handle fun _ => false).get handle' = some false := by
    by_cases hne : handle' = handle
    · rw [hne, Handles.get_modify_self, ← hne, hg]
      rfl
    · rw [c.timers.get_modify_of_ne handle handle' _ hne, hg]
  cases w with
  | none => exact ⟨h.1.modify c handle _, h.2⟩
  | some call =>
    cases call with
    | gate => exact h
    | start pc =>
      cases pc with
      | store checks => exact ⟨h.1.modify c handle _, h.2⟩
      | readState => exact ⟨h.1.modify c handle _, h.2⟩
      | create => exact ⟨h.1.modify c handle _, h.2⟩
      | startOnce =>
        obtain ⟨hk, hp, handle', hw, hg⟩ := h
        exact ⟨hk.modify c handle _, hp, handle', hw, hstopped handle' hg⟩
    | mark pc =>
      cases pc with
      | readState => exact ⟨h.1.modify c handle _, h.2⟩
      | markValid => exact Chip.Keeps.modify c h handle _
      | testTimer => exact Chip.Keeps.modify c h handle _
      | stop => exact ⟨h.1.modify c handle _, h.2⟩
      | delete =>
        obtain ⟨hk, handle', hw, hg⟩ := h
        exact ⟨hk.modify c handle _, handle', hw, hstopped handle' hg⟩
      | clear =>
        intro handle' hl
        exact h handle' ((c.timers.live_modify handle handle' _).mp hl)

section work
variable (calls : List Call) (i : Nat) (c : Call) (hc : calls[i]? = some c) (c' : Option Call)
include hc

/-- The only start or mark goes on. -/
theorem work_moves (w : Option Call) (hw : calls.filter (fun c => c ≠ .gate) = w.toList) (hne : c ≠ .gate)
    (hne' : c' ≠ some .gate) :
    w = some c ∧ (calls.take i ++ c'.toList ++ calls.drop (i + 1)).filter (fun c => c ≠ .gate) = c'.toList := by
  obtain ⟨before, after, rfl, he⟩ := pool_split calls i c hc c'
  rw [he]
  have hself : c'.toList.filter (fun c => c ≠ .gate) = c'.toList := by
    apply List.filter_eq_self.mpr
    intro d hd
    apply decide_eq_true
    rintro rfl
    exact hne' (Option.mem_toList.mp hd)
  rw [List.filter_append, List.filter_cons_of_pos (by simpa using hne)] at hw
  cases w with
  | none =>
    have hnil := (List.append_eq_nil_iff.mp hw).2
    cases hnil
  | some d =>
    obtain ⟨hb, hd, ha⟩ : before.filter (fun c => c ≠ .gate) = [] ∧ c = d ∧
        after.filter (fun c => c ≠ .gate) = [] := by
      rcases List.append_eq_singleton_iff.mp hw with ⟨hb, hcons⟩ | ⟨-, hnil⟩
      · obtain ⟨hd, ha⟩ := List.cons.inj hcons
        exact ⟨hb, hd, ha⟩
      · cases hnil
    refine ⟨congrArg some hd.symm, ?_⟩
    rw [List.filter_append, List.filter_append, hb, ha, hself, List.nil_append, List.append_nil]

/-- A gate is counted down beside it. -/
theorem work_gate (hg : c = .gate) :
    (calls.take i ++ (none : Option Call).toList ++ calls.drop (i + 1)).filter (fun c => c ≠ .gate) =
      calls.filter fun c => c ≠ .gate := by
  obtain ⟨before, after, rfl, he⟩ := pool_split calls i c hc none
  rw [he, hg]
  simp

/-- A gate goes on while there is none. -/
theorem work_opens (hn : ∀ d ∈ calls, d = .gate) (d : Call) (hd : d ≠ .gate) :
    (calls.take i ++ (some d).toList ++ calls.drop (i + 1)).filter (fun c => c ≠ .gate) = [d] := by
  obtain ⟨before, after, rfl, he⟩ := pool_split calls i c hc (some d)
  have hb : before.filter (fun c => c ≠ .gate) = [] := by
    apply List.filter_eq_nil_iff.mpr
    intro x hx
    simp [hn x (List.mem_append_left _ hx)]
  have ha : after.filter (fun c => c ≠ .gate) = [] := by
    apply List.filter_eq_nil_iff.mpr
    intro x hx
    simp [hn x (List.mem_append_right _ (List.mem_cons_of_mem _ hx))]
  rw [he, List.filter_append, List.filter_append, hb, ha]
  simp [hd]

end work

theorem work_idle (s : State) (h : ¬ s.Busy) : s.work = [] := by
  apply List.filter_eq_nil_iff.mpr
  intro c hc hd
  exact h ⟨c, hc, of_decide_eq_true hd⟩

theorem call_step_ne_gate (ok : Bool) (c : Chip) (call : Call) : (call.step ok c).2 ≠ some .gate := by
  intro h
  cases call with
  | start pc =>
    obtain ⟨pc', -, he⟩ := Option.map_eq_some_iff.mp h
    cases he
  | gate =>
    simp only [Call.step] at h
    split_ifs at h
    cases h
  | mark pc =>
    obtain ⟨pc', -, he⟩ := Option.map_eq_some_iff.mp h
    cases he

section steps
variable (s : State) (h : Tidy s)
include h

theorem tidy_begin (e : Entry) (hl : s.Orderly (.begin e)) : Tidy { s with calls := s.calls ++ [e.call] } := by
  refine ⟨h.misuse, h.reset, ?_⟩
  obtain ⟨w, hw, hf⟩ := h.fits
  have happend : State.work { s with calls := s.calls ++ [e.call] } =
      s.work ++ [e.call].filter fun c => c ≠ .gate := List.filter_append ..
  by_cases hg : e = .gatePassed
  · subst hg
    exact ⟨w, by rw [happend, hw]; exact List.append_nil _, hf⟩
  · have hidle := work_idle s (hl.1 (decide_eq_true hg))
    obtain rfl : w = none := by
      rw [hidle] at hw
      exact Option.toList_eq_nil_iff.mp hw.symm
    refine ⟨some e.call, ?_, ?_⟩
    · rw [happend, hidle]
      cases e with
      | gatePassed => exact absurd rfl hg
      | start checks => rfl
      | markValid => rfl
    · cases e with
      | gatePassed => exact absurd rfl hg
      | start checks => exact ⟨hf.1, hl.2 rfl⟩
      | markValid => exact hf

theorem tidy_call (i : Nat) (ok : Bool) (hl : s.Orderly (.call i ok)) (c : Call) (hc : s.calls[i]? = some c) :
    Tidy { s with
      chip := (c.step ok s.chip).1
      calls := s.calls.take i ++ (c.step ok s.chip).2.toList ++ s.calls.drop (i + 1) } := by
  obtain ⟨w, hw, hf⟩ := h.fits
  by_cases hg : c = .gate
  · subst hg
    refine ⟨h.misuse, h.reset, ?_⟩
    have hfits (w : Option Call) (hf : Fits s.chip w) : Fits (Call.gate.step ok s.chip).1 w := by
      cases w with
      | none => exact hf
      | some call =>
        cases call with
        | gate => exact hf
        | start pc => cases pc <;> exact hf
        | mark pc => cases pc <;> exact hf
    by_cases hz : s.chip.startupChecks - 1 = 0
    · have hopen : (Call.gate.step ok s.chip).2 = some (.mark .readState) := if_pos hz
      have hbusy : ¬ s.Busy := by
        apply hl.1
        simp [State.enters, hc, hz]
      have hidle := work_idle s hbusy
      obtain rfl : w = none := by
        rw [hidle] at hw
        exact Option.toList_eq_nil_iff.mp hw.symm
      refine ⟨some (.mark .readState), ?_, hfits (some (.mark .readState)) hf⟩
      rw [hopen]
      refine work_opens s.calls i .gate hc ?_ _ nofun
      intro d hd
      by_contra hne
      exact hbusy ⟨d, hd, hne⟩
    · have hclosed : (Call.gate.step ok s.chip).2 = none := if_neg hz
      refine ⟨w, ?_, hfits w hf⟩
      rw [hclosed]
      exact (work_gate s.calls i .gate hc rfl).trans hw
  · obtain ⟨rfl, hwork⟩ := work_moves s.calls i c hc _ w hw hg (call_step_ne_gate ok s.chip c)
    obtain ⟨hfits, hmisuse, hreset⟩ := fits_step ok s.chip c hf
    exact ⟨hmisuse.trans h.misuse, fun hr => h.reset (hreset hr), _, hwork, hfits⟩

theorem tidy_next (l : Label) (s' : State) (hl : s.Orderly l) (hn : s.next l = some s') : Tidy s' := by
  cases l with
  | begin e =>
    obtain rfl := State.next_begin _ _ e hn
    exact tidy_begin s h e hl
  | call i ok =>
    obtain ⟨c, hc, rfl⟩ := State.next_call _ _ i ok hn
    exact tidy_call s h i ok hl c hc
  | fire handle =>
    obtain ⟨-, -, rfl⟩ := State.next_fire _ _ handle hn
    obtain ⟨w, hw, hf⟩ := h.fits
    exact ⟨h.misuse, h.reset, w, hw, fits_fire s.chip handle w hf⟩
  | callback =>
    obtain ⟨pc, -, rfl⟩ := State.next_callback _ _ hn
    obtain ⟨w, hw, hf⟩ := h.fits
    cases pc with
    | readState => exact ⟨h.misuse, h.reset, w, hw, hf⟩
    | restart =>
      refine ⟨h.misuse, nofun, w, hw, ?_⟩
      cases w with
      | none => exact hf
      | some call =>
        cases call with
        | gate => exact hf
        | start pc => cases pc <;> exact hf
        | mark pc => cases pc <;> exact hf

end steps

/-- The timers that exist are all the one of the variable. -/
theorem fits_one (c : Chip) (w : Option Call) (h : Fits c w) (handle handle' : Nat)
    (hl : c.timers.Live handle) (hl' : c.timers.Live handle') : handle = handle' := by
  have hkeeps : c.Keeps ∨ ∀ h, ¬ c.timers.Live h := by
    cases w with
    | none => exact .inl h.1
    | some call =>
      cases call with
      | gate => exact h.elim
      | start pc => cases pc <;> exact .inl h.1
      | mark pc =>
        cases pc with
        | markValid | testTimer => exact .inl h
        | clear => exact .inr h
        | _ => exact .inl h.1
  rcases hkeeps with hk | hn
  · obtain ⟨-, hh⟩ := hk.covered handle hl
    obtain ⟨-, hh'⟩ := hk.covered handle' hl'
    exact Option.some.inj (hh.symm.trans hh')
  · exact absurd hl (hn handle)

theorem booted_tidy (otaState : Option ImgState) : Tidy (.booted otaState) :=
  ⟨rfl, nofun, none, rfl, Handles.Owned.empty, fun _ => rfl⟩

/-- In every run in which starts and marks do not overlap: no timer is used after its deletion, arming it never
aborts, there is at most one, and none is left once the image is not unverified and no call is in progress. -/
theorem orderly_timer (otaState : Option ImgState) (s : State)
    (run : Steps State.next State.Orderly (.booted otaState) s) :
    s.chip.misuse = false ∧ s.chip.reset ≠ some .startFailed ∧
    (∀ h h', s.chip.timers.Live h → s.chip.timers.Live h' → h = h') ∧
    (¬ s.Busy → s.chip.otaState ≠ some .pendingVerify → ∀ h, ¬ s.chip.timers.Live h) := by
  have h : Tidy s := run.invariant _ _ Tidy _ _ (booted_tidy otaState)
    fun t l t' ht hl hn => tidy_next t ht l t' hl hn
  obtain ⟨w, hw, hf⟩ := h.fits
  refine ⟨h.misuse, h.reset, fits_one s.chip w hf, ?_⟩
  intro hbusy hp handle
  obtain rfl : w = none := by
    rw [work_idle s hbusy] at hw
    exact Option.toList_eq_nil_iff.mp hw.symm
  exact hf.1.none_live s.chip (hf.2 hp) handle

/-- The watchdog is started, and the only gate validates the image. -/
def oneGate : List Label :=
  .begin (.start 1) :: List.replicate 4 (.call 0 true) ++ .begin .gatePassed :: List.replicate 7 (.call 0 true)

theorem orderly_timer_gate :
    ∃ s, exec (guarded State.next State.Orderly) (.booted (some .pendingVerify)) oneGate = some s ∧
      s.chip.otaState = some .valid ∧ s.chip.misuse = false ∧ ∀ h, ¬ s.chip.timers.Live h := by
  have hrun : (exec (guarded State.next State.Orderly) (.booted (some .pendingVerify)) oneGate).any
      (fun s => s.chip.otaState = some .valid ∧ ¬ s.Busy) = true := by decide
  obtain ⟨s, hs, hp⟩ := (Option.any_eq_true _ _).mp hrun
  obtain ⟨hv, hb⟩ := of_decide_eq_true hp
  have h := orderly_timer (some .pendingVerify) s (steps_of_guarded _ _ _ _ _ hs)
  exact ⟨s, hs, hv, h.1, h.2.2.2 hb (by rw [hv]; nofun)⟩

end Espbase.Boot.Ota
