import Espbase.Lib.Interleaving
import Mathlib.Tactic.SplitIfs

namespace Espbase.Boot

open Espbase.Lib

/-- `esp_reset_reason_t` -/
inductive ResetReason where
  | unknown
  | powerOn
  | ext
  | sw
  | panic
  | intWdt
  | taskWdt
  | wdt
  | deepSleep
  | brownout
  | sdio
  | usb
  | jtag
  | efuse
  | pwrGlitch
  | cpuLockup
  deriving DecidableEq

/-- The resets that `check_crash_loop` counts. -/
def ResetReason.isCrash (reason : ResetReason) : Bool :=
  reason = .panic || reason = .intWdt || reason = .taskWdt

structure RtcState where
  magicWord : UInt32
  consecutiveCrashes : UInt32
  deriving DecidableEq

namespace RtcState

def onColdBoot (s : RtcState) : RtcState := if s.magicWord ≠ 0xAABBCCDD then ⟨0xAABBCCDD, 0⟩ else s

def count (s : RtcState) (reason : ResetReason) : RtcState :=
  { s with consecutiveCrashes := if reason.isCrash then s.consecutiveCrashes + 1 else 0 }

end RtcState

/-- How a boot leaves `check_crash_loop`. -/
inductive Exit where
  /-- it returns to the application -/
  | application
  /-- `esp_deep_sleep_start()` -/
  | halted
  /-- the callback crashes -/
  | crashed
  /-- the callback restarts the chip -/
  | restarted
  deriving DecidableEq

/-- What an invocation of `on_threshold_reached` does. -/
inductive Outcome where
  | returns
  | crashes
  | restarts
  deriving DecidableEq

def Outcome.exit : Outcome → Exit
  | .returns => .halted
  | .crashes => .crashed
  | .restarts => .restarted

structure Checked where
  rtc : RtcState
  /-- `nvs_flash_erase()` was called -/
  erased : Bool
  /-- `on_threshold_reached()` was called -/
  called : Bool
  exit : Exit

/-- `onThresholdReached`: nothing for a null pointer, else what an invocation does. -/
def checkCrashLoop (rtc : RtcState) (reason : ResetReason) (onThresholdReached : Option Outcome) : Checked :=
  let rtc := rtc.onColdBoot.count reason
  let erased := decide (rtc.consecutiveCrashes = 3)
  if rtc.consecutiveCrashes ≥ 5 then
    match onThresholdReached with
    | some outcome =>
      if rtc.consecutiveCrashes = 5 then ⟨rtc, erased, true, outcome.exit⟩ else ⟨rtc, erased, false, .halted⟩
    | none => ⟨rtc, erased, false, .halted⟩
  else ⟨rtc, erased, false, .application⟩

/-- The callback has not returned. -/
def Exit.unreturned : Exit → Bool
  | .crashed => true
  | .restarted => true
  | _ => false

/-- The resets that can follow: any; but only power wakes a halted chip. -/
def Exit.wakes (reason : ResetReason) : Exit → Bool
  | .halted => reason = .powerOn
  | _ => true

/-- The chip between two resets, with what is recorded of its boots. -/
structure Chip where
  rtc : RtcState
  exit : Exit
  /-- since the last power-on reset, a boot has counted five crashes or more -/
  counted : Bool
  /-- the erasures of the present streak of crash resets -/
  erases : Nat
  /-- the invocations of the callback in it -/
  calls : Nat
  deriving DecidableEq

namespace Chip

/-- Any content of the memory; any reset may come first. -/
def start (rtc : RtcState) : Chip := ⟨rtc, .application, false, 0, 0⟩

/-- A reset; `memory`: the content of the RTC memory when power has been cut. -/
structure Reset where
  reason : ResetReason
  memory : RtcState
  onThresholdReached : Option Outcome

/-- What the next boot finds in the RTC memory. -/
def retained (s : Chip) (l : Reset) : RtcState := if l.reason = .powerOn then l.memory else s.rtc

def record (s : Chip) (reason : ResetReason) (r : Checked) : Chip where
  rtc := r.rtc
  exit := r.exit
  counted := s.counted && decide (reason ≠ .powerOn) || decide (5 ≤ r.rtc.consecutiveCrashes)
  erases := (if reason.isCrash then s.erases else 0) + r.erased.toNat
  calls := (if reason.isCrash then s.calls else 0) + r.called.toNat

def next (s : Chip) (l : Reset) : Option Chip :=
  if s.exit.wakes l.reason then
    some (s.record l.reason (checkCrashLoop (s.retained l) l.reason l.onThresholdReached))
  else none

/-- The reset after a callback that has not returned is one that is counted, or power has been cut. -/
def Held (s : Chip) (l : Reset) : Prop :=
  s.exit.unreturned = true → l.reason.isCrash = true ∨ l.reason = .powerOn

instance (s : Chip) (l : Reset) : Decidable (s.Held l) := inferInstanceAs (Decidable (_ → _))

end Chip

section specs
variable (rtc : RtcState) (reason : ResetReason) (cb : Option Outcome)

/-- Everything that `check_crash_loop` can do, by the count that it reaches. -/
theorem checkCrashLoop_cases (k : RtcState) (hk : rtc.onColdBoot.count reason = k) :
    (k.consecutiveCrashes < 5 ∧
      checkCrashLoop rtc reason cb = ⟨k, decide (k.consecutiveCrashes = 3), false, .application⟩) ∨
    (5 ≤ k.consecutiveCrashes ∧ checkCrashLoop rtc reason cb = ⟨k, false, false, .halted⟩) ∨
    (k.consecutiveCrashes = 5 ∧
      ∃ outcome, cb = some outcome ∧ checkCrashLoop rtc reason cb = ⟨k, false, true, outcome.exit⟩) := by
  unfold checkCrashLoop
  dsimp only
  rw [hk]
  by_cases h5 : k.consecutiveCrashes ≥ 5
  · rw [if_pos h5]
    have herase : decide (k.consecutiveCrashes = 3) = false := by
      apply decide_eq_false
      intro h3
      rw [h3] at h5
      exact absurd h5 (by decide)
    rw [herase]
    cases cb with
    | none => exact .inr (.inl ⟨h5, rfl⟩)
    | some outcome =>
      by_cases hc : k.consecutiveCrashes = 5
      · dsimp only
        rw [if_pos hc]
        exact .inr (.inr ⟨hc, outcome, rfl, rfl⟩)
      · dsimp only
        rw [if_neg hc]
        exact .inr (.inl ⟨h5, rfl⟩)
  · rw [if_neg h5]
    exact .inl ⟨UInt32.not_le.mp h5, rfl⟩

/-- A boot leaves the magic word in the memory. -/
theorem onColdBoot_count : (rtc.onColdBoot.count reason).onColdBoot = rtc.onColdBoot.count reason := by
  have h : rtc.onColdBoot.magicWord = 0xAABBCCDD := by
    unfold RtcState.onColdBoot
    split_ifs with hm
    · rfl
    · exact not_not.mp hm
  rw [RtcState.onColdBoot, if_neg]
  exact not_not.mpr h

end specs

namespace Chip

/-- The crashes in a row, as the next boot finds them. -/
def crashes (s : Chip) : UInt32 := s.rtc.onColdBoot.consecutiveCrashes

/-- What the count says of a streak: three crashes or more have erased once, five have called back once. -/
structure Streak (s : Chip) : Prop where
  erases : s.erases = 0 ∨ s.erases = 1 ∧ 3 ≤ s.crashes
  calls : s.calls = 0 ∨ s.calls = 1 ∧ 5 ≤ s.crashes
  application : s.exit = .application → s.calls = 0 ∧ (s.erases = 0 ∨ s.crashes < 5)
  unreturned : s.exit.unreturned = true → s.crashes = 5 ∧ s.counted = true

/-- A chip that has counted five crashes is halted, or its callback has not returned. -/
def Final (s : Chip) : Prop := s.counted = true → s.exit = .halted ∨ s.exit.unreturned = true

section steps
variable (s s' : Chip) (l : Reset)

theorem next_eq (h : s.next l = some s') : s.exit.wakes l.reason = true ∧
    s' = s.record l.reason (checkCrashLoop (s.retained l) l.reason l.onThresholdReached) := by
  unfold next at h
  split_ifs at h with hw
  exact ⟨hw, (Option.some.inj h).symm⟩

/-- A reset that is no crash begins a new count. -/
theorem next_normal (hr : l.reason.isCrash = false) (h : s.next l = some s') :
    s'.exit = .application ∧ s'.crashes = 0 ∧ s'.erases = 0 ∧ s'.calls = 0 ∧
      s'.counted = (s.counted && decide (l.reason ≠ .powerOn)) := by
  obtain ⟨-, rfl⟩ := next_eq s s' l h
  have hzero : ((s.retained l).onColdBoot.count l.reason).consecutiveCrashes = 0 := by
    rw [RtcState.count, hr]
    rfl
  rcases checkCrashLoop_cases (s.retained l) l.reason l.onThresholdReached _ rfl with
    ⟨-, hx⟩ | ⟨h5, -⟩ | ⟨h5, -⟩
  · rw [hx, crashes, record, hr, hzero, onColdBoot_count, hzero]
    simp
  · rw [hzero] at h5
    exact absurd h5 (by decide)
  · rw [hzero] at h5
    exact absurd h5 (by decide)

/-- A crash adds one to the count; what follows goes by it. -/
theorem next_crash (hr : l.reason.isCrash = true) (h : s.next l = some s') :
    (s.exit = .application ∨ s.exit.unreturned = true) ∧ s'.crashes = s.crashes + 1 ∧
    s'.counted = (s.counted || decide (5 ≤ s'.crashes)) ∧
    ((s'.crashes < 5 ∧ s'.exit = .application ∧ s'.calls = s.calls ∧
        s'.erases = s.erases + (decide (s'.crashes = 3)).toNat) ∨
      (5 ≤ s'.crashes ∧ s'.exit = .halted ∧ s'.calls = s.calls ∧ s'.erases = s.erases) ∨
      (s'.crashes = 5 ∧ s'.calls = s.calls + 1 ∧ s'.erases = s.erases ∧
        ∃ outcome, l.onThresholdReached = some outcome ∧ s'.exit = outcome.exit)) := by
  obtain ⟨hw, rfl⟩ := next_eq s s' l h
  have hpower : l.reason ≠ .powerOn := by
    intro he
    rw [he] at hr
    cases hr
  have hexit : s.exit = .application ∨ s.exit.unreturned = true := by
    cases he : s.exit with
    | application => exact .inl rfl
    | crashed => exact .inr rfl
    | restarted => exact .inr rfl
    | halted =>
      rw [he] at hw
      exact absurd (of_decide_eq_true hw) hpower
  have hretained : s.retained l = s.rtc := if_neg hpower
  have hk : (s.rtc.onColdBoot.count l.reason).consecutiveCrashes = s.crashes + 1 := by
    rw [RtcState.count, hr]
    rfl
  rw [hretained]
  refine ⟨hexit, ?_⟩
  rcases checkCrashLoop_cases s.rtc l.reason l.onThresholdReached _ rfl with
    ⟨hlt, hx⟩ | ⟨h5, hx⟩ | ⟨h5, outcome, ho, hx⟩
  · rw [hk] at hlt
    rw [hx, record, crashes, onColdBoot_count, hk]
    simp [hr, hpower, hlt]
  · rw [hk] at h5
    rw [hx, record, crashes, onColdBoot_count, hk]
    simp [hr, hpower, h5]
  · rw [hk] at h5
    rw [hx, record, crashes, onColdBoot_count, hk]
    simp [hr, hpower, h5, ho]

/-- A count about the threshold does not wrap around. -/
theorem succ_toNat (c : UInt32) (h : c < 6) : (c + 1).toNat = c.toNat + 1 := by
  rw [UInt32.lt_iff_toNat_lt] at h
  rw [UInt32.toNat_add]
  exact Nat.mod_eq_of_lt (Nat.lt_of_le_of_lt (Nat.succ_le_of_lt h) (by decide))

/-- An erasure comes at a count of three, and not again in the streak. -/
theorem streak_erases (hs : s.Streak) (hr : l.reason.isCrash = true) (h : s.next l = some s') :
    s'.erases = 0 ∨ s'.erases = 1 ∧ 3 ≤ s'.crashes := by
  obtain ⟨hexit, hcrashes, -, hcases⟩ := next_crash s s' l hr h
  rcases hs.erases with h0 | ⟨h1, h3⟩
  · rcases hcases with ⟨-, -, -, he⟩ | ⟨-, -, -, he⟩ | ⟨-, -, he, -⟩
    · by_cases hc : s'.crashes = 3
      · rw [he, h0, hc]
        exact .inr ⟨rfl, by decide⟩
      · rw [he, h0, decide_eq_false hc]
        exact .inl rfl
    · exact .inl (he.trans h0)
    · exact .inl (he.trans h0)
  · have hlt : s.crashes < 6 := by
      rcases hexit with hx | hx
      · have hlt := (hs.application hx).2.resolve_left (by omega)
        exact UInt32.lt_trans hlt (by decide)
      · rw [(hs.unreturned hx).1]
        decide
    rw [UInt32.le_iff_toNat_le] at h3
    have h4 : 3 < s'.crashes.toNat := by
      rw [hcrashes, succ_toNat s.crashes hlt]
      exact Nat.lt_succ_of_le h3
    have hne : ¬ s'.crashes = 3 := by
      intro he
      rw [he] at h4
      exact absurd h4 (by decide)
    have hle : 3 ≤ s'.crashes := UInt32.le_iff_toNat_le.mpr (Nat.le_of_lt h4)
    rcases hcases with ⟨-, -, -, he⟩ | ⟨-, -, -, he⟩ | ⟨-, -, he, -⟩
    · rw [decide_eq_false hne] at he
      exact .inr ⟨he.trans h1, hle⟩
    · exact .inr ⟨he.trans h1, hle⟩
    · exact .inr ⟨he.trans h1, hle⟩

/-- The callback is invoked at a count of five, and the next crash halts the chip. -/
theorem streak_calls (hs : s.Streak) (hr : l.reason.isCrash = true) (h : s.next l = some s') :
    s'.calls = 0 ∨ s'.calls = 1 ∧ 5 ≤ s'.crashes := by
  obtain ⟨hexit, hcrashes, -, hcases⟩ := next_crash s s' l hr h
  rcases hexit with hx | hx
  · have h0 := (hs.application hx).1
    rcases hcases with ⟨-, -, hc, -⟩ | ⟨-, -, hc, -⟩ | ⟨h5, hc, -, -⟩
    · exact .inl (hc.trans h0)
    · exact .inl (hc.trans h0)
    · rw [hc, h0, h5]
      exact .inr ⟨rfl, by decide⟩
  · have h6 : s'.crashes = 6 := by
      rw [hcrashes, (hs.unreturned hx).1]
      rfl
    rw [h6] at hcases ⊢
    rcases hcases with ⟨hlt, -⟩ | ⟨h5, -, hc, -⟩ | ⟨h5, -⟩
    · exact absurd hlt (by decide)
    · rw [hc]
      exact hs.calls.imp_right fun hcalls => ⟨hcalls.1, h5⟩
    · exact absurd h5 (by decide)

theorem streak_next (hs : s.Streak) (h : s.next l = some s') : s'.Streak := by
  cases hr : l.reason.isCrash with
  | false =>
    obtain ⟨hexit, -, herases, hcalls, -⟩ := next_normal s s' l hr h
    refine ⟨.inl herases, .inl hcalls, fun _ => ⟨hcalls, .inl herases⟩, ?_⟩
    intro hx
    rw [hexit] at hx
    cases hx
  | true =>
    refine ⟨streak_erases s s' l hs hr h, streak_calls s s' l hs hr h, ?_, ?_⟩
    · intro hx
      obtain ⟨hexit, -, -, hcases⟩ := next_crash s s' l hr h
      rcases hcases with ⟨hlt, -, hc, -⟩ | ⟨-, hx', -⟩ | ⟨-, -, -, outcome, -, hx'⟩
      · refine ⟨(streak_calls s s' l hs hr h).resolve_right ?_, .inr hlt⟩
        intro hfive
        obtain ⟨-, h5⟩ := hfive
        exact absurd hlt (UInt32.not_lt.mpr h5)
      · cases hx'.symm.trans hx
      · rw [hx] at hx'
        cases outcome <;> cases hx'
    · intro hx
      obtain ⟨-, -, hcounted, hcases⟩ := next_crash s s' l hr h
      rcases hcases with ⟨-, hx', -⟩ | ⟨-, hx', -⟩ | ⟨h5, -⟩
      · rw [hx'] at hx
        cases hx
      · rw [hx'] at hx
        cases hx
      · refine ⟨h5, ?_⟩
        rw [hcounted, h5]
        exact Bool.or_true s.counted

theorem final_next (hs : s.Streak) (hf : s.Final) (hl : s.Held l) (h : s.next l = some s') : s'.Final := by
  intro hcounted
  cases hr : l.reason.isCrash with
  | false =>
    obtain ⟨-, -, -, -, hc⟩ := next_normal s s' l hr h
    rw [hc, Bool.and_eq_true, decide_eq_true_eq] at hcounted
    obtain ⟨hw, -⟩ := next_eq s s' l h
    -- a chip that has counted five crashes is woken by a power-on reset or a crash
    rcases hf hcounted.1 with hx | hx
    · rw [hx] at hw
      exact absurd (of_decide_eq_true hw) hcounted.2
    · rcases hl hx with hcrash | hpower
      · rw [hr] at hcrash
        cases hcrash
      · exact absurd hpower hcounted.2
  | true =>
    obtain ⟨hexit, hcrashes, hc, hcases⟩ := next_crash s s' l hr h
    rcases hcases with ⟨hlt, -⟩ | ⟨-, hx, -⟩ | ⟨-, -, -, outcome, -, hx⟩
    · rw [hc, decide_eq_false (UInt32.not_le.mpr hlt), Bool.or_false] at hcounted
      rcases hf hcounted with hx | hx
      · rcases hexit with hx' | hx'
        · cases hx.symm.trans hx'
        · rw [hx] at hx'
          cases hx'
      · rw [hcrashes, (hs.unreturned hx).1] at hlt
        exact absurd hlt (by decide)
    · exact .inl hx
    · rw [hx]
      cases outcome with
      | returns => exact .inl rfl
      | crashes => exact .inr rfl
      | restarts => exact .inr rfl

theorem final_application (hf : s.Final) (hc : s.counted = true) : s.exit ≠ .application := by
  intro hx
  rcases hf hc with hx' | hx'
  · cases hx'.symm.trans hx
  · rw [hx] at hx'
    cases hx'

/-- Any other reset after a callback that has not returned goes back to the application. -/
theorem unheld_next (hs : s.Streak) (hl : ¬ s.Held l) (h : s.next l = some s') :
    s'.counted = true ∧ s'.exit = .application := by
  unfold Held at hl
  push Not at hl
  obtain ⟨hx, hr, hpower⟩ := hl
  obtain ⟨hexit, -, -, -, hcounted⟩ := next_normal s s' l (eq_false_of_ne_true hr) h
  refine ⟨?_, hexit⟩
  rw [hcounted, (hs.unreturned hx).2, decide_eq_true hpower]
  rfl

end steps

/-- No boot returns to the application once one has counted five crashes, until power is cut, in a run where what
follows a callback that has not returned is counted, or power-on; any other reset there breaks it. And a streak of
crashes erases once at most, and calls back once at most. -/
theorem halt_final (rtc : RtcState) (s : Chip) (run : Steps next Held (start rtc) s) :
    (s.counted = true → s.exit ≠ .application) ∧ s.erases ≤ 1 ∧ s.calls ≤ 1 ∧
    ∀ l s', s.next l = some s' → ((s'.counted = true → s'.exit ≠ .application) ↔ s.Held l) := by
  have hstart : (start rtc).Streak ∧ (start rtc).Final := by
    refine ⟨⟨.inl rfl, .inl rfl, fun _ => ⟨rfl, .inl rfl⟩, nofun⟩, ?_⟩
    intro hc
    cases hc
  obtain ⟨hs, hf⟩ : s.Streak ∧ s.Final := run.invariant _ _ (fun s => s.Streak ∧ s.Final) _ _ hstart
    fun t l t' ht hl hn => ⟨streak_next t t' l ht.1 hn, final_next t t' l ht.1 ht.2 hl hn⟩
  refine ⟨final_application s hf, ?_, ?_, ?_⟩
  · rcases hs.erases with he | ⟨he, -⟩
    · omega
    · omega
  · rcases hs.calls with he | ⟨he, -⟩
    · omega
    · omega
  · intro l s' hn
    constructor
    · intro hp
      by_contra hl
      obtain ⟨hc, hx⟩ := unheld_next s s' l hs hl hn
      exact hp hc hx
    · intro hl
      exact final_application s' (final_next s s' l hs hf hl hn)

def panic (onThresholdReached : Option Outcome) : Reset := ⟨.panic, ⟨0, 0⟩, onThresholdReached⟩

/-- Power comes on, and each boot crashes; the callback crashes too. -/
def crashing : List Reset := ⟨.powerOn, ⟨7, 7⟩, none⟩ :: List.replicate 6 (panic (some .crashes))

theorem halt_final_crashing :
    ∃ s, exec (guarded next Held) (start ⟨1, 2⟩) crashing = some s ∧ s.counted = true ∧
      s.exit ≠ .application ∧ s.erases ≤ 1 ∧ s.calls ≤ 1 := by
  refine ⟨_, rfl, rfl, ?_⟩
  obtain ⟨hfinal, herases, hcalls, -⟩ := halt_final ⟨1, 2⟩ _
    (steps_of_guarded next Held (start ⟨1, 2⟩) _ crashing rfl)
  exact ⟨hfinal rfl, herases, hcalls⟩

/-- The callback of the fifth crash restarts the chip. -/
def restarting : List Reset :=
  ⟨.powerOn, ⟨7, 7⟩, none⟩ :: List.replicate 5 (panic (some .restarts)) ++ [⟨.sw, ⟨0, 0⟩, some .restarts⟩]

theorem restart_returns :
    ∃ s, exec next (start ⟨1, 2⟩) restarting = some s ∧ s.counted = true ∧ s.exit = .application :=
  ⟨_, rfl, rfl, rfl⟩

end Chip

end Espbase.Boot
