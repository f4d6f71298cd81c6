import Mathlib.Data.Option.Basic

namespace Espbase.NvsStore

/-- `esp_err_t` -/
abbrev EspErr := Int32

def espOk : EspErr := 0
def espFail : EspErr := -1
def espErrInvalidState : EspErr := 0x103
def espErrNvsNotFound : EspErr := 0x1102
def espErrNvsTypeMismatch : EspErr := 0x1103
def espErrNvsInvalidHandle : EspErr := 0x1107

/-- A value is there exactly when the error is `ESP_OK`. -/
structure EspResult (α : Type) where
  err : EspErr
  value : Option α
  engaged : err = espOk ↔ value.isSome

namespace EspResult
variable {α : Type}

/-- `fail` makes `ESP_FAIL` of `ESP_OK`. -/
def failErr (e : EspErr) : EspErr := if e = espOk then espFail else e

theorem failErr_ne (e : EspErr) : failErr e ≠ espOk := by
  unfold failErr
  split
  · decide
  · assumption

theorem fail_engaged (e : EspErr) : failErr e = espOk ↔ (none : Option α).isSome :=
  iff_of_false (failErr_ne e) Bool.false_ne_true

def fail (e : EspErr) : EspResult α := ⟨failErr e, none, fail_engaged e⟩

def ok (val : α) : EspResult α := ⟨espOk, some val, iff_of_true rfl rfl⟩

end EspResult

end Espbase.NvsStore
