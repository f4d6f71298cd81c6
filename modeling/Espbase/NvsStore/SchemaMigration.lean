import Espbase.Lib.Bytes
import Espbase.Lib.Durable
import Espbase.Lib.Interleaving
import Espbase.NvsStore.EspResult

namespace Espbase.NvsStore

open Espbase.Lib

inductive Value where
  | i32 (value : Int32)
  | u32 (value : UInt32)
  | str (text : Bytes)
  | blob (data : Bytes)
  deriving DecidableEq

/-- The values under the keys of a namespace. -/
abbrev Store := Bytes → Option Value

def schemaVer : Bytes := bytes "_schema_ver"

/-- `get_u32` of an open store -/
def getU32 (s : Store) (key : Bytes) : EspResult UInt32 :=
  match s key with
  | some (.u32 val) => .ok val
  | some _ => .fail espErrNvsTypeMismatch
  | none => .fail espErrNvsNotFound

/-- A call of a migration function on its store. -/
inductive Action where
  | set (key : Bytes) (value : Value)
  | commit
  deriving DecidableEq

/-- The writes among the calls. -/
def Action.written : Action → Option (Bytes × Value)
  | .set key value => some (key, value)
  | .commit => none

/-- What a sequence of calls makes of a store. -/
def performed (s : Store) (calls : List Action) : Store := Durable.writes s (calls.filterMap Action.written)

/-- A migration of the data to a version: the calls of the function on a store of an older version. -/
structure Migration where
  targetVersion : UInt32
  migrationFunc : Store → UInt32 → List Action

/-- Where `migrate_schema` stands, or a device without power. -/
inductive Pc where
  | off
  /-- `get_u32("_schema_ver")` -/
  | getVersion
  /-- `migration_func(*this, current_version)`, with the calls left -/
  | migrate (calls : List Action)
  /-- `set_u32("_schema_ver", target_version)` -/
  | setVersion
  /-- `commit()` -/
  | commit
  | returned (err : EspErr)
  deriving DecidableEq

structure Device where
  nvs : Durable Bytes Value
  pc : Pc

namespace Device

/-- The version that `migrate_schema` goes by; other errors are returned. -/
def currentVersion (res : EspResult UInt32) : Except EspErr UInt32 :=
  match res.value with
  | some version => .ok version
  | none => if res.err = espErrNvsNotFound then .ok 0 else .error res.err

/-- After the version has been read. -/
def afterVersion (m : Migration) (s : Store) : Except EspErr UInt32 → Pc
  | .ok version =>
    if version < m.targetVersion then .migrate (m.migrationFunc s version) else .returned espOk
  | .error err => .returned err

/-- The next call of `migrate_schema`; `err` is what the store returns. The function does not say how its own
calls went. -/
def step (m : Migration) (d : Device) (err : EspErr) : Option Device :=
  match d.pc with
  | .getVersion =>
    let res := if err = espOk then getU32 d.nvs.view schemaVer else .fail err
    some { d with pc := afterVersion m d.nvs.view (currentVersion res) }
  | .migrate (.set key value :: calls) =>
    some ⟨if err = espOk then d.nvs.set key value else d.nvs, .migrate calls⟩
  | .migrate (.commit :: calls) => some ⟨if err = espOk then d.nvs.commit else d.nvs, .migrate calls⟩
  | .migrate [] => some { d with pc := .setVersion }
  | .setVersion =>
    some (if err = espOk then ⟨d.nvs.set schemaVer (.u32 m.targetVersion), .commit⟩
      else { d with pc := .returned err })
  | .commit => some (if err = espOk then ⟨d.nvs.commit, .returned espOk⟩ else { d with pc := .returned err })
  | .off => none
  | .returned _ => none

inductive Label where
  /-- `migrate_schema` is called; `opened`: the store has a handle -/
  | boot (opened : Bool)
  | step (err : EspErr)
  /-- after its return the program sets a value, or commits -/
  | set (key : Bytes) (value : Value)
  | commit
  /-- the device loses power, or restarts; these of the pending writes survive -/
  | cut (kept : List (Bytes × Value))

def next (m : Migration) (d : Device) : Label → Option Device
  | .boot opened =>
    if d.pc = .off then some { d with pc := if opened then .getVersion else .returned espErrInvalidState } else none
  | .step err => d.step m err
  | .set key value => if d.pc = .returned espOk then some { d with nvs := d.nvs.set key value } else none
  | .commit => if d.pc = .returned espOk then some { d with nvs := d.nvs.commit } else none
  | .cut kept => some ⟨d.nvs.cut kept, .off⟩

end Device

/-- The version that a store is taken for. -/
def versionOf (s : Store) : Option UInt32 :=
  match s schemaVer with
  | none => some 0
  | some (.u32 version) => some version
  | some _ => none

/-- What a program may say of its migration: it turns a store of one kind into one of another, and can be
called again when it was interrupted. -/
structure Migration.Sound (m : Migration) (Before After : Store → Prop) : Prop where
  version : ∀ s v key value, Action.set key value ∈ m.migrationFunc s v → key ≠ schemaVer
  again : ∀ s v calls, Before s → calls <+: m.migrationFunc s v → Before (performed s calls)
  completes : ∀ s v, Before s → After (performed s (m.migrationFunc s v))
  stamped : ∀ s, After s → After (Durable.write s (schemaVer, .u32 m.targetVersion))

/-- A store below the version is to be migrated, one at the version has been. -/
def Stamped (m : Migration) (Before After : Store → Prop) (s : Store) : Prop :=
  ∃ v, versionOf s = some v ∧ (v < m.targetVersion → Before s) ∧ (m.targetVersion ≤ v → After s)

namespace Device

/-- A key is not found only when it is not there, the calls of the migration succeed, the program keeps its data
as it should be, and writes survive in their order. -/
def Allowed (After : Store → Prop) (d : Device) : Label → Prop
  | .step err => match d.pc with
    | .getVersion => err ≠ espErrNvsNotFound
    | .migrate (_ :: _) => err = espOk
    | _ => True
  | .set key value => key ≠ schemaVer ∧ After (Durable.write d.nvs.view (key, value))
  | .cut kept => kept <+: d.nvs.pending
  | _ => True

/-- What the place says of the data that a reader sees. -/
def Stage (m : Migration) (Before After : Store → Prop) (s : Store) : Pc → Prop
  | .migrate calls => ∃ old v performedCalls, Before old ∧ versionOf old = some v ∧ v < m.targetVersion ∧
      m.migrationFunc old v = performedCalls ++ calls ∧ s = performed old performedCalls
  | .setVersion => After s
  | .commit => versionOf s = some m.targetVersion ∧ After s
  | .returned err => err = espOk → ∃ v, versionOf s = some v ∧ m.targetVersion ≤ v ∧ After s
  | _ => True

structure Safe (m : Migration) (Before After : Store → Prop) (d : Device) : Prop where
  always : d.nvs.Always (Stamped m Before After)
  stage : Stage m Before After d.nvs.view d.pc

section steps
variable (m : Migration) (Before After : Store → Prop)

theorem versionOf_write (s : Store) (key : Bytes) (value : Value) (h : key ≠ schemaVer) :
    versionOf (Durable.write s (key, value)) = versionOf s := by
  have hkey : Durable.write s (key, value) schemaVer = s schemaVer := Function.update_of_ne h.symm _ _
  rw [versionOf, hkey, versionOf]

theorem versionOf_stamp (s : Store) (v : UInt32) :
    versionOf (Durable.write s (schemaVer, .u32 v)) = some v := by
  have hkey : Durable.write s (schemaVer, .u32 v) schemaVer = some (.u32 v) := Function.update_self ..
  rw [versionOf, hkey]

theorem performed_concat (s : Store) (calls : List Action) (call : Action) :
    performed s (calls ++ [call]) = performed (performed s calls) [call] := by
  rw [performed, List.filterMap_append, Durable.writes_append]
  rfl

/-- The calls of the migration so far have not touched the version. -/
theorem versionOf_performed (hm : m.Sound Before After) (s : Store) (v : UInt32) (calls : List Action)
    (h : calls <+: m.migrationFunc s v) :
    versionOf (performed s calls) = versionOf s := by
  have hkey : performed s calls schemaVer = s schemaVer := by
    apply Durable.writes_of_not_mem
    intro w hw
    obtain ⟨call, hcall, hwritten⟩ := List.mem_filterMap.mp hw
    cases call with
    | set key value =>
      obtain rfl := Option.some.inj hwritten
      exact hm.version s v key value (h.subset hcall)
    | commit => cases hwritten
  rw [versionOf, hkey, versionOf]

/-- In the middle of the migration the store still counts as the old one. -/
theorem stamped_performed (hm : m.Sound Before After) (old : Store) (v : UInt32) (calls : List Action) (hb : Before old)
    (hv : versionOf old = some v) (hlt : v < m.targetVersion) (h : calls <+: m.migrationFunc old v) :
    Stamped m Before After (performed old calls) := by
  refine ⟨v, (versionOf_performed m Before After hm old v calls h).trans hv, ?_, ?_⟩
  · intro _
    exact hm.again old v calls hb h
  · intro hle
    exact absurd hlt (UInt32.not_lt.mpr hle)

theorem currentVersion_getU32 (s : Store) :
    currentVersion (getU32 s schemaVer) = match versionOf s with
      | some v => .ok v
      | none => .error espErrNvsTypeMismatch := by
  unfold getU32 versionOf
  cases s schemaVer with
  | none => rfl
  | some value => cases value <;> rfl

/-- The place after the version has been read. -/
theorem stage_getVersion (s : Store) (hs : Stamped m Before After s) (err : EspErr)
    (herr : err ≠ espErrNvsNotFound) :
    Stage m Before After s (afterVersion m s (currentVersion
      (if err = espOk then getU32 s schemaVer else .fail err))) := by
  obtain ⟨v, hv, hbefore, hafter⟩ := hs
  split
  · rw [currentVersion_getU32, hv]
    unfold afterVersion
    dsimp only
    split
    · rename_i hlt
      exact ⟨s, v, [], hbefore hlt, hv, hlt, rfl, rfl⟩
    · rename_i hle
      intro _
      exact ⟨v, hv, UInt32.not_lt.mp hle, hafter (UInt32.not_lt.mp hle)⟩
  · rename_i hne
    have hfail : EspResult.failErr err = err := if_neg hne
    have hreturned : currentVersion (.fail err) = .error err := by
      change (if EspResult.failErr err = _ then _ else _) = _
      rw [hfail, if_neg herr]
      exact congrArg Except.error hfail
    rw [hreturned]
    intro hok
    exact absurd hok hne

variable (hm : m.Sound Before After)
include hm

/-- A call of the migration. -/
theorem safe_call (d : Device) (h : d.Safe m Before After) (call : Action) (calls : List Action)
    (hpc : d.pc = .migrate (call :: calls)) (nvs : Durable Bytes Value)
    (hview : nvs.view = performed d.nvs.view [call])
    (halways : Stamped m Before After nvs.view → nvs.Always (Stamped m Before After)) :
    Safe m Before After ⟨nvs, .migrate calls⟩ := by
  have hstage := h.stage
  rw [hpc] at hstage
  obtain ⟨old, v, done, hb, hv, hlt, hcalls, hdone⟩ := hstage
  have hnext : nvs.view = performed old (done ++ [call]) := by
    rw [hview, hdone, performed_concat]
  have hcalls' : m.migrationFunc old v = (done ++ [call]) ++ calls := by
    rw [hcalls, List.append_assoc]
    rfl
  refine ⟨halways ?_, old, v, done ++ [call], hb, hv, hlt, hcalls', hnext⟩
  rw [hnext]
  exact stamped_performed m Before After hm old v _ hb hv hlt ⟨calls, hcalls'.symm⟩

theorem safe_step (d d' : Device) (h : d.Safe m Before After) (err : EspErr) (hl : d.Allowed After (.step err))
    (hn : d.step m err = some d') : d'.Safe m Before After := by
  have hstage := h.stage
  unfold step at hn
  unfold Allowed at hl
  split at hn
  · rename_i hpc
    rw [hpc] at hl
    rw [← Option.some.inj hn]
    exact ⟨h.always, stage_getVersion m Before After _ h.always.view err hl⟩
  · rename_i key value calls hpc
    rw [hpc] at hl
    have hok : err = espOk := hl
    rw [← Option.some.inj hn, if_pos hok]
    exact safe_call m Before After hm d h _ calls hpc _ (Durable.view_set _ _ _)
      fun hs => h.always.set _ _ _ _ (Durable.view_set d.nvs key value ▸ hs)
  · rename_i calls hpc
    rw [hpc] at hl
    have hok : err = espOk := hl
    rw [← Option.some.inj hn, if_pos hok]
    exact safe_call m Before After hm d h _ calls hpc _ rfl fun _ => h.always.commit
  · rename_i hpc
    rw [hpc] at hstage
    rw [← Option.some.inj hn]
    refine ⟨h.always, ?_⟩
    obtain ⟨old, v, done, hb, -, -, hcalls, hdone⟩ := hstage
    rw [List.append_nil] at hcalls
    change After d.nvs.view
    rw [hdone, ← hcalls]
    exact hm.completes old v hb
  · rename_i hpc
    rw [hpc] at hstage
    rw [← Option.some.inj hn]
    split
    · have hstamp := versionOf_stamp d.nvs.view m.targetVersion
      have hafter := hm.stamped d.nvs.view hstage
      have hview := Durable.view_set d.nvs schemaVer (.u32 m.targetVersion)
      refine ⟨h.always.set _ _ _ _ ⟨_, hstamp, fun hlt => absurd hlt (UInt32.lt_irrefl _), fun _ => hafter⟩, ?_⟩
      dsimp only
      rw [hview]
      exact ⟨hstamp, hafter⟩
    · rename_i hne
      exact ⟨h.always, fun hok => absurd hok hne⟩
  · rename_i hpc
    rw [hpc] at hstage
    rw [← Option.some.inj hn]
    split
    · exact ⟨h.always.commit, fun _ => ⟨_, hstage.1, UInt32.le_refl _, hstage.2⟩⟩
    · rename_i hne
      exact ⟨h.always, fun hok => absurd hok hne⟩
  · cases hn
  · cases hn

theorem safe_next (d d' : Device) (h : d.Safe m Before After) (l : Label) (hl : d.Allowed After l)
    (hn : next m d l = some d') : d'.Safe m Before After := by
  have hstage := h.stage
  cases l with
  | boot opened =>
    unfold next at hn
    dsimp only at hn
    split at hn
    · rw [← Option.some.inj hn]
      refine ⟨h.always, ?_⟩
      cases opened with
      | true => trivial
      | false => exact fun hok => absurd hok (by decide)
    · cases hn
  | step err => exact safe_step m Before After hm d d' h err hl hn
  | set key value =>
    obtain ⟨hkey, hafter⟩ := hl
    unfold next at hn
    dsimp only at hn
    split at hn
    · rename_i hpc
      rw [hpc] at hstage
      obtain ⟨v, hv, hle, -⟩ := hstage rfl
      have hnew : versionOf (Durable.write d.nvs.view (key, value)) = some v :=
        (versionOf_write d.nvs.view key value hkey).trans hv
      rw [← Option.some.inj hn]
      refine ⟨h.always.set _ _ _ _ ⟨v, hnew, fun hlt => absurd hlt (UInt32.not_lt.mpr hle), fun _ => hafter⟩, ?_⟩
      dsimp only
      rw [hpc, Durable.view_set]
      exact fun _ => ⟨v, hnew, hle, hafter⟩
    · cases hn
  | commit =>
    unfold next at hn
    dsimp only at hn
    split at hn
    · rw [← Option.some.inj hn]
      exact ⟨h.always.commit, hstage⟩
    · cases hn
  | cut kept =>
    rw [← Option.some.inj hn]
    exact ⟨h.always.cut _ _ kept hl, trivial⟩

/-- With power, and a store that answers, the calls that are left are made and the version is set. -/
theorem migrate_runs (calls : List Action) (d : Device) (h : d.Safe m Before After) (hpc : d.pc = .migrate calls) :
    ∃ d', exec (next m) d (List.replicate (calls.length + 3) (.step espOk)) = some d' ∧
      d'.Safe m Before After ∧ d'.pc = .returned espOk := by
  have hstep (d d' : Device) (n : Nat) (hn : d.step m espOk = some d') :
      exec (next m) d (List.replicate (n + 1) (.step espOk)) = exec (next m) d' (List.replicate n (.step espOk)) := by
    change (d.step m espOk).bind _ = _
    rw [hn]
    rfl
  induction calls generalizing d with
  | nil =>
    obtain ⟨nvs, pc⟩ := d
    obtain rfl : pc = .migrate [] := hpc
    have hone := safe_step m Before After hm _ ⟨nvs, .setVersion⟩ h espOk trivial rfl
    have htwo := safe_step m Before After hm _ ⟨nvs.set schemaVer (.u32 m.targetVersion), .commit⟩ hone espOk
      trivial rfl
    have hthree := safe_step m Before After hm _
      ⟨(nvs.set schemaVer (.u32 m.targetVersion)).commit, .returned espOk⟩ htwo espOk trivial rfl
    exact ⟨_, rfl, hthree, rfl⟩
  | cons call calls ih =>
    obtain ⟨nvs, pc⟩ := d
    obtain rfl : pc = .migrate (call :: calls) := hpc
    have hnext : ∃ nvs', step m ⟨nvs, .migrate (call :: calls)⟩ espOk = some ⟨nvs', .migrate calls⟩ := by
      cases call with
      | set key value => exact ⟨_, rfl⟩
      | commit => exact ⟨_, rfl⟩
    obtain ⟨nvs', hnext⟩ := hnext
    have hsafe := safe_step m Before After hm _ _ h espOk rfl hnext
    obtain ⟨d', hrun, hsafe', hreturned⟩ := ih ⟨nvs', .migrate calls⟩ hsafe rfl
    refine ⟨d', ?_, hsafe', hreturned⟩
    rw [List.length_cons, Nat.add_right_comm, hstep _ _ _ hnext]
    exact hrun

/-- Whenever the power fails: a store that has the version has been migrated, one that has not is still as the
migration expects it; a return of `ESP_OK` says that it has been migrated, and the next boot that is not
interrupted ends with one. -/
theorem migrate_schema_safe (s : Store) (hs : Stamped m Before After s) (d : Device)
    (run : Steps (next m) (Allowed After) ⟨⟨s, []⟩, .off⟩ d) :
    (∀ kept, kept <+: d.nvs.pending → Stamped m Before After (Durable.writes d.nvs.stored kept)) ∧
      (d.pc = .returned espOk → ∃ v, versionOf d.nvs.view = some v ∧ m.targetVersion ≤ v ∧ After d.nvs.view) ∧
      (d.pc = .off → ∃ n d', exec (next m) d (.boot true :: List.replicate n (.step espOk)) = some d' ∧
        d'.pc = .returned espOk ∧ After d'.nvs.view) := by
  have hsafe : d.Safe m Before After := by
    refine run.invariant _ _ (Safe m Before After) _ _ ⟨.of_stored _ s hs, trivial⟩ ?_
    intro t l t' ht hl hn
    exact safe_next m Before After hm t t' ht l hl hn
  have hreturned (d : Device) (hsafe : d.Safe m Before After) (hpc : d.pc = .returned espOk) :
      ∃ v, versionOf d.nvs.view = some v ∧ m.targetVersion ≤ v ∧ After d.nvs.view := by
    have hstage := hsafe.stage
    rw [hpc] at hstage
    exact hstage rfl
  refine ⟨hsafe.always, hreturned d hsafe, ?_⟩
  intro hoff
  obtain ⟨nvs, pc⟩ := d
  obtain rfl : pc = .off := hoff
  obtain ⟨v, hv, -, hafter⟩ := hsafe.always.view
  have hboot : Safe m Before After ⟨nvs, .getVersion⟩ := ⟨hsafe.always, trivial⟩
  have hread : step m ⟨nvs, .getVersion⟩ espOk = some ⟨nvs, afterVersion m nvs.view (.ok v)⟩ := by
    change some (Device.mk nvs (afterVersion m nvs.view (currentVersion (getU32 nvs.view schemaVer)))) = _
    have hv : versionOf nvs.view = some v := hv
    rw [currentVersion_getU32, hv]
  have hdecided := safe_step m Before After hm _ _ hboot espOk (by decide : espOk ≠ espErrNvsNotFound) hread
  have hexec (n : Nat) : exec (next m) ⟨nvs, .off⟩ (.boot true :: List.replicate (n + 1) (.step espOk)) =
      exec (next m) ⟨nvs, afterVersion m nvs.view (.ok v)⟩ (List.replicate n (.step espOk)) := by
    have hcalled : next m ⟨nvs, .off⟩ (.boot true) = some ⟨nvs, .getVersion⟩ := by simp [next]
    rw [exec_cons, hcalled, Option.bind_some, List.replicate_succ, exec_cons]
    change (step m ⟨nvs, .getVersion⟩ espOk).bind _ = _
    rw [hread, Option.bind_some]
  by_cases hlt : v < m.targetVersion
  · have hpc : afterVersion m nvs.view (.ok v) = .migrate (m.migrationFunc nvs.view v) := if_pos hlt
    rw [hpc] at hdecided hexec
    obtain ⟨d', hrun, hsafe', hpc'⟩ := migrate_runs m Before After hm _ _ hdecided rfl
    obtain ⟨-, -, -, hdone⟩ := hreturned d' hsafe' hpc'
    exact ⟨_, d', (hexec _).trans hrun, hpc', hdone⟩
  · have hpc : afterVersion m nvs.view (.ok v) = .returned espOk := if_neg hlt
    rw [hpc] at hexec
    exact ⟨1, _, hexec 0, rfl, hafter (UInt32.not_lt.mp hlt)⟩

end steps

/-- What is under `a` is to be found under `b` as well. -/
def copied : Migration where
  targetVersion := 2
  migrationFunc s _ := (s [97]).toList.map (.set [98])

def HasA (s : Store) : Prop := (s [97]).isSome = true

def HasBoth (s : Store) : Prop := HasA s ∧ s [98] = s [97]

theorem copied_sound : copied.Sound HasA HasBoth := by
  have hcalls (s : Store) (v : UInt32) (val : Value) (h : s [97] = some val) :
      copied.migrationFunc s v = [.set [98] val] := by
    change (s [97]).toList.map (Action.set [98]) = _
    rw [h]
    rfl
  have hother : ([98] : Bytes) ≠ schemaVer := by decide
  refine ⟨?_, ?_, ?_, ?_⟩
  · intro s v key value hmem
    obtain ⟨val, -, hcall⟩ := List.mem_map.mp hmem
    obtain ⟨rfl, -⟩ := Action.set.inj hcall
    exact hother
  · intro s v calls hs hprefix
    obtain ⟨val, hval⟩ := Option.isSome_iff_exists.mp hs
    rw [hcalls s v val hval] at hprefix
    rcases List.prefix_concat_iff.mp (show calls <+: [] ++ [_] from hprefix) with rfl | hnil
    · change (Function.update s [98] (some val) [97]).isSome = true
      rw [Function.update_of_ne (by decide), hval]
      rfl
    · rw [List.prefix_nil.mp hnil]
      exact hs
  · intro s v hs
    obtain ⟨val, hval⟩ := Option.isSome_iff_exists.mp hs
    have ha : performed s (copied.migrationFunc s v) [97] = some val := by
      rw [hcalls s v val hval]
      change Function.update s [98] (some val) [97] = some val
      rw [Function.update_of_ne (by decide), hval]
    refine ⟨by rw [HasA, ha]; rfl, ?_⟩
    rw [ha, hcalls s v val hval]
    change Function.update s [98] (some val) [98] = some val
    rw [Function.update_self]
  · intro s hs
    have hkeep (key : Bytes) (hne : key ≠ schemaVer) (value : Value) :
        Durable.write s (schemaVer, value) key = s key := Function.update_of_ne hne _ _
    rw [HasBoth, HasA, hkeep [97] (by decide), hkeep [98] hother]
    exact hs

/-- A store of the first version. -/
def oldStore : Store := Function.update (fun _ => none) [97] (some (.i32 5))

/-- The power fails after the migration has written. -/
theorem migrate_schema_safe_cut : ∃ d, Steps (next copied) (Allowed HasBoth) ⟨⟨oldStore, []⟩, .off⟩ d ∧
    d.nvs.stored [98] = some (.i32 5) ∧ versionOf d.nvs.stored = some 0 ∧
    ∃ n d', exec (next copied) d (.boot true :: List.replicate n (.step espOk)) = some d' ∧
      d'.pc = .returned espOk ∧ HasBoth d'.nvs.view := by
  have hstart : Stamped copied HasA HasBoth oldStore :=
    ⟨0, by decide, fun _ => rfl, fun hle => absurd hle (by decide)⟩
  have hboot : Steps (next copied) (Allowed HasBoth) ⟨⟨oldStore, []⟩, .off⟩ ⟨⟨oldStore, []⟩, .getVersion⟩ :=
    .snoc _ _ (.boot true) .refl trivial rfl
  have hread : Steps (next copied) (Allowed HasBoth) ⟨⟨oldStore, []⟩, .off⟩
      ⟨⟨oldStore, []⟩, .migrate [.set [98] (.i32 5)]⟩ :=
    .snoc _ _ (.step espOk) hboot (by decide : espOk ≠ espErrNvsNotFound) rfl
  have hset : Steps (next copied) (Allowed HasBoth) ⟨⟨oldStore, []⟩, .off⟩
      ⟨⟨oldStore, [([98], .i32 5)]⟩, .migrate []⟩ := .snoc _ _ (.step espOk) hread rfl rfl
  have hrun : Steps (next copied) (Allowed HasBoth) ⟨⟨oldStore, []⟩, .off⟩
      ⟨⟨Function.update oldStore [98] (some (.i32 5)), []⟩, .off⟩ :=
    .snoc _ _ (.cut [([98], .i32 5)]) hset (List.prefix_refl [([98], Value.i32 5)]) rfl
  refine ⟨_, hrun, by decide, by decide, ?_⟩
  exact (migrate_schema_safe copied HasA HasBoth copied_sound oldStore hstart _ hrun).2.2 rfl

/-- Were the writes to survive out of order, the version could come without the data. -/
theorem version_without_data : ∃ d, exec (next copied) ⟨⟨oldStore, []⟩, .off⟩ (.boot true ::
      List.replicate 4 (.step espOk) ++ [.cut [(schemaVer, .u32 2)]]) = some d ∧
    versionOf d.nvs.view = some copied.targetVersion ∧ ¬ HasBoth d.nvs.view := by
  refine ⟨_, rfl, by decide, ?_⟩
  rintro ⟨-, h⟩
  revert h
  decide

/-- A write that fails within the migration is not noticed. -/
theorem failed_write_unnoticed : ∃ d, exec (next copied) ⟨⟨oldStore, []⟩, .off⟩
      [.boot true, .step espOk, .step espFail, .step espOk, .step espOk, .step espOk] = some d ∧
    d.pc = .returned espOk ∧ ¬ HasBoth d.nvs.view := by
  refine ⟨_, rfl, rfl, ?_⟩
  rintro ⟨-, h⟩
  revert h
  decide

end Device

end Espbase.NvsStore
