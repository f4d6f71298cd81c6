import Espbase.Lib.Decimal
import Mathlib.Logic.Function.Basic

namespace Espbase.Emulated

open Espbase.Lib

inductive EspErr where
  | ok
  | fail
  | invalidState
  | nvsNotFound
  | nvsInvalidLength
  deriving DecidableEq

structure EspResult (α : Type) where
  err : EspErr
  value : Option α

namespace EspResult

def ok {α : Type} (value : α) : EspResult α := ⟨.ok, some value⟩

def fail {α : Type} (err : EspErr) : EspResult α := ⟨if err = .ok then .fail else err, none⟩

end EspResult

/-- A store that `open` has returned. -/
structure NvsStore where
  handle : Nat

/-- The variables of the file: `last_partition_name`, and `fake_store` (a partition that is not there is
entered empty). -/
structure Nvs where
  lastPartitionName : Option Bytes
  fakeStore : Bytes → Bytes → Option Bytes

namespace Nvs

def loaded : Nvs := ⟨none, fun _ _ => none⟩

/-- `fake_store[last_partition_name]`: the key is a `std::string` of the pointer, which throws for a null one. -/
def partition (s : Nvs) : Option Bytes := s.lastPartitionName

/-- `fake_store[last_partition_name][key] = text` -/
def put (s : Nvs) (key text : Bytes) : Option Nvs := do
  let name ← s.partition
  some { s with
    fakeStore := Function.update s.fakeStore name (Function.update (s.fakeStore name) key (some text)) }

/-- `fake_store[last_partition_name].find(key)` -/
def find (s : Nvs) (key : Bytes) : Option (Option Bytes) := do
  let name ← s.partition
  some (s.fakeStore name key)

end Nvs

def isBlank (c : UInt8) : Bool := c = ch ' ' || (0x09 ≤ c && c ≤ 0x0d)

/-- The number that `std::stol` and `std::stoul` read; without digits they throw. -/
def readNumber (text : Bytes) : Option Int :=
  let text := text.dropWhile isBlank
  let neg := text.head? = some (ch '-')
  let text := if neg ∨ text.head? = some (ch '+') then text.tail else text
  let digits := text.takeWhile fun c => IsDigit c
  if digits = [] then none
  else some (if neg then -(ofDecimal 0 digits : Int) else ofDecimal 0 digits)

/-- `long` has 64 bits on the host. -/
def stol (text : Bytes) : Option Int := do
  let n ← readNumber text
  if -2 ^ 63 ≤ n ∧ n < 2 ^ 63 then some n else none

def stoul (text : Bytes) : Option Nat := do
  let n ← readNumber text
  if n.natAbs < 2 ^ 64 then some (n % 2 ^ 64).toNat else none

/-- `get_num`; the value is read by `read`, and nothing is written where there is none. -/
def getNum {α : Type} (s : Nvs) (key : Bytes) (read : Bytes → Option α) : Option (EspErr × Option α) := do
  match ← s.find key with
  | none => some (.nvsNotFound, none)
  | some text => do
    let value ← read text
    some (.ok, some value)

/-- `get_str`, with the text that it writes; `buffer`: `out_value` is not null. -/
def getStr (s : Nvs) (key : Bytes) (buffer : Bool) (length : Nat) : Option (EspErr × Bytes × Nat) := do
  match ← s.find key with
  | none => some (.nvsNotFound, [], length)
  | some storedValue =>
    if buffer = false then some (.ok, [], storedValue.length + 1)
    else if length < storedValue.length + 1 then some (.nvsInvalidLength, [], length)
    else some (.ok, storedValue, length)

namespace NvsStore

def «open» (_ : Bytes) : EspResult NvsStore := .ok ⟨1⟩

/-- `get_num(key, &value) ? ok(value) : fail(ESP_ERR_NVS_NOT_FOUND)`, where an error code is true and `ESP_OK`
false; nothing stands for a value that was not written. -/
def numResult {α : Type} (r : EspErr × Option α) : EspResult (Option α) :=
  if r.1 ≠ .ok then .ok r.2 else .fail .nvsNotFound

def setI32 (s : Nvs) (key : Bytes) (value : Int32) : Option Nvs := s.put key (signedDecimal value.toInt)

def getI32 (s : Nvs) (key : Bytes) : Option (EspResult (Option Int32)) := do
  let r ← getNum s key fun text => (stol text).map Int32.ofInt
  some (numResult r)

def setU32 (s : Nvs) (key : Bytes) (value : UInt32) : Option Nvs := s.put key (decimal value.toNat)

def getU32 (s : Nvs) (key : Bytes) : Option (EspResult (Option UInt32)) := do
  let r ← getNum s key fun text => (stoul text).map UInt32.ofNat
  some (numResult r)

def setString (s : Nvs) (key value : Bytes) : Option Nvs := s.put key value

def getStringLength (store : NvsStore) (s : Nvs) (key : Bytes) : Option (EspResult Nat) :=
  if store.handle = 0 then some (.fail .invalidState)
  else do
    let (err, _, len) ← getStr s key false 0
    some (if err ≠ .ok then .fail err else .ok len)

/-- With the text that is in the buffer afterwards. -/
def getString (s : Nvs) (key : Bytes) (buffer : Bool) (maxLen : Nat) : Option (EspErr × Bytes) := do
  let (err, text, _) ← getStr s key buffer maxLen
  some (err, text)

end NvsStore

/-- A call, on the store of the given number where it is on one. -/
inductive Call where
  | «open» (namespaceName : Bytes)
  | setI32 (store : Nat) (key : Bytes) (value : Int32)
  | setU32 (store : Nat) (key : Bytes) (value : UInt32)
  | setString (store : Nat) (key value : Bytes)
  | getI32 (store : Nat) (key : Bytes)
  | getU32 (store : Nat) (key : Bytes)
  | getStringLength (store : Nat) (key : Bytes)
  | getString (store : Nat) (key : Bytes) (buffer : Bool) (maxLen : Nat)

inductive Reply where
  | opened (r : EspResult NvsStore)
  | done (err : EspErr)
  | i32 (r : EspResult (Option Int32))
  | u32 (r : EspResult (Option UInt32))
  | length (r : EspResult Nat)
  | text (err : EspErr) (text : Bytes)

/-- The variables, and the stores that have been opened. -/
structure Session where
  nvs : Nvs
  stores : List NvsStore

namespace Session

def start : Session := ⟨.loaded, []⟩

def add (s : Session) (st : NvsStore) : Session := { s with stores := s.stores ++ [st] }

def set (s : Session) (store : Nat) (put : Nvs → Option Nvs) : Option (Session × Reply) := do
  let _ ← s.stores[store]?
  let nvs ← put s.nvs
  some ({ s with nvs }, .done .ok)

def get (s : Session) (store : Nat) (reply : NvsStore → Nvs → Option Reply) : Option (Session × Reply) := do
  let st ← s.stores[store]?
  let r ← reply st s.nvs
  some (s, r)

def call (s : Session) : Call → Option (Session × Reply)
  | .open name =>
    let r := NvsStore.open name
    some (r.value.elim s s.add, .opened r)
  | .setI32 store key value => s.set store fun nvs => NvsStore.setI32 nvs key value
  | .setU32 store key value => s.set store fun nvs => NvsStore.setU32 nvs key value
  | .setString store key value => s.set store fun nvs => NvsStore.setString nvs key value
  | .getI32 store key => s.get store fun _ nvs => (NvsStore.getI32 nvs key).map .i32
  | .getU32 store key => s.get store fun _ nvs => (NvsStore.getU32 nvs key).map .u32
  | .getStringLength store key => s.get store fun st nvs => (st.getStringLength nvs key).map .length
  | .getString store key buffer maxLen =>
    s.get store fun _ nvs => (NvsStore.getString nvs key buffer maxLen).map fun r => .text r.1 r.2

/-- The replies to calls, one after the other; nothing when one of them fails internally. -/
def run : Session → List Call → Option (List Reply)
  | _, [] => some []
  | s, c :: cs => do
    let (s, r) ← s.call c
    let rs ← run s cs
    some (r :: rs)

end Session

/-- What a key/value store remembers: of each namespace and key the last value of each kind. -/
structure KeyValues where
  /-- the namespaces of the stores that have been opened -/
  namespaces : List Bytes
  i32 : Bytes → Bytes → Option Int32
  u32 : Bytes → Bytes → Option UInt32
  text : Bytes → Bytes → Option Bytes

namespace KeyValues

def empty : KeyValues := ⟨[], fun _ _ => none, fun _ _ => none, fun _ _ => none⟩

def write {α : Type} (m : Bytes → Bytes → Option α) (name key : Bytes) (value : α) :
    Bytes → Bytes → Option α := Function.update m name (Function.update (m name) key (some value))

/-- The namespace of a store. -/
def name (m : KeyValues) (store : Nat) : Bytes := m.namespaces.getD store []

def next (m : KeyValues) : Call → KeyValues
  | .open name => { m with namespaces := m.namespaces ++ [name] }
  | .setI32 store key value => { m with i32 := write m.i32 (m.name store) key value }
  | .setU32 store key value => { m with u32 := write m.u32 (m.name store) key value }
  | .setString store key value => { m with text := write m.text (m.name store) key value }
  | _ => m

def Unset (m : KeyValues) (store : Nat) (key : Bytes) : Prop :=
  m.i32 (m.name store) key = none ∧ m.u32 (m.name store) key = none ∧ m.text (m.name store) key = none

/-- A get of a kind: the last value of that kind; not found, exactly when the key was never set. -/
def Answers {α β : Type} (m : KeyValues) (store : Nat) (key : Bytes) (last : Option α) (r : EspResult β)
    (delivered : α → β) : Prop :=
  (∀ value, last = some value → r = .ok (delivered value)) ∧ (r.err = .nvsNotFound ↔ m.Unset store key)

/-- The replies of a key/value store. -/
def Allows (m : KeyValues) : Call → Reply → Prop
  | .open _, .opened r => r.err = .ok
  | .setI32 _ _ _, .done err => err = .ok
  | .setU32 _ _ _, .done err => err = .ok
  | .setString _ _ _, .done err => err = .ok
  | .getI32 store key, .i32 r => m.Answers store key (m.i32 (m.name store) key) r some
  | .getU32 store key, .u32 r => m.Answers store key (m.u32 (m.name store) key) r some
  | .getStringLength store key, .length r =>
    m.Answers store key (m.text (m.name store) key) r fun value => value.length + 1
  | .getString store key buffer maxLen, .text err text =>
    (∀ value, m.text (m.name store) key = some value → buffer = true → value.length < maxLen →
      err = .ok ∧ text = value) ∧ (err = .nvsNotFound ↔ m.Unset store key)
  | _, _ => False

def Conforms : KeyValues → List Call → List Reply → Prop
  | _, [], [] => True
  | m, c :: cs, r :: rs => m.Allows c r ∧ Conforms (m.next c) cs rs
  | _, _, _ => False

end KeyValues

/-- No call fails internally, and each replies as a key/value store does. -/
def BehavesAsStore (calls : List Call) : Prop :=
  ∃ rs, Session.start.run calls = some rs ∧ KeyValues.empty.Conforms calls rs

def Call.opens : Call → Bool
  | .open _ => true
  | _ => false

/-- The partition has no name, and the stores come from `open`. -/
structure Session.Unnamed (s : Session) : Prop where
  name : s.nvs.lastPartitionName = none
  stores : ∀ st ∈ s.stores, st.handle ≠ 0

section unnamed
variable (s : Session) (h : s.Unnamed)
include h

/-- With no partition name every set and every get throws. -/
theorem call_unnamed (c : Call) (hc : c.opens = false) : s.call c = none := by
  have hput (key text : Bytes) : s.nvs.put key text = none := by
    rw [Nvs.put, Nvs.partition, h.name]
    rfl
  have hfind (key : Bytes) : s.nvs.find key = none := by
    rw [Nvs.find, Nvs.partition, h.name]
    rfl
  have hset (store : Nat) (put : Nvs → Option Nvs) (hp : put s.nvs = none) : s.set store put = none := by
    rw [Session.set, hp]
    cases s.stores[store]? <;> rfl
  have hget (store : Nat) (reply : NvsStore → Nvs → Option Reply)
      (hr : ∀ st ∈ s.stores, reply st s.nvs = none) : s.get store reply = none := by
    rw [Session.get]
    cases hst : s.stores[store]? with
    | none => rfl
    | some st => simp [hr st (List.mem_of_getElem? hst)]
  cases c with
  | «open» name => cases hc
  | setI32 store key value =>
    rw [Session.call]
    exact hset store _ (hput key _)
  | setU32 store key value =>
    rw [Session.call]
    exact hset store _ (hput key _)
  | setString store key value =>
    rw [Session.call]
    exact hset store _ (hput key value)
  | getI32 store key =>
    rw [Session.call]
    apply hget store
    intro st _
    rw [NvsStore.getI32, getNum, hfind]
    rfl
  | getU32 store key =>
    rw [Session.call]
    apply hget store
    intro st _
    rw [NvsStore.getU32, getNum, hfind]
    rfl
  | getStringLength store key =>
    rw [Session.call]
    apply hget store
    intro st hst
    rw [NvsStore.getStringLength, if_neg (h.stores st hst), getStr, hfind]
    rfl
  | getString store key buffer maxLen =>
    rw [Session.call]
    apply hget store
    intro st _
    rw [NvsStore.getString, getStr, hfind]
    rfl

omit h in
theorem run_open (name : Bytes) (cs : List Call) : s.run (.open name :: cs) =
    ((s.add ⟨1⟩).run cs).map fun rs => .opened (.ok ⟨1⟩) :: rs := by
  show ((s.add ⟨1⟩).run cs).bind _ = _
  cases (s.add ⟨1⟩).run cs <;> rfl

theorem unnamed_open : (s.add ⟨1⟩).Unnamed := by
  refine ⟨h.name, ?_⟩
  intro st hst
  rcases List.mem_append.mp hst with hst | hst
  · exact h.stores st hst
  · rw [List.mem_singleton.mp hst]
    exact nofun

theorem run_unnamed (m : KeyValues) (calls : List Call) :
    (∃ rs, s.run calls = some rs ∧ m.Conforms calls rs) ↔ ∀ c ∈ calls, c.opens = true := by
  induction calls generalizing s m with
  | nil => exact ⟨fun _ => nofun, fun _ => ⟨[], rfl, trivial⟩⟩
  | cons c cs ih =>
    cases hc : c.opens with
    | false =>
      refine ⟨?_, fun hall => ?_⟩
      · intro hstore
        obtain ⟨rs, hrun, -⟩ := hstore
        rw [Session.run, call_unnamed s h c hc] at hrun
        cases hrun
      · rw [hall c List.mem_cons_self] at hc
        cases hc
    | true =>
      cases c with
      | «open» name =>
        have hrest := ih _ (unnamed_open s h) (m.next (.open name))
        rw [run_open]
        constructor
        · intro hstore
          obtain ⟨rs, hrun, hconf⟩ := hstore
          obtain ⟨rs', hrun', rfl⟩ := Option.map_eq_some_iff.mp hrun
          intro d hd
          rcases List.mem_cons.mp hd with rfl | hd
          · exact hc
          · exact hrest.mp ⟨rs', hrun', hconf.2⟩ d hd
        · intro hall
          obtain ⟨rs', hrun', hconf⟩ := hrest.mpr fun d hd => hall d (List.mem_cons_of_mem _ hd)
          exact ⟨_, Option.map_eq_some_iff.mpr ⟨rs', hrun', rfl⟩, rfl, hconf⟩
      | _ => cases hc

end unnamed

theorem start_unnamed : Session.start.Unnamed := ⟨rfl, nofun⟩

/-- The fake behaves as a key/value store exactly as long as nothing is set and nothing is asked for. -/
theorem behavesAsStore_iff (calls : List Call) :
    BehavesAsStore calls ↔ ∀ c ∈ calls, c.opens = true :=
  run_unnamed Session.start start_unnamed .empty calls

theorem set_throws : ¬ BehavesAsStore [.open (bytes "wifi"), .setI32 0 (bytes "retries") 3] := by
  intro h
  obtain ⟨rs, hrun, -⟩ := h
  rw [run_open, Session.run, call_unnamed _ (unnamed_open _ start_unnamed) _ rfl] at hrun
  cases hrun

/-- Were there a partition name, a number would be found exactly where there is none. -/
theorem getI32_swapped (s : Nvs) (name key : Bytes) (hname : s.lastPartitionName = some name)
    (r : EspResult (Option Int32)) (h : NvsStore.getI32 s key = some r) :
    r.err = .ok ↔ s.fakeStore name key = none := by
  have hfind : s.find key = some (s.fakeStore name key) := by
    rw [Nvs.find, Nvs.partition, hname]
    rfl
  rw [NvsStore.getI32, getNum, hfind] at h
  cases hstored : s.fakeStore name key with
  | none =>
    rw [hstored] at h
    rw [← Option.some.inj h]
    exact ⟨fun _ => rfl, fun _ => rfl⟩
  | some text =>
    simp only [hstored, Option.bind_eq_bind, Option.bind_some, Option.bind_eq_some_iff] at h
    obtain ⟨p, ⟨n, -, hp⟩, hr⟩ := h
    rw [← Option.some.inj hr, ← Option.some.inj hp]
    exact ⟨nofun, nofun⟩

end Espbase.Emulated
