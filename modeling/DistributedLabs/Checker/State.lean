import DistributedLabs.Library.GoMap
import DistributedLabs.Library.GoTime
import Mathlib.Logic.Function.Basic

/-!
The consistency checker of the stress tester. For each key it keeps the values that
a read may return, the values known to be overwritten, a version that counts the
completed writes and a count of the writes in progress. Every call holds the mutex
from start to end, so each one is a single step. Times are in nanoseconds.
-/

namespace CheckerLab

open GoTime

/-- The command line flags the checker reads. -/
structure Flags where
  checkCorrectness : Bool := true
  checkTtl : Bool := true
  ttlCheckBuffer : Int := 10000000

structure StateValue (V : Type) where
  value : V
  writtenAt : Int
  maybeExpiredBy : Int
  definitelyExpiredBy : Int
  err : Option String
  overwrittenAt : Int := zeroTime
  deriving DecidableEq

/-- What a write records when it completes. -/
def newVal {V : Type} (flags : Flags) (value : V) (err : Option String)
    (maybeExpiredBy definitelyExpiredBy now : Int) : StateValue V :=
  { value, maybeExpiredBy, err, writtenAt := now
    definitelyExpiredBy := definitelyExpiredBy + flags.ttlCheckBuffer }

inductive CheckError (V : Type) where
  | noValueFound (valsNotExpired : List (StateValue V))
  | wasOverwritten (value : V) (ago : Int)
  | neverWritten
  | expired (value : V) (ago : Int)

structure ConsistencyChecker (K V : Type) where
  checksRun : UInt64
  values : K → GoMap V (StateValue V)
  overwrittenValues : K → GoMap V (StateValue V)
  version : K → Int
  rc : K → Int

def makeConsistencyChecker (K V : Type) : ConsistencyChecker K V where
  checksRun := 0
  values := fun _ => ∅
  overwrittenValues := fun _ => ∅
  version := fun _ => 0
  rc := fun _ => 0

namespace ConsistencyChecker

variable {K V : Type} [DecidableEq K]

def beginWrite (cc : ConsistencyChecker K V) (flags : Flags) (key : K) :
    ConsistencyChecker K V × Int :=
  if flags.checkCorrectness = false then (cc, 0)
  else ({ cc with rc := Function.update cc.rc key (cc.rc key + 1) }, cc.version key)

theorem beginWrite_enabled {cc : ConsistencyChecker K V} {flags : Flags} {key : K}
    (hc : flags.checkCorrectness = true) : cc.beginWrite flags key =
      ({ cc with rc := Function.update cc.rc key (cc.rc key + 1) }, cc.version key) := by
  simp [beginWrite, hc]

variable [DecidableEq V]

/-- The value is the only one a read may return from now on. -/
def overwrite (cc : ConsistencyChecker K V) (key : K) (value : V) (newVal : StateValue V) :
    ConsistencyChecker K V :=
  let old := (cc.values key).entries.map fun e => (e.2.value, e.2)
  { cc with
    overwrittenValues := Function.update cc.overwrittenValues key
      (GoMap.insertAll (cc.overwrittenValues key) old)
    values := Function.update cc.values key (AList.singleton value newVal) }

/-- The value is one more that a read may return. -/
def addValue (cc : ConsistencyChecker K V) (key : K) (value : V) (newVal : StateValue V) :
    ConsistencyChecker K V :=
  { cc with values := Function.update cc.values key ((cc.values key).insert value newVal) }

/-- Panics on a value that was written to the key before. -/
def completeWrite (cc : ConsistencyChecker K V) (flags : Flags) (key : K) (value : V)
    (err : Option String) (initialVersion maybeExpiredBy definitelyExpiredBy now : Int) :
    Option (ConsistencyChecker K V) :=
  if flags.checkCorrectness = false then some cc
  else
    let newVal := newVal flags value err maybeExpiredBy definitelyExpiredBy now
    if value ∈ cc.values key then none
    else if value ∈ cc.overwrittenValues key then none
    else
      let cc' := if err = none ∧ initialVersion = cc.version key ∧ cc.rc key = 1
        then cc.overwrite key value newVal
        else cc.addValue key value newVal
      some { cc' with
        rc := Function.update cc'.rc key (cc'.rc key - 1)
        version := Function.update cc'.version key (cc'.version key + 1) }

def beginRead (cc : ConsistencyChecker K V) (flags : Flags) (key : K) : Int × Bool :=
  if flags.checkCorrectness = false then (0, false)
  else (cc.version key, cc.rc key ≠ 0)

/-- The check of a read that overlaps no write. -/
def checkRead (cc : ConsistencyChecker K V) (flags : Flags) (key : K) (value : V)
    (wasFound : Bool) (startTime now : Int) : Option (CheckError V) :=
  if wasFound = false then
    let vals := (cc.values key).entries.map fun e => e.2
    let valsNotExpired := vals.filter fun val => ¬ val.maybeExpiredBy < now
    if vals.length = 0 ∨ ∃ val ∈ vals, val.maybeExpiredBy < now then none
    else some (.noValueFound valsNotExpired)
  else
    match (cc.values key).lookup value with
    | none =>
        match (cc.overwrittenValues key).lookup value with
        | some val =>
            some (.wasOverwritten value (milliseconds (timeSub now val.overwrittenAt)))
        | none => some .neverWritten
    | some val =>
        if flags.checkTtl = true ∧ val.err = none ∧ val.definitelyExpiredBy < startTime then
          some (.expired value (milliseconds (timeSub startTime val.maybeExpiredBy)))
        else none

def checkReadCorrect (cc : ConsistencyChecker K V) (flags : Flags) (key : K) (value : V)
    (wasFound : Bool) (startTime initialVersion : Int) (writesPending : Bool) (now : Int) :
    ConsistencyChecker K V × Option (CheckError V) :=
  if flags.checkCorrectness = false then (cc, none)
  else if cc.version key ≠ initialVersion ∨ writesPending = true ∨ cc.rc key ≠ 0 then
    (cc, none)
  else
    ({ cc with checksRun := cc.checksRun + 1 },
      cc.checkRead flags key value wasFound startTime now)

section Enabled

variable {cc cc' : ConsistencyChecker K V} {flags : Flags} {key : K} {value : V}
  {err : Option String} {initialVersion maybe definitely now : Int}

theorem completeWrite_panics (hc : flags.checkCorrectness = true)
    (h : cc.completeWrite flags key value err initialVersion maybe definitely now = none) :
    value ∈ cc.values key ∨ value ∈ cc.overwrittenValues key := by
  simp only [completeWrite, hc, Bool.true_eq_false, if_false] at h
  split at h
  · exact Or.inl ‹_›
  · split at h
    · exact Or.inr ‹_›
    · cases h

/-- A write the checker takes to be isolated replaces the candidates of its key. -/
theorem completeWrite_overwrites (hc : flags.checkCorrectness = true)
    (h : cc.completeWrite flags key value err initialVersion maybe definitely now = some cc')
    (hd : err = none ∧ initialVersion = cc.version key ∧ cc.rc key = 1) :
    cc'.rc = Function.update cc.rc key (cc.rc key - 1) ∧
    cc'.version = Function.update cc.version key (cc.version key + 1) ∧
    cc'.values = Function.update cc.values key
      (AList.singleton value (newVal flags value err maybe definitely now)) ∧
    cc'.overwrittenValues = Function.update cc.overwrittenValues key
      (GoMap.insertAll (cc.overwrittenValues key)
        ((cc.values key).entries.map fun e => (e.2.value, e.2))) := by
  simp only [completeWrite, hc, Bool.true_eq_false, if_false, if_pos hd] at h
  split at h
  · cases h
  · split at h <;> cases h
    exact ⟨rfl, rfl, rfl, rfl⟩

theorem completeWrite_adds (hc : flags.checkCorrectness = true)
    (h : cc.completeWrite flags key value err initialVersion maybe definitely now = some cc')
    (hd : ¬ (err = none ∧ initialVersion = cc.version key ∧ cc.rc key = 1)) :
    cc'.rc = Function.update cc.rc key (cc.rc key - 1) ∧
    cc'.version = Function.update cc.version key (cc.version key + 1) ∧
    cc'.values = Function.update cc.values key
      ((cc.values key).insert value (newVal flags value err maybe definitely now)) ∧
    cc'.overwrittenValues = cc.overwrittenValues := by
  simp only [completeWrite, hc, Bool.true_eq_false, if_false, if_neg hd] at h
  split at h
  · cases h
  · split at h <;> cases h
    exact ⟨rfl, rfl, rfl, rfl⟩

end Enabled

end ConsistencyChecker

namespace ConsistencyChecker

variable {K V : Type} {cc : ConsistencyChecker K V} {flags : Flags} {key : K}

theorem beginRead_enabled (hc : flags.checkCorrectness = true) :
    cc.beginRead flags key = (cc.version key, decide (cc.rc key ≠ 0)) := by
  simp [beginRead, hc]

variable [DecidableEq V] {value : V} {wasFound writesPending : Bool}
  {startTime initialVersion now : Int}

/-- A check changes only the number of checks. -/
theorem checkReadCorrect_fst {cc' : ConsistencyChecker K V} {err : Option (CheckError V)}
    (h : cc.checkReadCorrect flags key value wasFound startTime initialVersion writesPending
      now = (cc', err)) : ∃ n, cc' = { cc with checksRun := n } := by
  simp only [checkReadCorrect] at h
  split at h
  · cases h
    exact ⟨cc.checksRun, rfl⟩
  · split at h <;> cases h
    · exact ⟨cc.checksRun, rfl⟩
    · exact ⟨cc.checksRun + 1, rfl⟩

/-- A read is looked at only if no write overlaps it. -/
theorem checkReadCorrect_snd
    (h : initialVersion = cc.version key → cc.rc key = 0 → writesPending = false →
      cc.checkRead flags key value wasFound startTime now = none) :
    (cc.checkReadCorrect flags key value wasFound startTime initialVersion writesPending
      now).2 = none := by
  simp only [checkReadCorrect]
  split
  · rfl
  · split
    · rfl
    · rename_i hrun
      simp only [not_or, not_not, Bool.not_eq_true] at hrun
      exact h hrun.1.symm hrun.2.2 hrun.2.1

end ConsistencyChecker

end CheckerLab
