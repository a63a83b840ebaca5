import DistributedLabs.Library.History
import DistributedLabs.Library.Phases
import Mathlib.Algebra.Group.Nat.Defs
import Mathlib.Algebra.Ring.Int.Defs

/-!
The counting semaphore. `Post` increments the counter and then offers one signal
without blocking; `Wait` decrements the counter and, if the result is negative,
blocks in a select over the signal channel and its context. The two steps of each
call interleave with the steps of all others. The channel is unbuffered, so a
signal is taken only by a `Wait` that is inside its select at that instant.
-/

namespace SemaphoreLab

/-- A call of `Post`. The result of the increment is kept although the code drops it. -/
inductive PostPhase where
  | started
  | incremented (v : Int)
  | returned (v : Int)
  deriving DecidableEq

/-- A call of `Wait`. It returns nil from the counter or from the channel. -/
inductive WaitPhase where
  | started
  | decremented
  | selecting
  | acquired
  | signalled
  | cancelled
  deriving DecidableEq

structure Semaphore where
  v : Int
  posts : List PostPhase
  waits : List WaitPhase
  deriving DecidableEq

inductive Event where
  | post
  | increment (p : Nat)
  | send (p w : Nat)
  | default (p : Nat)
  | wait
  | decrement (w : Nat)
  | select (w : Nat)
  | done (w : Nat)
  deriving DecidableEq

/-- The 64 bit counter wraps around. -/
def add (v d : Int) : Int := (v + d).bmod (2 ^ 64)

def newSemaphore : Semaphore := ⟨0, [], []⟩

namespace Semaphore

variable (s : Semaphore)

def increment (p : Nat) : Option Semaphore :=
  match s.posts[p]? with
  | some .started =>
      some { s with v := add s.v 1, posts := s.posts.set p (.incremented (add s.v 1)) }
  | _ => none

def send (p w : Nat) : Option Semaphore :=
  match s.posts[p]?, s.waits[w]? with
  | some (.incremented r), some .selecting =>
      some { s with posts := s.posts.set p (.returned r), waits := s.waits.set w .signalled }
  | _, _ => none

/-- The default case is taken only if no receiver is ready. -/
def default (p : Nat) : Option Semaphore :=
  match s.posts[p]? with
  | some (.incremented r) =>
      if .selecting ∈ s.waits then none
      else some { s with posts := s.posts.set p (.returned r) }
  | _ => none

def decrement (w : Nat) : Option Semaphore :=
  match s.waits[w]? with
  | some .started =>
      if add s.v (-1) < 0 then
        some { s with v := add s.v (-1), waits := s.waits.set w .decremented }
      else some { s with v := add s.v (-1), waits := s.waits.set w .acquired }
  | _ => none

def select (w : Nat) : Option Semaphore :=
  match s.waits[w]? with
  | some .decremented => some { s with waits := s.waits.set w .selecting }
  | _ => none

def done (w : Nat) : Option Semaphore :=
  match s.waits[w]? with
  | some .selecting => some { s with waits := s.waits.set w .cancelled }
  | _ => none

def step : Event → Option Semaphore
  | .post => some { s with posts := s.posts ++ [.started] }
  | .increment p => s.increment p
  | .send p w => s.send p w
  | .default p => s.default p
  | .wait => some { s with waits := s.waits ++ [.started] }
  | .decrement w => s.decrement w
  | .select w => s.select w
  | .done w => s.done w

end Semaphore

def machine : Machine Semaphore Event where
  init := newSemaphore
  step := Semaphore.step

namespace Semaphore

/-- What each event needs and what it changes. -/
inductive Step (s : Semaphore) : Event → Semaphore → Prop
  | post : Step s .post { s with posts := s.posts ++ [.started] }
  | increment {p : Nat} (hp : s.posts[p]? = some .started) :
      Step s (.increment p)
        { s with v := add s.v 1, posts := s.posts.set p (.incremented (add s.v 1)) }
  | send {p w : Nat} {r : Int} (hp : s.posts[p]? = some (.incremented r))
      (hw : s.waits[w]? = some .selecting) :
      Step s (.send p w)
        { s with posts := s.posts.set p (.returned r), waits := s.waits.set w .signalled }
  | default {p : Nat} {r : Int} (hp : s.posts[p]? = some (.incremented r))
      (hw : .selecting ∉ s.waits) :
      Step s (.default p) { s with posts := s.posts.set p (.returned r) }
  | wait : Step s .wait { s with waits := s.waits ++ [.started] }
  | block {w : Nat} (hw : s.waits[w]? = some .started) (hv : add s.v (-1) < 0) :
      Step s (.decrement w)
        { s with v := add s.v (-1), waits := s.waits.set w .decremented }
  | acquire {w : Nat} (hw : s.waits[w]? = some .started) (hv : 0 ≤ add s.v (-1)) :
      Step s (.decrement w) { s with v := add s.v (-1), waits := s.waits.set w .acquired }
  | select {w : Nat} (hw : s.waits[w]? = some .decremented) :
      Step s (.select w) { s with waits := s.waits.set w .selecting }
  | done {w : Nat} (hw : s.waits[w]? = some .selecting) :
      Step s (.done w) { s with waits := s.waits.set w .cancelled }

theorem step_cases {s t : Semaphore} {e : Event} (h : s.step e = some t) : s.Step e t := by
  cases e with
  | post =>
      obtain rfl := Option.some.inj h
      exact .post
  | increment p =>
      simp only [step, Semaphore.increment] at h
      split at h <;> cases h
      exact .increment ‹_›
  | send p w =>
      simp only [step, Semaphore.send] at h
      split at h <;> cases h
      exact .send ‹_› ‹_›
  | default p =>
      simp only [step, Semaphore.default] at h
      split at h
      · split at h <;> cases h
        exact .default ‹_› ‹_›
      · cases h
  | wait =>
      obtain rfl := Option.some.inj h
      exact .wait
  | decrement w =>
      simp only [step, Semaphore.decrement] at h
      split at h
      · split at h <;> cases h
        · exact .block ‹_› ‹_›
        · exact .acquire ‹_› (Int.not_lt.mp ‹_›)
      · cases h
  | select w =>
      simp only [step, Semaphore.select] at h
      split at h <;> cases h
      exact .select ‹_›
  | done w =>
      simp only [step, Semaphore.done] at h
      split at h <;> cases h
      exact .done ‹_›

end Semaphore

theorem add_one {v : Int} (h0 : -2 ^ 63 ≤ v) (h : v < 2 ^ 63 - 1) : add v 1 = v + 1 :=
  Int.bmod_eq_of_le (by omega) (by omega)

theorem add_neg_one {v : Int} (h0 : v < 2 ^ 63) (h : -2 ^ 63 < v) : add v (-1) = v - 1 :=
  Int.bmod_eq_of_le (by omega) (by omega)

end SemaphoreLab
