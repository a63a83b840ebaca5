import DistributedLabs.Lab0.Semaphore

/-!
Calls of the semaphore that are made one after the other. Each call runs the steps of the
concurrent model from its start to its end; a `Wait` with a live context that finds no
permit blocks, and no call follows it. A `Wait` that fails has taken one from the counter
and does not give it back.
-/

namespace SemaphoreLab

/-- A `Wait` has a context that is done or one that stays live. -/
inductive SerialCall where
  | post
  | wait (ctxDone : Bool)

inductive CallResult where
  | posted
  | nil
  | ctxErr
  | blocked
  deriving DecidableEq

namespace Semaphore

variable (s : Semaphore)

def post : Option (Semaphore × CallResult) := do
  let s₁ ← s.step .post
  let s₂ ← s₁.step (.increment s.posts.length)
  let s₃ ← s₂.step (.default s.posts.length)
  some (s₃, .posted)

def wait (ctxDone : Bool) : Option (Semaphore × CallResult) := do
  let s₁ ← s.step .wait
  let s₂ ← s₁.step (.decrement s.waits.length)
  if s₂.waits[s.waits.length]? = some .acquired then some (s₂, .nil)
  else
    let s₃ ← s₂.step (.select s.waits.length)
    if ctxDone then
      let s₄ ← s₃.step (.done s.waits.length)
      some (s₄, .ctxErr)
    else some (s₃, .blocked)

/-- A call from its start to its end, with no other call under way. -/
def call : SerialCall → Option (Semaphore × CallResult)
  | .post => s.post
  | .wait ctxDone => s.wait ctxDone

end Semaphore

/-- The results of the calls are listed newest first. -/
structure Serial where
  semaphore : Semaphore
  log : List CallResult
  deriving DecidableEq

namespace Serial

variable (s : Serial)

def step (c : SerialCall) : Option Serial :=
  if .blocked ∈ s.log then none
  else (s.semaphore.call c).map fun (semaphore, result) => ⟨semaphore, result :: s.log⟩

def posts : Nat := s.log.count .posted

def nils : Nat := s.log.count .nil

def failed : Nat := s.log.count .ctxErr

/-- What a `Wait` with a live context does next. -/
def liveWait : Option CallResult := (s.semaphore.call (.wait false)).map Prod.snd

end Serial

def serialCalls : Machine Serial SerialCall where
  init := ⟨newSemaphore, []⟩
  step := Serial.step

section Calls

variable {s t : Semaphore}

theorem call_post (h : .selecting ∉ s.waits) : s.call .post =
    some ({ s with v := add s.v 1, posts := s.posts ++ [.returned (add s.v 1)] }, .posted) := by
  simp [Semaphore.call, Semaphore.post, Semaphore.step, Semaphore.increment, Semaphore.default, h]

theorem call_wait_acquired (ctxDone : Bool) (h : 0 ≤ add s.v (-1)) : s.call (.wait ctxDone) =
    some ({ s with v := add s.v (-1), waits := s.waits ++ [.acquired] }, .nil) := by
  simp [Semaphore.call, Semaphore.wait, Semaphore.step, Semaphore.decrement, Int.not_lt.mpr h]

theorem call_wait_failed (h : add s.v (-1) < 0) : s.call (.wait true) =
    some ({ s with v := add s.v (-1), waits := s.waits ++ [.cancelled] }, .ctxErr) := by
  simp [Semaphore.call, Semaphore.wait, Semaphore.step, Semaphore.decrement, Semaphore.select,
    Semaphore.done, h]

theorem call_wait_blocked (h : add s.v (-1) < 0) : s.call (.wait false) =
    some ({ s with v := add s.v (-1), waits := s.waits ++ [.selecting] }, .blocked) := by
  simp [Semaphore.call, Semaphore.wait, Semaphore.step, Semaphore.decrement, Semaphore.select, h]

/-- A serial call is a stretch of a run of the concurrent model. -/
theorem run_of_call {c : SerialCall} {result : CallResult} {h : List Semaphore}
    (run : machine.Run (fun _ _ => True) (s :: h)) (hc : s.call c = some (t, result)) :
    ∃ h', machine.Run (fun _ _ => True) (t :: h') := by
  have next {s t : Semaphore} {e : Event} {h : List Semaphore}
      (run : machine.Run (fun _ _ => True) (s :: h)) (he : s.step e = some t) :
      machine.Run (fun _ _ => True) (t :: s :: h) :=
    run.next (machine.next_cons.mpr ⟨e, trivial, he⟩)
  cases c with
  | post =>
      obtain ⟨s₁, h₁, hc⟩ := Option.bind_eq_some_iff.mp hc
      obtain ⟨s₂, h₂, hc⟩ := Option.bind_eq_some_iff.mp hc
      cases hc
      exact ⟨_, next (next (next (e := .post) run rfl) h₁) h₂⟩
  | wait ctxDone =>
      obtain ⟨s₁, h₁, hc⟩ := Option.bind_eq_some_iff.mp hc
      have started := next (e := .wait) run rfl
      split at hc
      · cases hc
        exact ⟨_, next started h₁⟩
      · obtain ⟨s₂, h₂, hc⟩ := Option.bind_eq_some_iff.mp hc
        split at hc
        · obtain ⟨s₃, h₃, hc⟩ := Option.bind_eq_some_iff.mp hc
          cases hc
          exact ⟨_, next (next (next started h₁) h₂) h₃⟩
        · cases hc
          exact ⟨_, next (next started h₁) h₂⟩

end Calls

theorem add_bmod (x d : Int) : add (x.bmod (2 ^ 64)) d = (x + d).bmod (2 ^ 64) := by
  simp [add]

/-- What a call that has returned has done to the permits that are left. -/
def CallResult.change : CallResult → Int
  | .posted => 1
  | .nil | .ctxErr => -1
  | .blocked => 0

namespace Serial

variable {s t : Serial}

/-- The permits that are left if every `Wait` has taken one, failed or not. -/
def balance (s : Serial) : Int := (s.posts : Int) - s.nils - s.failed

theorem balance_cons (semaphore : Semaphore) (result : CallResult) :
    balance ⟨semaphore, result :: s.log⟩ = s.balance + result.change := by
  cases result with
  | posted | nil | ctxErr | blocked =>
      simp only [balance, posts, nils, failed, CallResult.change, List.count_cons, beq_iff_eq,
        reduceCtorEq, if_true, if_false]
      omega

/-- The counter has the balance, and nobody is waiting. -/
structure Ok (s : Serial) : Prop where
  counter : s.semaphore.v = s.balance.bmod (2 ^ 64)
  idle : .selecting ∉ s.semaphore.waits

theorem not_selecting {waits : List WaitPhase} {phase : WaitPhase}
    (h : .selecting ∉ waits) (hp : phase ≠ .selecting) : .selecting ∉ waits ++ [phase] := by
  intro hmem
  cases List.mem_append.mp hmem with
  | inl hold => exact h hold
  | inr hnew => exact hp (List.mem_singleton.mp hnew).symm

theorem Ok.step (hok : s.Ok) {c : SerialCall} (h : s.step c = some t) :
    .blocked ∈ t.log ∨ t.Ok := by
  unfold Serial.step at h
  obtain ⟨_, h⟩ := Option.ite_none_left_eq_some.mp h
  obtain ⟨⟨semaphore, result⟩, hcall, rfl⟩ := Option.map_eq_some_iff.mp h
  have hcounter (d : Int) : add s.semaphore.v d = (s.balance + d).bmod (2 ^ 64) := by
    rw [hok.counter, add_bmod]
  cases c with
  | post =>
      rw [call_post hok.idle] at hcall
      cases hcall
      refine Or.inr ⟨?_, hok.idle⟩
      rw [hcounter, balance_cons]
      rfl
  | wait ctxDone =>
      by_cases hv : 0 ≤ add s.semaphore.v (-1)
      · rw [call_wait_acquired ctxDone hv] at hcall
        cases hcall
        refine Or.inr ⟨?_, not_selecting hok.idle WaitPhase.noConfusion⟩
        rw [hcounter, balance_cons]
        rfl
      · have hneg := Int.not_le.mp hv
        cases ctxDone with
        | true =>
            rw [call_wait_failed hneg] at hcall
            cases hcall
            refine Or.inr ⟨?_, not_selecting hok.idle WaitPhase.noConfusion⟩
            rw [hcounter, balance_cons]
            rfl
        | false =>
            rw [call_wait_blocked hneg] at hcall
            cases hcall
            exact Or.inl List.mem_cons_self

theorem Ok.liveWait (hok : s.Ok) :
    (s.liveWait = some .nil ∨ s.liveWait = some .blocked) ∧
    (s.liveWait = some .nil ↔ 0 ≤ (s.balance - 1).bmod (2 ^ 64)) := by
  have hcounter : add s.semaphore.v (-1) = (s.balance - 1).bmod (2 ^ 64) := by
    rw [hok.counter, add_bmod]
    rfl
  rw [← hcounter, Serial.liveWait]
  by_cases hv : 0 ≤ add s.semaphore.v (-1)
  · rw [call_wait_acquired false hv]
    exact ⟨Or.inl rfl, fun _ => hv, fun _ => rfl⟩
  · rw [call_wait_blocked (Int.not_le.mp hv)]
    refine ⟨Or.inr rfl, ?_, fun h => absurd h hv⟩
    intro h
    cases h

theorem counted_le (s : Serial) : s.posts + s.nils + s.failed ≤ s.log.length := by
  unfold posts nils failed
  induction s.log with
  | nil => exact Nat.le_refl 0
  | cons result log ih =>
      cases result with
      | posted | nil | ctxErr | blocked =>
          simp only [List.count_cons, beq_iff_eq, reduceCtorEq, if_true, if_false,
            List.length_cons]
          omega

/-- The sign of the counter is that of the balance as long as it does not wrap around. -/
theorem bmod_nonneg_iff {x : Int} (h₁ : -2 ^ 63 ≤ x) (h₂ : x < 2 ^ 63) :
    0 ≤ x.bmod (2 ^ 64) ↔ 0 ≤ x := by
  rw [Int.bmod_eq_of_le (by omega) (by omega)]

end Serial

/-- The semaphore of serial calls is one that the concurrent model can reach. -/
theorem serialCalls_reachable {h : List Serial}
    (run : serialCalls.Run (fun _ _ => True) h) :
    ∀ s ∈ h, ∃ h', machine.Run (fun _ _ => True) (s.semaphore :: h') := by
  refine run.invariant (I := fun s =>
    ∃ h', machine.Run (fun _ _ => True) (s.semaphore :: h')) ⟨[], .start⟩ ?_
  intro s c t hs _ ht
  obtain ⟨h', run'⟩ := hs
  unfold serialCalls Serial.step at ht
  obtain ⟨_, ht⟩ := Option.ite_none_left_eq_some.mp ht
  obtain ⟨r, hcall, rfl⟩ := Option.map_eq_some_iff.mp ht
  exact run_of_call run' hcall

theorem serialCalls_ok {h : List Serial} (run : serialCalls.Run (fun _ _ => True) h) :
    ∀ s ∈ h, .blocked ∈ s.log ∨ s.Ok := by
  refine run.invariant (I := fun s => .blocked ∈ s.log ∨ s.Ok)
    (Or.inr ⟨rfl, List.not_mem_nil⟩) ?_
  intro s c t hs _ ht
  cases hs with
  | inl hblocked =>
      unfold serialCalls Serial.step at ht
      simp only [hblocked, if_true] at ht
      cases ht
  | inr hok => exact hok.step ht

/-- A `Wait` with a live context returns nil or blocks by the counter, from which failed
`Wait`s have taken as well. It behaves as if these had not been made if and only if there
is no permit anyway, or there is one for it and one for each of them. -/
theorem failed_waits_harmless_iff {h : List Serial}
    (run : serialCalls.Run (fun _ _ => True) h) :
    ∀ s ∈ h, .blocked ∉ s.log →
      (s.liveWait = some .nil ∨ s.liveWait = some .blocked) ∧
      (s.liveWait = some .nil ↔
        0 ≤ ((s.posts : Int) - s.nils - s.failed - 1).bmod (2 ^ 64)) ∧
      (s.log.length < 2 ^ 63 → ((s.liveWait = some .nil ↔ s.nils < s.posts) ↔
        s.posts ≤ s.nils ∨ s.nils + s.failed < s.posts)) := by
  intro s hs hfree
  cases serialCalls_ok run s hs with
  | inl hblocked => exact absurd hblocked hfree
  | inr hok =>
      obtain ⟨hresult, hnil⟩ := hok.liveWait
      refine ⟨hresult, hnil, fun hlen => ?_⟩
      have hcounted := s.counted_le
      have hsign := Serial.bmod_nonneg_iff (x := s.balance - 1)
        (by unfold Serial.balance; omega) (by unfold Serial.balance; omega)
      rw [hnil, hsign]
      unfold Serial.balance
      omega

/-- Two permits, of which a failed `Wait` has none: the first `Wait` of two has one. -/
theorem failed_waits_harmless_iff_spare :
    ∃ h, serialCalls.Run (fun _ _ => True) h ∧
      ∃ s ∈ h, (.blocked ∉ s.log ∧ s.log = [.posted, .posted, .ctxErr]) ∧
        (s.liveWait = some .nil ↔ s.nils < s.posts) := by
  obtain ⟨h, run, s, hs, hend⟩ := serialCalls.exists_run_of_replay (fun _ _ => True)
    [.wait true, .post, .post]
    (fun h => ∃ s ∈ h.head?, .blocked ∉ s.log ∧ s.log = [.posted, .posted, .ctxErr])
    (by decide)
  have hmem : s ∈ h := List.mem_of_mem_head? hs
  obtain ⟨_, _, hiff⟩ := failed_waits_harmless_iff run s hmem hend.1
  have hlog := hend.2
  refine ⟨h, run, s, hmem, hend, (hiff (by rw [hlog]; decide)).mpr (Or.inr ?_)⟩
  rw [Serial.nils, Serial.failed, Serial.posts, hlog]
  decide

/-- A `Wait` fails, a `Post` follows, and the next `Wait` blocks although there has been a
`Post` and no `Wait` has returned nil. -/
theorem failed_wait_takes_permit :
    ∃ h, serialCalls.Run (fun _ _ => True) h ∧
      ∃ s ∈ h, s.log = [.posted, .ctxErr] ∧ s.nils < s.posts ∧
        s.liveWait = some .blocked := by
  obtain ⟨h, run, s, hs, hend⟩ := serialCalls.exists_run_of_replay (fun _ _ => True)
    [.wait true, .post]
    (fun h => ∃ s ∈ h.head?, s.log = [.posted, .ctxErr] ∧ s.nils < s.posts ∧
      s.liveWait = some .blocked)
    (by decide)
  exact ⟨h, run, s, List.mem_of_mem_head? hs, hend⟩

end SemaphoreLab
