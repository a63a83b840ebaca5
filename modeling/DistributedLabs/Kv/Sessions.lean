import DistributedLabs.Kv.Refinement

/-!
Any number of clients over a fixed shard map, whose calls overlap and whose requests fail. A
request that the client has given up on may still reach its server, once and at any later
time, also after the call has returned. The writes that the servers carried out are recorded
in their order.
-/

namespace KvLab

open GoTime

/-- One call of `Get`, `Set` or `Delete`. The nodes that it has given up on and whose request
may still arrive are lingering; a call that has returned has its time and its outcome. -/
structure Session where
  op : Op
  began : Int
  phase : CallPhase
  lingering : List GoString
  returned : Option (Int × Outcome)
  deriving DecidableEq

def Session.Lingers (c : Session) (node : GoString) : Prop := node ∈ c.lingering

instance (c : Session) (node : GoString) : Decidable (c.Lingers node) :=
  inferInstanceAs (Decidable (node ∈ c.lingering))

/-- A write that a server has carried out. -/
structure Applied where
  call : Nat
  node : GoString
  time : Int
  deriving DecidableEq

/-- The calls in the order of their start, and the writes, newest first. -/
structure Sessions where
  servers : GoString → KvServerImpl
  now : Int
  calls : List Session
  applied : List Applied
  panicked : Bool

inductive SessionEvent where
  | tick (now : Int)
  | clean (node : GoString) (shard : Int)
  | call (op : Op) (startIndex : Nat)
  | serve (k : Nat) (node : GoString)
  | fail (k : Nat) (node : GoString) (err : CallErr) (sent : Bool)
  | late (k : Nat) (node : GoString)
  | finish (k : Nat)

namespace Sessions

variable (s : Sessions)

def setServer (node : GoString) (server : KvServerImpl) : Sessions :=
  { s with servers := Function.update s.servers node server }

def setCall (k : Nat) (c : Session) : Sessions := { s with calls := s.calls.set k c }

/-- The server of a node handles the request of a call. -/
def handle (sm : ShardMapState) (k : Nat) (c : Session) (node : GoString) :
    Option (Sessions × Reply Response) :=
  ((s.servers node).serve sm.numShards s.now (fun _ => (s.now, s.now)) c.op.request).map
    fun r =>
      ({ s.setServer node r.1 with
        applied := if c.op.isWrite = true ∧ r.2.err = none then ⟨k, node, s.now⟩ :: s.applied
          else s.applied }, r.2)

def stepCall (sm : ShardMapState) (k : Nat) (c : Session) : SessionEvent → Option Sessions
  | .serve _ node =>
      if c.returned = none ∧ c.phase.Awaits node then
        match s.handle sm k c node with
        | none => some { s with panicked := true }
        | some (t, reply) =>
            some (t.setCall k { c with phase := c.phase.onAnswer node reply.answer })
      else none
  | .fail _ node err sent =>
      if c.returned = none ∧ c.phase.Awaits node then
        some (s.setCall k { c with
          phase := c.phase.onAnswer node (.error err)
          lingering := if sent then node :: c.lingering else c.lingering })
      else none
  | .late _ node =>
      if c.Lingers node then
        match s.handle sm k c node with
        | none => some { s with panicked := true }
        | some (t, _) => some (t.setCall k { c with lingering := c.lingering.erase node })
      else none
  | .finish _ =>
      if c.returned = none then
        c.phase.result.map fun outcome =>
          s.setCall k { c with returned := some (s.now, outcome) }
      else none
  | .tick _ | .clean _ _ | .call _ _ => none

def step (sm : ShardMapState) (e : SessionEvent) : Option Sessions :=
  if s.panicked then none
  else
    match e with
    | .tick now => if s.now ≤ now then some { s with now } else none
    | .clean node shard => ((s.servers node).clean shard s.now).map (s.setServer node)
    | .call op startIndex => (op.start sm startIndex).map fun
        | .error _ => { s with panicked := true }
        | .ok phase => { s with calls := s.calls ++ [⟨op, s.now, phase, [], none⟩] }
    | .serve k _ | .fail k _ _ _ | .late k _ | .finish k =>
        match s.calls[k]? with
        | none => none
        | some c => s.stepCall sm k c e

/-- What a step needs and what it leads to. -/
inductive Step (sm : ShardMapState) : Sessions → Prop
  | panic : Step sm { s with panicked := true }
  | tick {now : Int} (hn : s.now ≤ now) : Step sm { s with now }
  | clean {node : GoString} {shard : Int} {server : KvServerImpl}
      (hc : (s.servers node).clean shard s.now = some server) :
      Step sm (s.setServer node server)
  | call {op : Op} {startIndex : Nat} {phase : CallPhase}
      (hs : op.start sm startIndex = some (.ok phase)) :
      Step sm { s with calls := s.calls ++ [⟨op, s.now, phase, [], none⟩] }
  | serve {k : Nat} {c : Session} {node : GoString} {t : Sessions} {reply : Reply Response}
      (hk : s.calls[k]? = some c) (hr : c.returned = none) (ha : c.phase.Awaits node)
      (hh : s.handle sm k c node = some (t, reply)) :
      Step sm (t.setCall k { c with phase := c.phase.onAnswer node reply.answer })
  | fail {k : Nat} {c : Session} {node : GoString} (err : CallErr) (sent : Bool)
      (hk : s.calls[k]? = some c) (hr : c.returned = none) (ha : c.phase.Awaits node) :
      Step sm (s.setCall k { c with
        phase := c.phase.onAnswer node (.error err)
        lingering := if sent then node :: c.lingering else c.lingering })
  | late {k : Nat} {c : Session} {node : GoString} {t : Sessions} {reply : Reply Response}
      (hk : s.calls[k]? = some c) (hl : c.Lingers node)
      (hh : s.handle sm k c node = some (t, reply)) :
      Step sm (t.setCall k { c with lingering := c.lingering.erase node })
  | finish {k : Nat} {c : Session} {outcome : Outcome} (hk : s.calls[k]? = some c)
      (hr : c.returned = none) (ho : c.phase.result = some outcome) :
      Step sm (s.setCall k { c with returned := some (s.now, outcome) })

theorem stepCall_cases {sm : ShardMapState} {k : Nat} {c : Session} {e : SessionEvent}
    {t : Sessions} (hk : s.calls[k]? = some c) (h : s.stepCall sm k c e = some t) :
    Step s sm t := by
  cases e with
  | serve _ node =>
      simp only [stepCall] at h
      split at h
      · rename_i hg
        cases hh : s.handle sm k c node with
        | none =>
            rw [hh] at h
            cases h
            exact .panic
        | some r =>
            rw [hh] at h
            cases h
            exact .serve hk hg.1 hg.2 hh
      · cases h
  | fail _ node err sent =>
      simp only [stepCall] at h
      split at h
      · rename_i hg
        cases h
        exact .fail err sent hk hg.1 hg.2
      · cases h
  | late _ node =>
      simp only [stepCall] at h
      split at h
      · rename_i hl
        cases hh : s.handle sm k c node with
        | none =>
            rw [hh] at h
            cases h
            exact .panic
        | some r =>
            rw [hh] at h
            cases h
            exact .late hk hl hh
      · cases h
  | finish _ =>
      simp only [stepCall] at h
      split at h
      · rename_i hr
        obtain ⟨outcome, ho, rfl⟩ := Option.map_eq_some_iff.mp h
        exact .finish hk hr ho
      · cases h
  | tick _ | clean _ _ | call _ _ => cases h

theorem step_cases {sm : ShardMapState} {e : SessionEvent} {t : Sessions}
    (h : s.step sm e = some t) : Step s sm t := by
  unfold step at h
  split at h
  · cases h
  · split at h
    · split at h
      · cases h
        exact .tick ‹_›
      · cases h
    · obtain ⟨server, hc, rfl⟩ := Option.map_eq_some_iff.mp h
      exact .clean hc
    · obtain ⟨r, hr, rfl⟩ := Option.map_eq_some_iff.mp h
      cases r with
      | error panic => exact .panic
      | ok phase => exact .call hr
    all_goals
      split at h
      · cases h
      · exact s.stepCall_cases ‹_› h

end Sessions

/-- The clients and the servers as one machine. -/
def sessions (sm : ShardMapState) (servers : GoString → KvServerImpl) (now : Int) :
    Machine Sessions SessionEvent where
  init := ⟨servers, now, [], [], false⟩
  step s e := s.step sm e

end KvLab
