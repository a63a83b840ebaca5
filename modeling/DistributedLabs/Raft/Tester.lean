import DistributedLabs.Raft.Applier
import DistributedLabs.Library.GoMap

/-!
The test harness of the cluster (config.go). Every incarnation of a server has an applier
goroutine of the harness that reads its channel and compares the messages with the copies
of the other servers' logs. The goroutine of the test calls `one` and `checkOneLeader`,
which look at the servers one after the other while the cluster and the appliers go on.

The peers, the appliers and the test are one process: a panic of a peer and `log.Fatalf`
end it, and `t.Fatalf` ends the test's goroutine. Timeouts are left to the scheduler. A
restart is one step, `crash1` and `start1` together.
-/

namespace RaftLab

variable {n : Nat} {α : Type}

/-- `GetState`. -/
def Raft.getState (rf : Raft n α) : Int × Bool := (rf.currentTerm, rf.state == .leader)

/-- What an applier makes of an entry of the log. -/
def LogEntry.message (e : LogEntry α) : ApplyMsg α := ⟨true, e.command, e.index, e.term⟩

/-- All that a peer puts on its channel once its applier has finished its batch. -/
def Raft.outbox (rf : Raft n α) : List (ApplyMsg α) :=
  rf.applyCh ++ rf.pending.map LogEntry.message

/-- The two errors of an applier: `commit index=%v server=%v %v != server=%v %v` and
`server %v apply out of order %v`. -/
inductive ApplyErr (n : Nat) (α : Type)
  | commit (index : Int) (server : Fin n) (command : Option α) (other : Fin n)
      (old : Option α)
  | outOfOrder (server : Fin n) (index : Int)
  deriving DecidableEq, Repr

/-- The copies of the servers' logs and the highest index in them. -/
structure Tester (n : Nat) (α : Type) where
  logs : Fin n → Int → Option (Option α)
  maxIndex : Int

namespace Tester

/-- The copy of one server's log after a message, as `logs[i][index] = v`. -/
def record (logs : Fin n → Int → Option (Option α)) (i : Fin n) (m : ApplyMsg α) :
    Fin n → Int → Option (Option α) :=
  Function.update logs i (Function.update (logs i) m.commandIndex (some m.command))

variable [DecidableEq α]

/-- One turn of the loop of `checkLogs`: a server that holds another command is reported,
and a later one replaces an earlier one. -/
def compare (cfg : Tester n α) (i : Fin n) (m : ApplyMsg α)
    (err_msg : Option (ApplyErr n α)) (j : Fin n) : Option (ApplyErr n α) :=
  match cfg.logs j m.commandIndex with
  | some old =>
      if old ≠ m.command then some (.commit m.commandIndex i m.command j old) else err_msg
  | none => err_msg

def checkLogs (cfg : Tester n α) (i : Fin n) (m : ApplyMsg α) :
    Tester n α × Option (ApplyErr n α) × Bool :=
  ({ logs := record cfg.logs i m
     maxIndex := if m.commandIndex > cfg.maxIndex then m.commandIndex else cfg.maxIndex },
    (List.finRange n).foldl (cfg.compare i m) none,
    (cfg.logs i (m.commandIndex - 1)).isSome)

/-- The body of the loop of `applier`, up to the call of `log.Fatalf`. -/
def applier (cfg : Tester n α) (i : Fin n) (m : ApplyMsg α) :
    Tester n α × Option (ApplyErr n α) :=
  if m.commandValid = false then (cfg, none)
  else
    let (cfg', err_msg, prevok) := cfg.checkLogs i m
    (cfg', if m.commandIndex > 1 ∧ prevok = false then some (.outOfOrder i m.commandIndex)
      else err_msg)

end Tester

/-- An applier goroutine of the harness. It reads the channel of an incarnation of
`server`; `old` is all that a replaced incarnation has put there. -/
structure Reader (n : Nat) (α : Type) where
  server : Fin n
  old : Option (List (ApplyMsg α))
  taken : Nat
  err_msg : Option (ApplyErr n α)

/-- Where a call of `one` stands: at the test of its outer loop, before it tries the next
server, at the test of its inner loop, or in `nCommitted` before it reads the copy of
server `i`. It fails with `one(%v) failed to reach agreement` or, in `nCommitted`, with
`committed values do not match: index %v, %v, %v`. -/
inductive OnePos (α : Type)
  | top (starts : Nat)
  | choosing (starts si : Nat)
  | polling (starts : Nat) (index : Int)
  | counting (starts : Nat) (index : Int) (i count : Nat) (cmd : Option α)
  | returned (index : Int)
  | failed
  | unmatched (index : Int) (cmd cmd1 : Option α)
  deriving DecidableEq, Repr

/-- A call of `one` that began when `began` calls of `Start` had returned. -/
structure OneCall (α : Type) where
  cmd : Option α
  expectedServers : Int
  retry : Bool
  began : Nat
  pos : OnePos α
  deriving DecidableEq

/-- Where a call of `checkOneLeader` stands: before a round, before it reads the state of
server `i`, or at its end. It fails with `term %d has %d (>1) leaders` or with
`expected one leader, got none`, and panics if no leader has the last term. -/
inductive LeaderPos (n : Nat)
  | top (iters : Nat)
  | reading (iters i : Nat) (leaders : GoMap Int (List (Fin n)))
  | returned (leader : Fin n) (leaders : GoMap Int (List (Fin n)))
  | tooMany (term : Int) (count : Nat)
  | noLeader
  | panicked
  deriving DecidableEq

inductive TestCall (n : Nat) (α : Type)
  | one (c : OneCall α)
  | checkOneLeader (pos : LeaderPos n)
  deriving DecidableEq

/-- The harness with its cluster. `received` lists what the appliers have taken, newest
first. -/
structure Harness (n : Nat) (α : Type) where
  sys : System n α
  cfg : Tester n α
  connected : Fin n → Bool
  readers : List (Reader n α)
  received : List (Fin n × ApplyMsg α)
  test : Option (TestCall n α)
  exited : Option (ApplyErr n α)

/-- `take` is one turn of an applier and `fatal` its call of `log.Fatalf`. A step of the
test finds its time up or not; at the end of a round of `checkOneLeader` it ranges over
the map in some order. -/
inductive HarnessEvent (n : Nat) (α : Type)
  | cluster (e : Event n α)
  | connect (i : Fin n)
  | disconnect (i : Fin n)
  | take (k : Nat)
  | fatal (k : Nat)
  | one (cmd : Option α) (expectedServers : Int) (retry : Bool)
  | checkOneLeader
  | test (timeUp : Bool) (order : List (Int × List (Fin n)))

/-- The loop of `checkOneLeader` over the terms with their leaders. -/
def lastTermWithLeader : Int → List (Int × List (Fin n)) → Except (Int × Nat) Int
  | last, [] => .ok last
  | last, (term, leaders) :: rest =>
      if leaders.length > 1 then .error (term, leaders.length)
      else lastTermWithLeader (if term > last then term else last) rest

namespace Harness

variable (s : Harness n α)

def init : Harness n α where
  sys := System.init
  cfg := ⟨fun _ _ => none, 0⟩
  connected := fun _ => true
  readers := (List.finRange n).map fun i => ⟨i, none, 0, none⟩
  received := []
  test := none
  exited := none

/-- What is on the channel that an applier reads. -/
def chan (r : Reader n α) : List (ApplyMsg α) := r.old.getD (s.sys.rafts r.server).applyCh

/-- `start1` disconnects the server and gives the new incarnation a channel and an applier
of its own. The incarnation that it replaces finishes its batch on the old channel and does
nothing more; in config.go it could still handle a request that was under way, and apply
what that commits. -/
def start1 (i : Fin n) (sys' : System n α) : Harness n α :=
  { s with
    sys := sys'
    connected := Function.update s.connected i false
    readers := s.readers.map (fun r =>
      if r.server = i ∧ r.old = none then { r with old := some (s.sys.rafts i).outbox }
      else r) ++ [⟨i, none, 0, none⟩] }

def stepCluster (e : Event n α) : Option (Harness n α) :=
  (s.sys.step e).map fun sys' =>
    match e with
    | .restart i => s.start1 i sys'
    | _ => { s with sys := sys' }

/-- A call of `Start` by `one`, and its next position. -/
def stepStart (c : OneCall α) (i : Fin n) (si : Nat) : Option (Harness n α) :=
  (s.sys.step (.start i c.cmd)).map fun sys' =>
    match sys'.starts[s.sys.starts.length]? with
    | none => { s with sys := sys' }
    | some r => { s with
        sys := sys'
        test := some (.one { c with
          pos := if r.isLeader then
              if r.index ≠ -1 then .polling i r.index else .top i
            else .choosing i (si + 1) }) }

def tryServer (c : OneCall α) (i : Fin n) (si : Nat) : Option (Harness n α) :=
  if s.connected i then s.stepStart c i si
  else some { s with test := some (.one { c with pos := .choosing i (si + 1) }) }

/-- The servers are tried in turn, from the one after the last that was tried. -/
def stepChoosing (c : OneCall α) (starts si : Nat) : Option (Harness n α) :=
  if h : si < n then s.tryServer c ⟨(starts + 1) % n, Nat.mod_lt _ (Nat.zero_lt_of_lt h)⟩ si
  else some { s with test := some (.one { c with pos := .top starts }) }

variable [DecidableEq α]

def stepTake (k : Nat) : Option (Harness n α) :=
  match s.readers[k]? with
  | none => none
  | some r =>
      if r.err_msg = none then
        (s.chan r)[r.taken]?.map fun m =>
          let (cfg', err_msg) := s.cfg.applier r.server m
          { s with
            cfg := cfg'
            readers := s.readers.set k { r with taken := r.taken + 1, err_msg := err_msg }
            received := (r.server, m) :: s.received }
      else none

/-- A turn of the loop of `nCommitted`, and after it the test of its result in `one`. -/
def counted (c : OneCall α) (starts : Nat) (index : Int) (i count : Nat) (cmd : Option α) :
    OnePos α :=
  if h : i < n then
    match s.cfg.logs ⟨i, h⟩ index with
    | none => .counting starts index (i + 1) count cmd
    | some cmd1 =>
        if count > 0 ∧ cmd ≠ cmd1 then .unmatched index cmd cmd1
        else .counting starts index (i + 1) (count + 1) cmd1
  else if count > 0 ∧ c.expectedServers ≤ count ∧ cmd = c.cmd then .returned index
  else .polling starts index

def stepOne (c : OneCall α) (timeUp : Bool) : Option (Harness n α) :=
  match c.pos with
  | .top starts => some { s with
      test := some (.one { c with pos := if timeUp then .failed else .choosing starts 0 }) }
  | .choosing starts si => s.stepChoosing c starts si
  | .polling starts index => some { s with
      test := some (.one { c with
        pos := if timeUp then
            if c.retry then .top starts else .failed
          else .counting starts index 0 0 none }) }
  | .counting starts index i count cmd => some { s with
      test := some (.one { c with pos := s.counted c starts index i count cmd }) }
  | .returned _ | .failed | .unmatched _ _ _ => none

/-- The end of a round of `checkOneLeader`. -/
def judge (iters : Nat) (leaders : GoMap Int (List (Fin n)))
    (order : List (Int × List (Fin n))) : LeaderPos n :=
  match lastTermWithLeader (-1) order with
  | .error (term, count) => .tooMany term count
  | .ok last =>
      if leaders.keys.length ≠ 0 then
        match (leaders.lookup last).bind List.head? with
        | none => .panicked
        | some leader => .returned leader leaders
      else .top (iters + 1)

def stepLeader (order : List (Int × List (Fin n))) : LeaderPos n → Option (LeaderPos n)
  | .top iters => some (if iters < 10 then .reading iters 0 ∅ else .noLeader)
  | .reading iters i leaders =>
      if h : i < n then
        let (term, leader) := (s.sys.rafts ⟨i, h⟩).getState
        some (.reading iters (i + 1)
          (if s.connected ⟨i, h⟩ ∧ leader then
            leaders.insert term ((leaders.lookup term).getD [] ++ [⟨i, h⟩])
          else leaders))
      else if order.Perm (GoMap.items leaders) then some (judge iters leaders order)
      else none
  | .returned _ _ | .tooMany _ _ | .noLeader | .panicked => none

/-- The test's goroutine is between two calls. -/
def idle : Bool :=
  match s.test with
  | none => true
  | some (.one c) =>
      match c.pos with
      | .returned _ => true
      | _ => false
  | some (.checkOneLeader pos) =>
      match pos with
      | .returned _ _ => true
      | _ => false

def stepTest (timeUp : Bool) (order : List (Int × List (Fin n))) : Option (Harness n α) :=
  match s.test with
  | none => none
  | some (.one c) => s.stepOne c timeUp
  | some (.checkOneLeader pos) =>
      (s.stepLeader order pos).map fun pos' =>
        { s with test := some (.checkOneLeader pos') }

def step (e : HarnessEvent n α) : Option (Harness n α) :=
  if s.exited.isSome || (List.finRange n).any s.sys.panicked then none
  else
    match e with
    | .cluster e => s.stepCluster e
    | .connect i => some { s with connected := Function.update s.connected i true }
    | .disconnect i => some { s with connected := Function.update s.connected i false }
    | .take k => s.stepTake k
    | .fatal k =>
        (s.readers[k]?.bind Reader.err_msg).map fun err => { s with exited := some err }
    | .one cmd expectedServers retry =>
        if s.idle then
          some { s with test := some (.one
            ⟨cmd, expectedServers, retry, s.sys.starts.length, .top 0⟩) }
        else none
    | .checkOneLeader =>
        if s.idle then some { s with test := some (.checkOneLeader (.top 0)) } else none
    | .test timeUp order => s.stepTest timeUp order

end Harness

/-- The position says nothing about the cluster. -/
def OnePos.Free : OnePos α → Prop
  | .polling _ _ | .counting _ _ _ _ _ | .returned _ => False
  | _ => True

namespace Harness

variable (s : Harness n α)

/-- The moves of `one` that do not call `Start`. -/
inductive OneMove (c : OneCall α) : OnePos α → Prop
  | free {pos : OnePos α} : pos.Free → OneMove c pos
  | poll {starts : Nat} {index : Int} : c.pos = .polling starts index →
      OneMove c (.counting starts index 0 0 none)
  | skip {starts : Nat} {index : Int} {i count : Nat} {cmd : Option α} :
      c.pos = .counting starts index i count cmd →
        OneMove c (.counting starts index (i + 1) count cmd)
  | count {starts : Nat} {index : Int} {i count : Nat} {cmd cmd1 : Option α} (h : i < n) :
      c.pos = .counting starts index i count cmd → s.cfg.logs ⟨i, h⟩ index = some cmd1 →
        (count > 0 → cmd = cmd1) →
        OneMove c (.counting starts index (i + 1) (count + 1) cmd1)
  | again {starts : Nat} {index : Int} {i count : Nat} {cmd : Option α} :
      c.pos = .counting starts index i count cmd → OneMove c (.polling starts index)
  | finish {starts : Nat} {index : Int} {i count : Nat} :
      c.pos = .counting starts index i count c.cmd → count > 0 →
        c.expectedServers ≤ count → OneMove c (.returned index)

/-- Where `one` goes after a call of `Start`. -/
inductive StartMove (sys' : System n α) (c : OneCall α) : TestCall n α → Prop
  | panic : StartMove sys' c (.one c)
  | free {pos : OnePos α} : pos.Free → StartMove sys' c (.one { c with pos })
  | poll {r : StartReturn n α} {starts : Nat} :
      sys'.starts[s.sys.starts.length]? = some r → r.isLeader = true →
        StartMove sys' c (.one { c with pos := .polling starts r.index })

variable [DecidableEq α]

/-- What a step needs and what it leads to. -/
inductive Step : HarnessEvent n α → Harness n α → Prop
  | cluster {e : Event n α} {sys' : System n α} (hs : s.sys.step e = some sys')
      (hr : ∀ i, e ≠ .restart i) : Step (.cluster e) { s with sys := sys' }
  | start1 {i : Fin n} {sys' : System n α} (hs : s.sys.step (.restart i) = some sys') :
      Step (.cluster (.restart i)) (s.start1 i sys')
  | connect {e : HarnessEvent n α} (connected : Fin n → Bool) :
      Step e { s with connected }
  | take {k : Nat} {r : Reader n α} {m : ApplyMsg α} (hk : s.readers[k]? = some r)
      (herr : r.err_msg = none) (hm : (s.chan r)[r.taken]? = some m) :
      Step (.take k) { s with
        cfg := (s.cfg.applier r.server m).1
        readers := s.readers.set k
          { r with taken := r.taken + 1, err_msg := (s.cfg.applier r.server m).2 }
        received := (r.server, m) :: s.received }
  | fatal {k : Nat} {r : Reader n α} {err : ApplyErr n α} (hk : s.readers[k]? = some r)
      (herr : r.err_msg = some err) : Step (.fatal k) { s with exited := some err }
  | callOne (cmd : Option α) (expectedServers : Int) (retry : Bool) :
      Step (.one cmd expectedServers retry) { s with test := some (.one
        ⟨cmd, expectedServers, retry, s.sys.starts.length, .top 0⟩) }
  | callLeader : Step .checkOneLeader { s with test := some (.checkOneLeader (.top 0)) }
  | one {timeUp : Bool} {order : List (Int × List (Fin n))} {c : OneCall α}
      {pos : OnePos α} (hc : s.test = some (.one c)) (hm : s.OneMove c pos) :
      Step (.test timeUp order) { s with test := some (.one { c with pos }) }
  | start {timeUp : Bool} {order : List (Int × List (Fin n))} {c : OneCall α} {i : Fin n}
      {sys' : System n α} {test' : TestCall n α} (hc : s.test = some (.one c))
      (hs : s.sys.step (.start i c.cmd) = some sys') (hm : s.StartMove sys' c test') :
      Step (.test timeUp order) { s with sys := sys', test := some test' }
  | leader {timeUp : Bool} {order : List (Int × List (Fin n))} {pos pos' : LeaderPos n}
      (hc : s.test = some (.checkOneLeader pos)) (hm : s.stepLeader order pos = some pos') :
      Step (.test timeUp order) { s with test := some (.checkOneLeader pos') }

variable {s} {s' : Harness n α}

theorem counted_move {c : OneCall α} {starts : Nat} {index : Int} {i count : Nat}
    {cmd : Option α} (hpos : c.pos = .counting starts index i count cmd) :
    s.OneMove c (s.counted c starts index i count cmd) := by
  unfold counted
  split
  · rename_i hi
    split
    · exact .skip hpos
    · rename_i cmd1 hlog
      split
      · exact .free trivial
      · rename_i hcmd
        refine .count hi hpos hlog ?_
        intro hcount
        exact Decidable.byContradiction fun hne => hcmd ⟨hcount, hne⟩
  · split
    · rename_i hdone
      obtain ⟨hcount, hexpected, rfl⟩ := hdone
      exact .finish hpos hcount hexpected
    · exact .again hpos

theorem stepStart_cases {c : OneCall α} {i : Fin n} {si : Nat} {timeUp : Bool}
    {order : List (Int × List (Fin n))} (hc : s.test = some (.one c))
    (h : s.stepStart c i si = some s') : s.Step (.test timeUp order) s' := by
  obtain ⟨sys', hs, rfl⟩ := Option.map_eq_some_iff.mp h
  cases hr : sys'.starts[s.sys.starts.length]? with
  | none =>
      have hstep : s.Step (.test timeUp order) { s with sys := sys', test := some (.one c) } :=
        .start hc hs .panic
      rw [← hc] at hstep
      exact hstep
  | some r =>
      refine .start hc hs ?_
      cases hleader : r.isLeader with
      | false => exact .free trivial
      | true =>
          by_cases hindex : r.index ≠ -1
          · rw [if_pos rfl, if_pos hindex]
            exact .poll hr hleader
          · rw [if_pos rfl, if_neg hindex]
            exact .free trivial

theorem stepOne_cases {c : OneCall α} {timeUp : Bool} {order : List (Int × List (Fin n))}
    (hc : s.test = some (.one c)) (h : s.stepOne c timeUp = some s') :
    s.Step (.test timeUp order) s' := by
  unfold stepOne at h
  split at h
  · cases h
    refine .one hc ?_
    cases timeUp <;> exact .free trivial
  · unfold stepChoosing at h
    split at h
    · unfold tryServer at h
      split at h
      · exact stepStart_cases hc h
      · cases h
        exact .one hc (.free trivial)
    · cases h
      exact .one hc (.free trivial)
  · rename_i starts index hpos
    cases h
    refine .one hc ?_
    cases timeUp with
    | false => exact .poll hpos
    | true =>
        cases c.retry with
        | false => exact .free trivial
        | true => exact .free trivial
  · rename_i starts index i count cmd hpos
    cases h
    exact .one hc (counted_move hpos)
  all_goals cases h

theorem step_cases {e : HarnessEvent n α} (h : s.step e = some s') : s.Step e s' := by
  unfold step at h
  split at h
  · cases h
  · cases e with
    | cluster e =>
        obtain ⟨sys', hs, rfl⟩ := Option.map_eq_some_iff.mp h
        cases e with
        | restart i => exact .start1 hs
        | heartbeatTick _ | electionTick _ | start _ _ | requestVote _ _ | voteReply _ _
        | handleAppend _ | appendEntries _ | appendReply _ | callFails _ | unwind _
        | applyLock _ | applyReceive _ | applySend _ | kill _ =>
            exact .cluster hs (by simp)
    | connect i =>
        cases h
        exact .connect _
    | disconnect i =>
        cases h
        exact .connect _
    | take k =>
        simp only [stepTake] at h
        split at h
        · cases h
        · rename_i r hk
          split at h
          · rename_i herr
            obtain ⟨m, hm, rfl⟩ := Option.map_eq_some_iff.mp h
            exact .take hk herr hm
          · cases h
    | fatal k =>
        obtain ⟨err, herr, rfl⟩ := Option.map_eq_some_iff.mp h
        obtain ⟨r, hk, herr⟩ := Option.bind_eq_some_iff.mp herr
        exact .fatal hk herr
    | one cmd expectedServers retry =>
        simp only at h
        split at h
        · cases h
          exact .callOne cmd expectedServers retry
        · cases h
    | checkOneLeader =>
        simp only at h
        split at h
        · cases h
          exact .callLeader
        · cases h
    | test timeUp order =>
        simp only [stepTest] at h
        split at h
        · cases h
        · rename_i c hc
          exact stepOne_cases hc h
        · rename_i pos hc
          obtain ⟨pos', hm, rfl⟩ := Option.map_eq_some_iff.mp h
          exact .leader hc hm

end Harness

def harness (n : Nat) (α : Type) [DecidableEq α] :
    Machine (Harness n α) (HarnessEvent n α) where
  init := Harness.init
  step := fun s e => s.step e

end RaftLab
