import DistributedLabs.Raft.Handlers
import DistributedLabs.Library.History

/-!
A cluster of `n` peers over labrpc. One event is one critical section, one
delivery or one move of a peer's applier loop; the scheduler is free. A request
is handled at most once and its reply reaches only the goroutine that sent it.
A message that is never delivered is lost, one that is delivered late was
delayed or reordered, and a call may report failure at any time.

A peer whose handler panics keeps its memory and takes no further step. A
handler that sends on a full `hasCommittedChan` waits, so its event has to wait
for room. `restart` is a crash between critical sections followed by `Make`;
goroutines of an older incarnation no longer run, but what they sent remains.
-/

namespace RaftLab

variable {n : Nat} {α : Type}

/-- One call of `conductElection`: the request, the shared vote counter and the
RPC to each peer. -/
structure Election (n : Nat) where
  candidate : Fin n
  incarnation : Nat
  request : RequestVoteArgs n
  totalVotes : Nat
  peers : Fin n → Wire RequestVoteReply

/-- A call of `Start` on `server` that has returned. -/
structure StartReturn (n : Nat) (α : Type) where
  server : Fin n
  command : Option α
  index : Int
  term : Int
  isLeader : Bool
  deriving DecidableEq, Repr

structure System (n : Nat) (α : Type) where
  rafts : Fin n → Raft n α
  panicked : Fin n → Bool
  incarnation : Fin n → Nat
  elections : List (Election n)
  appends : List (AppendCall n α)
  starts : List (StartReturn n α)

inductive Event (n : Nat) (α : Type)
  | heartbeatTick (i : Fin n)
  | electionTick (i : Fin n)
  | start (i : Fin n) (command : Option α)
  | requestVote (k : Nat) (peer : Fin n)
  | voteReply (k : Nat) (peer : Fin n)
  | handleAppend (k : Nat)
  | appendEntries (k : Nat)
  | appendReply (k : Nat)
  | callFails (k : Nat)
  | unwind (k : Nat)
  | applyLock (i : Fin n)
  | applyReceive (i : Fin n)
  | applySend (i : Fin n)
  | kill (i : Fin n)
  | restart (i : Fin n)
  deriving DecidableEq, Repr

/-- The capacity `Make` gives `hasCommittedChan`. -/
def committedCapacity : Nat := 1000

/-- The election a candidate starts: one request to every other peer. -/
def conductElection (me : Fin n) (incarnation : Nat) (request : RequestVoteArgs n) :
    Election n where
  candidate := me
  incarnation := incarnation
  request := request
  totalVotes := 1
  peers := fun i => if i = me then .closed else .request

namespace System

def init : System n α where
  rafts := fun _ => Raft.make none
  panicked := fun _ => false
  incarnation := fun _ => 0
  elections := []
  appends := []
  starts := []

def setRaft (s : System n α) (i : Fin n) (rf : Raft n α) : System n α :=
  { s with rafts := Function.update s.rafts i rf }

def panic (s : System n α) (i : Fin n) : System n α :=
  { s with panicked := Function.update s.panicked i true }

def spawn (s : System n α) (calls : List (AppendCall n α)) : System n α :=
  { s with appends := s.appends ++ calls }

def setCall (s : System n α) (k : Nat) (c : AppendCall n α) : System n α :=
  { s with appends := s.appends.set k c }

def setElection (s : System n α) (k : Nat) (el : Election n) : System n α :=
  { s with elections := s.elections.set k el }

@[simp] theorem setRaft_self (s : System n α) (i : Fin n) :
    s.setRaft i (s.rafts i) = s := by
  simp [setRaft]

@[simp] theorem spawn_nil (s : System n α) : s.spawn [] = s := by
  simp [spawn]

/-- The goroutine of the call still runs. -/
def Runs (s : System n α) (c : AppendCall n α) : Prop :=
  s.panicked c.leader = false ∧ s.incarnation c.leader = c.incarnation

instance (s : System n α) (c : AppendCall n α) : Decidable (s.Runs c) :=
  inferInstanceAs (Decidable (_ ∧ _))

def stepHeartbeatTick (s : System n α) (i : Fin n) : Option (System n α) :=
  let rf := s.rafts i
  if s.panicked i = false ∧ rf.dead = false ∧ rf.heartbeatTime = true then
    match rf.heartbeatTick i (s.incarnation i) with
    | none => some (s.panic i)
    | some (rf', calls) => some ((s.setRaft i rf').spawn calls)
  else none

def stepElectionTick (s : System n α) (i : Fin n) : Option (System n α) :=
  let rf := s.rafts i
  if s.panicked i = false ∧ rf.dead = false ∧ rf.electionTime = true then
    match rf.electionTick i with
    | none => some (s.panic i)
    | some (rf', none) => some (s.setRaft i rf')
    | some (rf', some request) =>
        some { s.setRaft i rf' with
          elections := s.elections ++ [conductElection i (s.incarnation i) request] }
  else none

def stepStart (s : System n α) (i : Fin n) (command : Option α) :
    Option (System n α) :=
  if s.panicked i = false then
    match (s.rafts i).start i (s.incarnation i) command with
    | none => some (s.panic i)
    | some (rf', calls, index, term, isLeader) =>
        some { (s.setRaft i rf').spawn calls with
          starts := s.starts ++ [⟨i, command, index, term, isLeader⟩] }
  else none

def stepRequestVote (s : System n α) (k : Nat) (peer : Fin n) : Option (System n α) :=
  match s.elections[k]? with
  | none => none
  | some el =>
      if el.peers peer = .request ∧ s.panicked peer = false then
        match (s.rafts peer).requestVote el.request with
        | none => some (s.panic peer)
        | some (rf', reply) =>
            some ((s.setRaft peer rf').setElection k
              { el with peers := Function.update el.peers peer (.reply reply) })
      else none

def stepVoteReply (s : System n α) (k : Nat) (peer : Fin n) : Option (System n α) :=
  match s.elections[k]? with
  | none => none
  | some el =>
      match el.peers peer with
      | .reply response =>
          if s.panicked el.candidate = false ∧
              s.incarnation el.candidate = el.incarnation then
            match (s.rafts el.candidate).countVote el.candidate
                (s.incarnation el.candidate) el.request el.totalVotes response with
            | none => some (s.panic el.candidate)
            | some (rf', totalVotes, calls) =>
                some (((s.setRaft el.candidate rf').setElection k
                  { el with
                    totalVotes := totalVotes
                    peers := Function.update el.peers peer .closed }).spawn calls)
          else none
      | _ => none

def stepHandleAppend (s : System n α) (k : Nat) : Option (System n α) :=
  match s.appends[k]? with
  | none => none
  | some c =>
      if c.caller = .spawned ∧ s.Runs c then
        let (rf', sends) := (s.rafts c.leader).handleAppendEntries c.args
        some ((s.setRaft c.leader rf').setCall k
          (if sends then { c with caller := .calling, wire := .request }
            else { c with caller := .done }))
      else none

def stepAppendEntries (s : System n α) (k : Nat) : Option (System n α) :=
  match s.appends[k]? with
  | none => none
  | some c =>
      if c.wire = .request ∧ s.panicked c.server = false then
        match (s.rafts c.server).appendEntries c.args with
        | none => some (s.panic c.server)
        | some (rf', response) =>
            if rf'.hasCommittedChan ≤ committedCapacity then
              some ((s.setRaft c.server rf').setCall k { c with wire := .reply response })
            else none
      else none

def stepAppendReply (s : System n α) (k : Nat) : Option (System n α) :=
  match s.appends[k]? with
  | none => none
  | some c =>
      match c.wire with
      | .reply reply =>
          if c.caller = .calling ∧ s.Runs c then
            match (s.rafts c.leader).respAppendEntries c.leader (s.incarnation c.leader)
                c.server c.expectedNextIndex c.args reply with
            | none => some (s.panic c.leader)
            | some (rf', calls) =>
                if rf'.hasCommittedChan ≤ committedCapacity then
                  some (((s.setRaft c.leader rf').setCall k
                    { c with caller := .unwinding, wire := .closed }).spawn calls)
                else none
          else none
      | _ => none

def stepCallFails (s : System n α) (k : Nat) : Option (System n α) :=
  match s.appends[k]? with
  | none => none
  | some c =>
      if c.caller = .calling ∧ s.Runs c then
        some (s.setCall k { c with caller := .unwinding })
      else none

def stepUnwind (s : System n α) (k : Nat) : Option (System n α) :=
  match s.appends[k]? with
  | none => none
  | some c =>
      if c.caller = .unwinding ∧ s.Runs c then
        some ((s.setRaft c.leader (s.rafts c.leader).persist).setCall k
          { c with caller := .done })
      else none

def stepApplyLock (s : System n α) (i : Fin n) : Option (System n α) :=
  match (s.rafts i).applier with
  | .top =>
      if s.panicked i = false ∧ (s.rafts i).dead = false then
        match (s.rafts i).applyLock with
        | none => some (s.panic i)
        | some rf' => some (s.setRaft i rf')
      else none
  | _ => none

def stepApplyReceive (s : System n α) (i : Fin n) : Option (System n α) :=
  match (s.rafts i).applier with
  | .waiting =>
      if s.panicked i = false ∧ 0 < (s.rafts i).hasCommittedChan then
        some (s.setRaft i { s.rafts i with
          hasCommittedChan := (s.rafts i).hasCommittedChan - 1, applier := .top })
      else none
  | _ => none

def stepApplySend (s : System n α) (i : Fin n) : Option (System n α) :=
  match (s.rafts i).applier with
  | .sending entriesToApply =>
      if s.panicked i = false then
        some (s.setRaft i ((s.rafts i).applySend entriesToApply))
      else none
  | _ => none

def stepRestart (s : System n α) (i : Fin n) : Option (System n α) :=
  if s.panicked i = false then
    some { s.setRaft i (Raft.make (s.rafts i).persister) with
      incarnation := Function.update s.incarnation i (s.incarnation i + 1) }
  else none

def step (s : System n α) : Event n α → Option (System n α)
  | .heartbeatTick i => s.stepHeartbeatTick i
  | .electionTick i => s.stepElectionTick i
  | .start i command => s.stepStart i command
  | .requestVote k peer => s.stepRequestVote k peer
  | .voteReply k peer => s.stepVoteReply k peer
  | .handleAppend k => s.stepHandleAppend k
  | .appendEntries k => s.stepAppendEntries k
  | .appendReply k => s.stepAppendReply k
  | .callFails k => s.stepCallFails k
  | .unwind k => s.stepUnwind k
  | .applyLock i => s.stepApplyLock i
  | .applyReceive i => s.stepApplyReceive i
  | .applySend i => s.stepApplySend i
  | .kill i => some (s.setRaft i { s.rafts i with dead := true })
  | .restart i => s.stepRestart i

end System

/-- The cluster as a machine: every peer starts from `Make` with an empty
persister. -/
def cluster (n : Nat) (α : Type) : Machine (System n α) (Event n α) where
  init := System.init
  step := System.step

/-- No peer restarts. -/
def NoRestart (_ : System n α) : Event n α → Prop
  | .restart _ => False
  | _ => True

instance (s : System n α) (e : Event n α) : Decidable (NoRestart s e) :=
  match e with
  | .restart _ => isFalse id
  | .heartbeatTick _ | .electionTick _ | .start _ _ | .requestVote _ _
  | .voteReply _ _ | .handleAppend _ | .appendEntries _ | .appendReply _
  | .callFails _ | .unwind _ | .applyLock _ | .applyReceive _ | .applySend _
  | .kill _ => isTrue trivial

/-- The schedule in which peer 0 of three wins term 1 with the vote of peer 1. -/
def firstElection : List (Event 3 Nat) :=
  [.electionTick 0, .requestVote 0 1, .voteReply 0 1]

end RaftLab
