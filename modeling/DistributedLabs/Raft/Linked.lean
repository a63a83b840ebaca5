import DistributedLabs.Raft.System
import DistributedLabs.Rpc.Network

/-!
A cluster of peers over the simulated network, as `make_config` sets it up: a goroutine
holds the number of its call, a handler runs on the peer behind the server that the network
routed the call to, with the arguments that the call carries, and a goroutine goes on with
what its call returns. Peers may be disconnected and connected, servers deleted, and the
network made unreliable at any time; no peer is restarted.

What a message encodes is kept and not its bytes. The names of the ends are random; they
are taken to be distinct.
-/

namespace RaftLab

open LabRpc (Method Service Server makeService makeServer)

/-- What the arguments and replies of the two handlers decode to. -/
inductive Message (n : Nat) (α : Type)
  | voteArgs (args : RequestVoteArgs n)
  | voteReply (reply : RequestVoteReply)
  | appendArgs (args : AppendEntriesArgs n α)
  | appendReply (reply : AppendEntriesReply)
  deriving DecidableEq, Repr

/-- The end `cfg.endnames[i][j]` of peer `i` to peer `j`. -/
abbrev EndName (n : Nat) := Fin n × Fin n

abbrev Rpc (n : Nat) (α : Type) := LabRpc.State (EndName n) (Fin n) (Message n α)

def appendEntriesMethod : List Char := "Raft.AppendEntries".toList

def requestVoteMethod : List Char := "Raft.RequestVote".toList

/-- The exported methods of `*Raft`, the receiver counted among the inputs. -/
def raftMethods : List Method :=
  [⟨"AppendEntries".toList, [], 3, true, 0⟩, ⟨"GetState".toList, [], 1, false, 2⟩,
    ⟨"Kill".toList, [], 1, false, 0⟩, ⟨"RequestVote".toList, [], 3, true, 0⟩,
    ⟨"Start".toList, [], 2, false, 3⟩]

def raftService : Service := makeService "Raft".toList raftMethods

/-- The server that `start1` makes for a peer. -/
def raftServer : Server := makeServer.addService raftService

/-- The network after `make_config`: every end exists, leads to the server of its peer and
is enabled. -/
def configNetwork (n : Nat) (α : Type) (unreliable : Bool) : Rpc n α where
  net :=
    { (LabRpc.makeNetwork : LabRpc.Network (EndName n) (Fin n)) with
      reliable := !unreliable
      longDelays := true
      ends := fun _ => true
      enabled := fun _ => true
      servers := fun j => some j
      connections := fun e => some e.2 }
  heap := List.replicate n raftServer
  calls := []
  exited := false

variable {n : Nat} {α : Type}

/-- Where the goroutine of `conductElection` for one peer stands; none runs for the
candidate itself. -/
inductive Voter
  | self
  | spawned
  | calling (k : Nat)
  | done (k : Nat)
  deriving DecidableEq, Repr

/-- One call of `conductElection`. -/
structure LinkedElection (n : Nat) where
  candidate : Fin n
  request : RequestVoteArgs n
  totalVotes : Nat
  peers : Fin n → Voter

/-- One goroutine of `handleAppendEntries`, with the number of its call. -/
structure LinkedAppend (n : Nat) (α : Type) where
  leader : Fin n
  server : Fin n
  expectedNextIndex : Int
  args : AppendEntriesArgs n α
  caller : Caller
  call : Option Nat
  deriving DecidableEq, Repr

def LinkedAppend.of (c : AppendCall n α) : LinkedAppend n α where
  leader := c.leader
  server := c.server
  expectedNextIndex := c.expectedNextIndex
  args := c.args
  caller := .spawned
  call := none

structure Linked (n : Nat) (α : Type) where
  rafts : Fin n → Raft n α
  panicked : Fin n → Bool
  elections : List (LinkedElection n)
  appends : List (LinkedAppend n α)
  starts : List (StartReturn n α)
  rpc : Rpc n α

inductive LinkedEvent (n : Nat) (α : Type)
  | heartbeatTick (i : Fin n)
  | electionTick (i : Fin n)
  | start (i : Fin n) (command : Option α)
  | applyLock (i : Fin n)
  | applyReceive (i : Fin n)
  | applySend (i : Fin n)
  | kill (i : Fin n)
  | handleAppend (k : Nat)
  | callVote (k : Nat) (peer : Fin n)
  | serve (k : Nat)
  | appendReturns (k : Nat)
  | voteReturns (k : Nat) (peer : Fin n)
  | unwind (k : Nat)
  | network (e : LabRpc.Event (EndName n) (Fin n) (Message n α))
  deriving DecidableEq, Repr

/-- The method that `Service.dispatch` calls, on the decoded arguments. -/
def Raft.invoke (rf : Raft n α) (svcMeth : List Char) :
    Message n α → Option (Raft n α × Message n α)
  | .appendArgs args =>
      if svcMeth = appendEntriesMethod then
        (rf.appendEntries args).map fun r => (r.1, .appendReply r.2)
      else none
  | .voteArgs args =>
      if svcMeth = requestVoteMethod then
        (rf.requestVote args).map fun r => (r.1, .voteReply r.2)
      else none
  | .appendReply _ | .voteReply _ => none

/-- What the network and the tester do: all but setting up and using the network. -/
def ofNetwork : LabRpc.Event (EndName n) (Fin n) (Message n α) → Bool
  | .deleteServer _ | .enable _ _ | .setReliable _ | .setLongReordering _ | .setLongDelays _
  | .cleanup | .stopListening => true
  | .move _ (.handlerReturns _) => false
  | .move _ _ => true
  | .makeEnd _ | .makeServer | .addService _ _ | .addServer _ _ | .connect _ _
  | .call _ _ _ => false

namespace Linked

def init (unreliable : Bool) : Linked n α where
  rafts := fun _ => Raft.make none
  panicked := fun _ => false
  elections := []
  appends := []
  starts := []
  rpc := configNetwork n α unreliable

def setRaft (s : Linked n α) (i : Fin n) (rf : Raft n α) : Linked n α :=
  { s with rafts := Function.update s.rafts i rf }

def panic (s : Linked n α) (i : Fin n) : Linked n α :=
  { s with panicked := Function.update s.panicked i true }

def spawn (s : Linked n α) (calls : List (AppendCall n α)) : Linked n α :=
  { s with appends := s.appends ++ calls.map LinkedAppend.of }

def setAppend (s : Linked n α) (k : Nat) (a : LinkedAppend n α) : Linked n α :=
  { s with appends := s.appends.set k a }

def setElection (s : Linked n α) (k : Nat) (el : LinkedElection n) : Linked n α :=
  { s with elections := s.elections.set k el }

/-- The step of the network that goes with a step of the program. -/
def onNetwork (size : Message n α → Nat) (s : Linked n α)
    (e : LabRpc.Event (EndName n) (Fin n) (Message n α)) : Option (Linked n α) :=
  (s.rpc.step size e).map fun rpc => { s with rpc := rpc }

def stepHeartbeatTick (s : Linked n α) (i : Fin n) : Option (Linked n α) :=
  let rf := s.rafts i
  if s.panicked i = false ∧ rf.dead = false ∧ rf.heartbeatTime = true then
    match rf.heartbeatTick i 0 with
    | none => some (s.panic i)
    | some (rf', calls) => some ((s.setRaft i rf').spawn calls)
  else none

def stepElectionTick (s : Linked n α) (i : Fin n) : Option (Linked n α) :=
  let rf := s.rafts i
  if s.panicked i = false ∧ rf.dead = false ∧ rf.electionTime = true then
    match rf.electionTick i with
    | none => some (s.panic i)
    | some (rf', none) => some (s.setRaft i rf')
    | some (rf', some request) =>
        some { s.setRaft i rf' with
          elections := s.elections ++
            [⟨i, request, 1, fun j => if j = i then .self else .spawned⟩] }
  else none

def stepStart (s : Linked n α) (i : Fin n) (command : Option α) : Option (Linked n α) :=
  if s.panicked i = false then
    match (s.rafts i).start i 0 command with
    | none => some (s.panic i)
    | some (rf', calls, index, term, isLeader) =>
        some { (s.setRaft i rf').spawn calls with
          starts := s.starts ++ [⟨i, command, index, term, isLeader⟩] }
  else none

def stepApplyLock (s : Linked n α) (i : Fin n) : Option (Linked n α) :=
  match (s.rafts i).applier with
  | .top =>
      if s.panicked i = false ∧ (s.rafts i).dead = false then
        match (s.rafts i).applyLock with
        | none => some (s.panic i)
        | some rf' => some (s.setRaft i rf')
      else none
  | _ => none

def stepApplyReceive (s : Linked n α) (i : Fin n) : Option (Linked n α) :=
  match (s.rafts i).applier with
  | .waiting =>
      if s.panicked i = false ∧ 0 < (s.rafts i).hasCommittedChan then
        some (s.setRaft i { s.rafts i with
          hasCommittedChan := (s.rafts i).hasCommittedChan - 1, applier := .top })
      else none
  | _ => none

def stepApplySend (s : Linked n α) (i : Fin n) : Option (Linked n α) :=
  match (s.rafts i).applier with
  | .sending entriesToApply =>
      if s.panicked i = false then
        some (s.setRaft i ((s.rafts i).applySend entriesToApply))
      else none
  | _ => none

/-- The first critical section of `handleAppendEntries` and the entry into `Call`. -/
def stepHandleAppend (size : Message n α → Nat) (s : Linked n α) (k : Nat) :
    Option (Linked n α) :=
  match s.appends[k]? with
  | none => none
  | some a =>
      if a.caller = .spawned ∧ s.panicked a.leader = false then
        let (rf', sends) := (s.rafts a.leader).handleAppendEntries a.args
        if sends then
          ((s.setRaft a.leader rf').setAppend k
            { a with caller := .calling, call := some s.rpc.calls.length }).onNetwork size
            (.call (a.leader, a.server) appendEntriesMethod (.appendArgs a.args))
        else some ((s.setRaft a.leader rf').setAppend k { a with caller := .done })
      else none

/-- A goroutine of `conductElection` enters `Call`. -/
def stepCallVote (size : Message n α → Nat) (s : Linked n α) (k : Nat) (peer : Fin n) :
    Option (Linked n α) :=
  match s.elections[k]? with
  | none => none
  | some el =>
      if el.peers peer = .spawned ∧ s.panicked el.candidate = false then
        (s.setElection k
          { el with peers := Function.update el.peers peer (.calling s.rpc.calls.length) }
          ).onNetwork size
          (.call (el.candidate, peer) requestVoteMethod (.voteArgs el.request))
      else none

/-- A handler runs: the service behind the server that the call was routed to. -/
def stepServe (size : Message n α → Nat) (s : Linked n α) (k : Nat) : Option (Linked n α) :=
  match s.rpc.calls[k]? with
  | none => none
  | some c =>
      match c.dispatch, c.info with
      | .handling, some info =>
          if hp : info.server < n then
            let p : Fin n := ⟨info.server, hp⟩
            if s.panicked p = false then
              match (s.rafts p).invoke c.svcMeth c.args with
              | none => some (s.panic p)
              | some (rf', reply) =>
                  if rf'.hasCommittedChan ≤ committedCapacity then
                    (s.setRaft p rf').onNetwork size (.move k (.handlerReturns reply))
                  else none
            else none
          else none
      | _, _ => none

/-- `sendAppendEntries` has returned. -/
def stepAppendReturns (s : Linked n α) (k : Nat) : Option (Linked n α) :=
  match s.appends[k]? with
  | none => none
  | some a =>
      match a.caller, a.call.bind fun j => (s.rpc.calls[j]?).map LabRpc.Call.caller with
      | .calling, some (.returned ⟨true, some (.appendReply reply)⟩) =>
          if s.panicked a.leader = false then
            match (s.rafts a.leader).respAppendEntries a.leader 0 a.server
                a.expectedNextIndex a.args reply with
            | none => some (s.panic a.leader)
            | some (rf', calls) =>
                if rf'.hasCommittedChan ≤ committedCapacity then
                  some (((s.setRaft a.leader rf').setAppend k
                    { a with caller := .unwinding }).spawn calls)
                else none
          else none
      | .calling, some (.returned ⟨false, _⟩) =>
          if s.panicked a.leader = false then
            some (s.setAppend k { a with caller := .unwinding })
          else none
      | _, _ => none

/-- `sendRequestVote` has returned. -/
def stepVoteReturns (s : Linked n α) (k : Nat) (peer : Fin n) : Option (Linked n α) :=
  match s.elections[k]? with
  | none => none
  | some el =>
      match el.peers peer with
      | .calling j =>
          match (s.rpc.calls[j]?).map LabRpc.Call.caller with
          | some (.returned ⟨true, some (.voteReply response)⟩) =>
              if s.panicked el.candidate = false then
                match (s.rafts el.candidate).countVote el.candidate 0 el.request
                    el.totalVotes response with
                | none => some (s.panic el.candidate)
                | some (rf', totalVotes, calls) =>
                    some (((s.setRaft el.candidate rf').setElection k
                      { el with
                        totalVotes := totalVotes
                        peers := Function.update el.peers peer (.done j) }).spawn calls)
              else none
          | some (.returned ⟨false, _⟩) =>
              if s.panicked el.candidate = false then
                some (s.setElection k
                  { el with peers := Function.update el.peers peer (.done j) })
              else none
          | _ => none
      | _ => none

def stepUnwind (s : Linked n α) (k : Nat) : Option (Linked n α) :=
  match s.appends[k]? with
  | none => none
  | some a =>
      if a.caller = .unwinding ∧ s.panicked a.leader = false then
        some ((s.setRaft a.leader (s.rafts a.leader).persist).setAppend k
          { a with caller := .done })
      else none

def stepLive (size : Message n α → Nat) (s : Linked n α) :
    LinkedEvent n α → Option (Linked n α)
  | .heartbeatTick i => s.stepHeartbeatTick i
  | .electionTick i => s.stepElectionTick i
  | .start i command => s.stepStart i command
  | .applyLock i => s.stepApplyLock i
  | .applyReceive i => s.stepApplyReceive i
  | .applySend i => s.stepApplySend i
  | .kill i => some (s.setRaft i { s.rafts i with dead := true })
  | .handleAppend k => s.stepHandleAppend size k
  | .callVote k peer => s.stepCallVote size k peer
  | .serve k => s.stepServe size k
  | .appendReturns k => s.stepAppendReturns k
  | .voteReturns k peer => s.stepVoteReturns k peer
  | .unwind k => s.stepUnwind k
  | .network e => if ofNetwork e then s.onNetwork size e else none

/-- One event, if the network has not ended the program. -/
def step (size : Message n α → Nat) (s : Linked n α) (e : LinkedEvent n α) :
    Option (Linked n α) :=
  if s.rpc.exited then none else s.stepLive size e

end Linked

/-- The peers and their network as one machine. -/
def linked (n : Nat) (α : Type) (unreliable : Bool) (size : Message n α → Nat) :
    Machine (Linked n α) (LinkedEvent n α) where
  init := Linked.init unreliable
  step := Linked.step size

end RaftLab
