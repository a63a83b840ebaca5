import DistributedLabs.Library.GoSlice
import DistributedLabs.Library.TermLog

/-!
Data of one Raft peer (raft.go). Peers are the `n` values of `Fin n`; the role
string is an enumeration and the `-1` of `votedFor` is `none`. A command is an
`interface{}`, so it may be nil. Go's `int` is `Int`.

Durations and the RPC end points are left out: a timer is armed or not, and any
armed timer may fire. The persister holds what its bytes decode to.
-/

namespace RaftLab

open TermLog (Role)

structure ApplyMsg (α : Type) where
  commandValid : Bool
  command : Option α
  commandIndex : Int
  commandTerm : Int
  deriving DecidableEq, Repr

structure LogEntry (α : Type) where
  term : Int
  command : Option α
  index : Int
  deriving DecidableEq, Repr

structure AppendEntriesArgs (n : Nat) (α : Type) where
  term : Int
  leaderId : Fin n
  prevLogIndex : Int
  prevLogTerm : Int
  entries : List (LogEntry α)
  leaderCommit : Int
  deriving DecidableEq, Repr

structure AppendEntriesReply where
  term : Int
  success : Bool
  deriving DecidableEq, Repr

structure RequestVoteArgs (n : Nat) where
  term : Int
  candidateId : Fin n
  lastLogIndex : Int
  lastLogTerm : Int
  deriving DecidableEq, Repr

structure RequestVoteReply where
  term : Int
  voteGranted : Bool
  deriving DecidableEq, Repr

/-- The three values `persist` encodes, in its order. -/
structure Persisted (n : Nat) (α : Type) where
  currentTerm : Int
  votedFor : Option (Fin n)
  log : List (LogEntry α)
  deriving DecidableEq, Repr

/-- Where the `applyEntries` loop stands: before its lock, in the receive from
`hasCommittedChan`, or sending the rest of `entriesToApply`. -/
inductive Applier (α : Type)
  | top
  | waiting
  | sending (entriesToApply : List (LogEntry α))
  deriving DecidableEq, Repr

/-- The fields of a peer. `applyCh` lists the messages put on the channel so far
and `hasCommittedChan` counts the notifications queued on it. -/
structure Raft (n : Nat) (α : Type) where
  persister : Option (Persisted n α)
  dead : Bool
  currentTerm : Int
  votedFor : Option (Fin n)
  log : List (LogEntry α)
  state : Role
  heartbeatTime : Bool
  electionTime : Bool
  applyCh : List (ApplyMsg α)
  commitIndex : Int
  nextIndex : Fin n → Int
  matchIndex : Fin n → Int
  lastApplied : Int
  hasCommittedChan : Nat
  applier : Applier α

variable {n : Nat} {α : Type}

/-- The entry `Make` puts at position 0. -/
def sentinel : LogEntry α := ⟨0, none, 0⟩

namespace Raft

/-- The log's last term, or -1 for an empty log. -/
def lastLogTerm (rf : Raft n α) : Int :=
  match rf.log.getLast? with
  | none => -1
  | some e => e.term

/-- The log's last index; an empty log panics. -/
def lastLogIndex (rf : Raft n α) : Option Int :=
  rf.log.getLast?.map LogEntry.index

def persist (rf : Raft n α) : Raft n α :=
  { rf with persister := some ⟨rf.currentTerm, rf.votedFor, rf.log⟩ }

def readPersist (rf : Raft n α) : Raft n α :=
  match rf.persister with
  | none => rf
  | some p => { rf with currentTerm := p.currentTerm, votedFor := p.votedFor, log := p.log }

/-- `Make`: a follower with both timers armed, then the persisted state. -/
def make (persister : Option (Persisted n α)) : Raft n α :=
  readPersist
    { persister := persister
      dead := false
      currentTerm := 0
      votedFor := none
      log := [sentinel]
      state := .follower
      heartbeatTime := true
      electionTime := true
      applyCh := []
      commitIndex := 0
      nextIndex := fun _ => 0
      matchIndex := fun _ => 0
      lastApplied := 0
      hasCommittedChan := 0
      applier := .top }

end Raft
end RaftLab
