import DistributedLabs.Raft.State
import Mathlib.Data.List.FinRange
import Mathlib.Logic.Function.Basic

/-!
The critical sections of raft.go as functions on a peer's fields. A handler
without a value is one that panics on an index or slice of `rf.log` that is out
of range. `me` is `rf.me`, which `Make` sets once; `len(rf.peers)` is `n`.
-/

namespace RaftLab

variable {n : Nat} {α : Type}

inductive Wire (ρ : Type)
  | unsent
  | request
  | reply (r : ρ)
  | closed
  deriving DecidableEq, Repr

def Wire.response {ρ : Type} : Wire ρ → Option ρ
  | .reply r => some r
  | _ => none

/-- How far the goroutine of `handleAppendEntries` is: before its first critical
section, in `sendAppendEntries`, before its deferred `persist`, or returned. -/
inductive Caller
  | spawned
  | calling
  | unwinding
  | done
  deriving DecidableEq, Repr

/-- One goroutine `handleAppendEntries(server, expectedNextIndex, args, reply)`
of `leader`, with the state of its call. -/
structure AppendCall (n : Nat) (α : Type) where
  leader : Fin n
  incarnation : Nat
  server : Fin n
  expectedNextIndex : Int
  args : AppendEntriesArgs n α
  caller : Caller
  wire : Wire AppendEntriesReply
  deriving DecidableEq, Repr

namespace Raft

/-- The goroutine that `sendHeartbeats` and the retry of `respAppendEntries`
start for one peer: all entries from `nextIndex[server]` on. -/
def spawnAppend (me : Fin n) (incarnation : Nat) (rf : Raft n α) (server : Fin n) :
    Option (AppendCall n α) := do
  let prevLogIndex := rf.nextIndex server - 1
  let base ← GoSlice.get rf.log 0
  let prev ← GoSlice.get rf.log (prevLogIndex - base.index)
  let entries ← GoSlice.sliceFrom rf.log (rf.nextIndex server - base.index)
  some
    { leader := me
      incarnation := incarnation
      server := server
      expectedNextIndex := rf.nextIndex server + entries.length
      args :=
        { term := rf.currentTerm
          leaderId := me
          prevLogIndex := prevLogIndex
          prevLogTerm := prev.term
          entries := entries
          leaderCommit := rf.commitIndex }
      caller := .spawned
      wire := .unsent }

def sendHeartbeats (me : Fin n) (incarnation : Nat) (rf : Raft n α) :
    Option (List (AppendCall n α)) :=
  ((List.finRange n).filter (· ≠ me)).mapM (spawnAppend me incarnation rf)

def stepDown (rf : Raft n α) (term : Int) : Raft n α :=
  { rf.persist with
    state := .follower, votedFor := none, currentTerm := term, electionTime := true }

def acknowledge (rf : Raft n α) (server : Fin n) (expectedNextIndex : Int)
    (args : AppendEntriesArgs n α) : Raft n α :=
  if rf.nextIndex server + args.entries.length = expectedNextIndex then
    { rf with
      nextIndex := Function.update rf.nextIndex server expectedNextIndex
      matchIndex := Function.update rf.matchIndex server (expectedNextIndex - 1) }
  else rf

def numAgreesToCommit (me : Fin n) (rf : Raft n α) (server : Fin n) : Nat :=
  1 + (List.finRange n).countP
    (fun i => i ≠ me ∧ rf.matchIndex i ≥ rf.matchIndex server)

/-- The part of `respAppendEntries` that may advance `commitIndex`. -/
def advanceCommit (me : Fin n) (rf : Raft n α) (server : Fin n) :
    Option (Raft n α) := do
  let majorityThreshold := n / 2
  let base ← GoSlice.get rf.log 0
  let entry ← GoSlice.get rf.log (rf.matchIndex server - base.index)
  if numAgreesToCommit me rf server > majorityThreshold ∧
      entry.term = rf.currentTerm then
    some { rf with
      commitIndex := max rf.commitIndex (rf.matchIndex server)
      hasCommittedChan := rf.hasCommittedChan + 1 }
  else some rf

def respAppendEntries (me : Fin n) (incarnation : Nat) (rf : Raft n α) (server : Fin n)
    (expectedNextIndex : Int) (args : AppendEntriesArgs n α)
    (reply : AppendEntriesReply) : Option (Raft n α × List (AppendCall n α)) :=
  if rf.state = .leader ∧ args.term = rf.currentTerm then
    if reply.term > rf.currentTerm then
      some (rf.stepDown reply.term, [])
    else if reply.success then do
      let rf ← advanceCommit me (rf.acknowledge server expectedNextIndex args) server
      some (rf, [])
    else do
      let rf := { rf with nextIndex := Function.update rf.nextIndex server 1 }
      let call ← spawnAppend me incarnation rf server
      some (rf, [call])
  else some (rf, [])

/-- `outOfBounds || log[pos].Term != term`, with Go's short circuit. -/
def missesTerm (log : List (LogEntry α)) (outOfBounds : Bool) (pos term : Int) :
    Option Bool :=
  if outOfBounds then some true
  else (GoSlice.get log pos).map (fun e => decide (e.term ≠ term))

/-- The loop of `AppendEntries` over the request's entries: the log is kept up to
the first entry it misses or holds with another term. -/
def mergeEntries (log : List (LogEntry α)) :
    List (LogEntry α) → Option (List (LogEntry α))
  | [] => some log
  | newEntry :: rest => do
      let base ← GoSlice.get log 0
      let indexOutOfBounds := decide (newEntry.index - base.index ≥ log.length)
      let conflict ← missesTerm log indexOutOfBounds
        (newEntry.index - base.index) newEntry.term
      if conflict then
        (GoSlice.sliceTo log (newEntry.index - base.index)).map (· ++ newEntry :: rest)
      else mergeEntries log rest

/-- The part of `AppendEntries` after the term and role are settled. -/
def acceptEntries (rf : Raft n α) (request : AppendEntriesArgs n α) :
    Option (Raft n α × AppendEntriesReply) := do
  let base ← GoSlice.get rf.log 0
  if request.prevLogIndex < base.index - 1 then
    some (rf, ⟨0, false⟩)
  else do
    let last ← rf.lastLogIndex
    let mismatch ← missesTerm rf.log (decide (request.prevLogIndex > last))
      (request.prevLogIndex - base.index) request.prevLogTerm
    if mismatch then
      some (rf, ⟨rf.currentTerm, false⟩)
    else do
      let log ← mergeEntries rf.log request.entries
      let rf := { rf with log := log }
      if request.leaderCommit > rf.commitIndex then do
        let last ← rf.lastLogIndex
        let rf := { rf with
          commitIndex := if request.leaderCommit < last then request.leaderCommit else last
          hasCommittedChan := rf.hasCommittedChan + 1 }
        some (rf, ⟨rf.currentTerm, true⟩)
      else
        some (rf, ⟨rf.currentTerm, true⟩)

def followLeader (rf : Raft n α) (term : Int) : Raft n α :=
  let rf :=
    if term > rf.currentTerm then { rf with votedFor := none, currentTerm := term }
    else rf
  { rf with state := .follower, electionTime := true }

def appendEntries (rf : Raft n α) (request : AppendEntriesArgs n α) :
    Option (Raft n α × AppendEntriesReply) :=
  if request.term < rf.currentTerm then
    some (rf.persist, ⟨rf.currentTerm, false⟩)
  else do
    let (rf, response) ← (rf.followLeader request.term).acceptEntries request
    some (rf.persist, response)

def upToDate (rf : Raft n α) (args : RequestVoteArgs n) : Option Bool :=
  if args.lastLogTerm > rf.lastLogTerm then some true
  else if args.lastLogTerm = rf.lastLogTerm then
    rf.lastLogIndex.map (fun last => decide (last ≤ args.lastLogIndex))
  else some false

def observeTerm (rf : Raft n α) (term : Int) : Raft n α :=
  if term > rf.currentTerm then
    { rf with currentTerm := term, state := .follower, votedFor := none }
  else rf

def requestVote (rf : Raft n α) (args : RequestVoteArgs n) :
    Option (Raft n α × RequestVoteReply) := do
  let replyTerm := rf.currentTerm
  let rf := rf.observeTerm args.term
  let current ← rf.upToDate args
  if current = true ∧ (rf.votedFor = none ∨ rf.votedFor = some args.candidateId) then
    some ({ rf with votedFor := some args.candidateId, electionTime := true },
      ⟨replyTerm, true⟩)
  else
    some (rf, ⟨replyTerm, false⟩)

/-- The critical section a `conductElection` goroutine enters with the response
of one peer; `totalVotes` is the variable the goroutines of one election share. -/
def countVote (me : Fin n) (incarnation : Nat) (rf : Raft n α)
    (request : RequestVoteArgs n) (totalVotes : Nat) (response : RequestVoteReply) :
    Option (Raft n α × Nat × List (AppendCall n α)) :=
  if rf.state = .candidate ∧ rf.currentTerm = request.term then
    if response.term > rf.currentTerm then
      some (rf.stepDown response.term, totalVotes, [])
    else if response.voteGranted then
      let totalVotes := totalVotes + 1
      if totalVotes > n / 2 then do
        let rf := { rf with nextIndex := fun _ => rf.commitIndex + 1, state := .leader }
        let calls ← sendHeartbeats me incarnation rf
        some ({ rf with heartbeatTime := true }, totalVotes, calls)
      else some (rf, totalVotes, [])
    else some (rf, totalVotes, [])
  else some (rf, totalVotes, [])

def start (me : Fin n) (incarnation : Nat) (rf : Raft n α) (command : Option α) :
    Option (Raft n α × List (AppendCall n α) × Int × Int × Bool) :=
  if rf.state = .leader then do
    let rf := rf.persist
    let term := rf.currentTerm
    let last ← rf.lastLogIndex
    let index := last + 1
    let rf := { rf with log := rf.log ++ [⟨term, command, index⟩] }
    let calls ← sendHeartbeats me incarnation rf
    some (rf, calls, index, term, true)
  else some (rf, [], -1, -1, false)

/-- The `heartbeatTime.C` case of `ticker`; receiving disarms the timer. -/
def heartbeatTick (me : Fin n) (incarnation : Nat) (rf : Raft n α) :
    Option (Raft n α × List (AppendCall n α)) :=
  let rf := { rf with heartbeatTime := false }
  if rf.state = .leader then do
    let calls ← sendHeartbeats me incarnation rf
    some ({ rf with heartbeatTime := true }, calls)
  else some (rf, [])

/-- The `electionTime.C` case of `ticker`; the request is the argument of
`conductElection`, if the peer is to stand. -/
def electionTick (me : Fin n) (rf : Raft n α) :
    Option (Raft n α × Option (RequestVoteArgs n)) :=
  let rf := { rf with electionTime := false }
  if rf.state ≠ .leader then do
    let rf := { rf.persist with
      currentTerm := rf.currentTerm + 1, state := .candidate, votedFor := some me }
    let last ← rf.lastLogIndex
    some ({ rf with electionTime := true },
      some ⟨rf.currentTerm, me, last, rf.lastLogTerm⟩)
  else some (rf, none)

/-- The first critical section of `handleAppendEntries`: whether it goes on to
`sendAppendEntries`; otherwise it persists and returns. -/
def handleAppendEntries (rf : Raft n α) (args : AppendEntriesArgs n α) : Raft n α × Bool :=
  if rf.state = .leader ∧ args.term = rf.currentTerm then (rf, true)
  else (rf.persist, false)

/-- The locked part of one turn of `applyEntries`. -/
def applyLock (rf : Raft n α) : Option (Raft n α) :=
  if rf.lastApplied < rf.commitIndex then do
    let base ← GoSlice.get rf.log 0
    let entriesToApply ← GoSlice.slice rf.log (rf.lastApplied + 1 - base.index)
      (rf.commitIndex + 1 - base.index)
    some { rf with lastApplied := rf.commitIndex, applier := .sending entriesToApply }
  else some { rf with applier := .waiting }

/-- One send of `applyEntries` on `applyCh`, or the end of its loop. -/
def applySend (rf : Raft n α) : List (LogEntry α) → Raft n α
  | [] => { rf with applier := .top }
  | entry :: rest =>
      { rf with
        applyCh := rf.applyCh ++ [⟨true, entry.command, entry.index, entry.term⟩]
        applier := .sending rest }

end Raft
end RaftLab
