import DistributedLabs.Raft.System

/-!
What each handler and each event can do, stated once. Later proofs use these
case lemmas and do not unfold the handlers.
-/

namespace RaftLab

open TermLog (Role)

variable {n : Nat} {α : Type}

namespace Raft

variable {rf rf' : Raft n α}

/-- `RequestVote` grants its vote to the request. -/
def Grants (rf : Raft n α) (args : RequestVoteArgs n) : Prop :=
  (rf.observeTerm args.term).upToDate args = some true ∧
    ((rf.observeTerm args.term).votedFor = none ∨
      (rf.observeTerm args.term).votedFor = some args.candidateId)

instance (rf : Raft n α) (args : RequestVoteArgs n) : Decidable (rf.Grants args) :=
  inferInstanceAs (Decidable (_ ∧ _))

theorem requestVote_cases {args : RequestVoteArgs n} {reply : RequestVoteReply}
    (h : rf.requestVote args = some (rf', reply)) :
    reply.term = rf.currentTerm ∧
      ((reply.voteGranted = true ∧ rf.Grants args ∧
          rf' = { rf.observeTerm args.term with
            votedFor := some args.candidateId, electionTime := true }) ∨
        (reply.voteGranted = false ∧ ¬ rf.Grants args ∧
          rf' = rf.observeTerm args.term)) := by
  simp only [requestVote, Option.bind_eq_bind, Option.bind_eq_some_iff] at h
  obtain ⟨current, hc, h⟩ := h
  split at h
  · rename_i hg
    obtain ⟨rfl, rfl⟩ := Prod.mk.inj (Option.some.inj h)
    refine ⟨rfl, Or.inl ⟨rfl, ⟨?_, hg.2⟩, rfl⟩⟩
    rw [hc, hg.1]
  · rename_i hg
    obtain ⟨rfl, rfl⟩ := Prod.mk.inj (Option.some.inj h)
    refine ⟨rfl, Or.inr ⟨rfl, ?_, rfl⟩⟩
    rintro ⟨hu, hv⟩
    rw [hc] at hu
    exact hg ⟨Option.some.inj hu, hv⟩

@[simp] theorem observeTerm_log (term : Int) : (rf.observeTerm term).log = rf.log := by
  unfold observeTerm
  split <;> rfl

theorem observeTerm_of_lt {term : Int} (h : rf.currentTerm < term) :
    rf.observeTerm term =
      { rf with currentTerm := term, state := .follower, votedFor := none } :=
  if_pos h

theorem observeTerm_of_le {term : Int} (h : term ≤ rf.currentTerm) :
    rf.observeTerm term = rf :=
  if_neg (Int.not_lt.mpr h)

/-- After a request of no older term the peer is in the request's term. -/
theorem observeTerm_currentTerm {term : Int} (h : rf.currentTerm ≤ term) :
    (rf.observeTerm term).currentTerm = term := by
  unfold observeTerm
  split
  · rfl
  · omega

theorem observeTerm_upToDate (T : Int) (args : RequestVoteArgs n) :
    (rf.observeTerm T).upToDate args = rf.upToDate args := by
  unfold observeTerm
  split <;> rfl

/-- The handler fails only with the comparison of the logs. -/
theorem requestVote_isSome (rf : Raft n α) (args : RequestVoteArgs n) :
    (rf.requestVote args).isSome = (rf.upToDate args).isSome := by
  unfold requestVote
  simp only [observeTerm_upToDate, Option.bind_eq_bind]
  cases rf.upToDate args with
  | none => rfl
  | some b =>
      simp only [Option.bind_some]
      split <;> rfl

/-- Apart from the log, `acceptEntries` only touches the commit index and its
notification channel. -/
theorem acceptEntries_cases {request : AppendEntriesArgs n α}
    {response : AppendEntriesReply}
    (h : rf.acceptEntries request = some (rf', response)) :
    (response.success = false ∧ rf' = rf) ∨
      ∃ log last, mergeEntries rf.log request.entries = some log ∧
        rf.lastLogIndex = some last ∧ request.prevLogIndex ≤ last ∧
        ((request.leaderCommit ≤ rf.commitIndex ∧ rf' = { rf with log := log }) ∨
          (rf.commitIndex < request.leaderCommit ∧
            ∃ last', lastLogIndex { rf with log := log } = some last' ∧
              rf' = { rf with
                log := log
                commitIndex :=
                  if request.leaderCommit < last' then request.leaderCommit else last'
                hasCommittedChan := rf.hasCommittedChan + 1 })) := by
  simp only [acceptEntries, Option.bind_eq_bind, Option.bind_eq_some_iff] at h
  obtain ⟨base, _, h⟩ := h
  split at h
  · obtain ⟨rfl, rfl⟩ := Prod.mk.inj (Option.some.inj h)
    exact Or.inl ⟨rfl, rfl⟩
  · simp only [Option.bind_eq_some_iff] at h
    obtain ⟨last, hlast, mismatch, hmismatch, h⟩ := h
    split at h
    · obtain ⟨rfl, rfl⟩ := Prod.mk.inj (Option.some.inj h)
      exact Or.inl ⟨rfl, rfl⟩
    · rename_i hno
      have hle : request.prevLogIndex ≤ last := by
        apply Int.not_lt.mp
        intro hgt
        simp only [missesTerm, hgt, decide_true, if_true] at hmismatch
        exact hno (Option.some.inj hmismatch).symm
      simp only [Option.bind_eq_some_iff] at h
      obtain ⟨log, hlog, h⟩ := h
      split at h
      · rename_i hlt
        simp only [Option.bind_eq_some_iff] at h
        obtain ⟨last', hlast', h⟩ := h
        obtain ⟨rfl, rfl⟩ := Prod.mk.inj (Option.some.inj h)
        exact Or.inr ⟨log, last, hlog, hlast, hle, Or.inr ⟨hlt, last', hlast', rfl⟩⟩
      · rename_i hlt
        obtain ⟨rfl, rfl⟩ := Prod.mk.inj (Option.some.inj h)
        exact Or.inr ⟨log, last, hlog, hlast, hle, Or.inl ⟨Int.not_lt.mp hlt, rfl⟩⟩

theorem appendEntries_cases {request : AppendEntriesArgs n α}
    {response : AppendEntriesReply}
    (h : rf.appendEntries request = some (rf', response)) :
    (request.term < rf.currentTerm ∧ rf' = rf.persist ∧
        response = ⟨rf.currentTerm, false⟩) ∨
      (rf.currentTerm ≤ request.term ∧ ∃ rf₁,
        (rf.followLeader request.term).acceptEntries request = some (rf₁, response) ∧
          rf' = rf₁.persist) := by
  unfold appendEntries at h
  split at h
  · rename_i hlt
    obtain ⟨rfl, rfl⟩ := Prod.mk.inj (Option.some.inj h)
    exact Or.inl ⟨hlt, rfl, rfl⟩
  · rename_i hlt
    simp only [Option.bind_eq_bind, Option.bind_eq_some_iff] at h
    obtain ⟨⟨rf₁, r⟩, hacc, h⟩ := h
    obtain ⟨rfl, rfl⟩ := Prod.mk.inj (Option.some.inj h)
    exact Or.inr ⟨Int.not_lt.mp hlt, rf₁, hacc, rfl⟩

theorem followLeader_of_le {term : Int} (h : rf.currentTerm ≤ term) :
    rf.followLeader term =
      { rf with
        currentTerm := term
        votedFor := if rf.currentTerm < term then none else rf.votedFor
        state := .follower
        electionTime := true } := by
  unfold followLeader
  rcases Int.lt_or_eq_of_le h with hlt | heq
  · simp [hlt]
  · subst heq
    simp

theorem acknowledge_cases (rf : Raft n α) (server : Fin n) (expected : Int)
    (args : AppendEntriesArgs n α) :
    (rf.nextIndex server + args.entries.length = expected ∧
      rf.acknowledge server expected args =
        { rf with
          nextIndex := Function.update rf.nextIndex server expected
          matchIndex := Function.update rf.matchIndex server (expected - 1) }) ∨
      rf.acknowledge server expected args = rf := by
  unfold acknowledge
  split
  · rename_i h
    exact Or.inl ⟨h, rfl⟩
  · exact Or.inr rfl

theorem advanceCommit_cases {me server : Fin n}
    (h : advanceCommit me rf server = some rf') :
    ∃ base entry, rf.log[0]? = some base ∧
      GoSlice.get rf.log (rf.matchIndex server - base.index) = some entry ∧
      (rf' = rf ∨
        (numAgreesToCommit me rf server > n / 2 ∧ entry.term = rf.currentTerm ∧
          rf' = { rf with
            commitIndex := max rf.commitIndex (rf.matchIndex server)
            hasCommittedChan := rf.hasCommittedChan + 1 })) := by
  simp only [advanceCommit, GoSlice.get_zero, Option.bind_eq_bind,
    Option.bind_eq_some_iff] at h
  obtain ⟨base, hb, entry, he, h⟩ := h
  refine ⟨base, entry, hb, he, ?_⟩
  split at h
  · rename_i hc
    exact Or.inr ⟨hc.1, hc.2, (Option.some.inj h).symm⟩
  · exact Or.inl (Option.some.inj h).symm

theorem respAppendEntries_cases {me server : Fin n} {inc : Nat} {expected : Int}
    {args : AppendEntriesArgs n α} {reply : AppendEntriesReply}
    {calls : List (AppendCall n α)}
    (h : respAppendEntries me inc rf server expected args reply = some (rf', calls)) :
    (¬ (rf.state = .leader ∧ args.term = rf.currentTerm) ∧ rf' = rf ∧ calls = []) ∨
      (rf.state = .leader ∧ args.term = rf.currentTerm ∧
        ((rf.currentTerm < reply.term ∧ rf' = rf.stepDown reply.term ∧ calls = []) ∨
          (reply.term ≤ rf.currentTerm ∧ reply.success = true ∧ calls = [] ∧
            advanceCommit me (rf.acknowledge server expected args) server = some rf') ∨
          (reply.term ≤ rf.currentTerm ∧ reply.success = false ∧
            rf' = { rf with nextIndex := Function.update rf.nextIndex server 1 } ∧
            ∃ c, spawnAppend me inc rf' server = some c ∧ calls = [c]))) := by
  unfold respAppendEntries at h
  split at h
  · rename_i hl
    refine Or.inr ⟨hl.1, hl.2, ?_⟩
    split at h
    · rename_i ht
      obtain ⟨rfl, rfl⟩ := Prod.mk.inj (Option.some.inj h)
      exact Or.inl ⟨ht, rfl, rfl⟩
    · rename_i ht
      have hle : reply.term ≤ rf.currentTerm := Int.not_lt.mp ht
      split at h
      · rename_i hs
        simp only [Option.bind_eq_bind, Option.bind_eq_some_iff] at h
        obtain ⟨rf₁, hadv, h⟩ := h
        obtain ⟨rfl, rfl⟩ := Prod.mk.inj (Option.some.inj h)
        exact Or.inr (Or.inl ⟨hle, hs, rfl, hadv⟩)
      · rename_i hs
        simp only [Option.bind_eq_bind, Option.bind_eq_some_iff] at h
        obtain ⟨c, hc, h⟩ := h
        obtain ⟨rfl, rfl⟩ := Prod.mk.inj (Option.some.inj h)
        exact Or.inr (Or.inr ⟨hle, by simpa using hs, rfl, c, hc, rfl⟩)
  · rename_i hl
    obtain ⟨rfl, rfl⟩ := Prod.mk.inj (Option.some.inj h)
    exact Or.inl ⟨hl, rfl, rfl⟩

theorem respAppendEntries_stepDown {me server : Fin n} {inc : Nat} {expected : Int}
    {args : AppendEntriesArgs n α} {reply : AppendEntriesReply}
    (hs : rf.state = .leader) (ht : args.term = rf.currentTerm)
    (hlt : rf.currentTerm < reply.term) :
    respAppendEntries me inc rf server expected args reply =
      some (rf.stepDown reply.term, []) :=
  (if_pos ⟨hs, ht⟩).trans (if_pos hlt)

/-- The reply makes a candidate the leader. -/
def Wins (rf : Raft n α) (request : RequestVoteArgs n) (totalVotes : Nat)
    (response : RequestVoteReply) : Prop :=
  rf.state = .candidate ∧ rf.currentTerm = request.term ∧
    response.term ≤ rf.currentTerm ∧ response.voteGranted = true ∧
    n / 2 < totalVotes + 1

instance (rf : Raft n α) (request : RequestVoteArgs n) (totalVotes : Nat)
    (response : RequestVoteReply) : Decidable (rf.Wins request totalVotes response) :=
  inferInstanceAs (Decidable (_ ∧ _))

/-- The fields of a candidate that has just won. -/
def elected (rf : Raft n α) : Raft n α :=
  { rf with nextIndex := fun _ => rf.commitIndex + 1, state := .leader }

theorem countVote_cases {me : Fin n} {inc : Nat} {request : RequestVoteArgs n}
    {totalVotes totalVotes' : Nat} {response : RequestVoteReply}
    {calls : List (AppendCall n α)}
    (h : countVote me inc rf request totalVotes response =
      some (rf', totalVotes', calls)) :
    (rf' = rf ∧ totalVotes' = totalVotes ∧ calls = []) ∨
      (rf.state = .candidate ∧ rf.currentTerm = request.term ∧
        rf.currentTerm < response.term ∧ rf' = rf.stepDown response.term ∧
        totalVotes' = totalVotes ∧ calls = []) ∨
      (rf.currentTerm = request.term ∧ response.term ≤ rf.currentTerm ∧
        response.voteGranted = true ∧ rf' = rf ∧ totalVotes' = totalVotes + 1 ∧
        calls = []) ∨
      (rf.Wins request totalVotes response ∧ totalVotes' = totalVotes + 1 ∧
        rf' = { rf.elected with heartbeatTime := true } ∧
        sendHeartbeats me inc rf.elected = some calls) := by
  unfold countVote at h
  split at h
  · rename_i hc
    split at h
    · rename_i ht
      simp only [Option.some.injEq, Prod.mk.injEq] at h
      obtain ⟨rfl, rfl, rfl⟩ := h
      exact Or.inr (Or.inl ⟨hc.1, hc.2, ht, rfl, rfl, rfl⟩)
    · rename_i ht
      have hle : response.term ≤ rf.currentTerm := Int.not_lt.mp ht
      split at h
      · rename_i hg
        dsimp only at h
        split at h
        · rename_i hw
          simp only [Option.bind_eq_bind, Option.bind_eq_some_iff, Option.some.injEq,
            Prod.mk.injEq] at h
          obtain ⟨calls', hs, rfl, rfl, rfl⟩ := h
          exact Or.inr (Or.inr (Or.inr ⟨⟨hc.1, hc.2, hle, hg, hw⟩, rfl, rfl, hs⟩))
        · simp only [Option.some.injEq, Prod.mk.injEq] at h
          obtain ⟨rfl, rfl, rfl⟩ := h
          exact Or.inr (Or.inr (Or.inl ⟨hc.2, hle, hg, rfl, rfl, rfl⟩))
      · simp only [Option.some.injEq, Prod.mk.injEq] at h
        obtain ⟨rfl, rfl, rfl⟩ := h
        exact Or.inl ⟨rfl, rfl, rfl⟩
  · simp only [Option.some.injEq, Prod.mk.injEq] at h
    obtain ⟨rfl, rfl, rfl⟩ := h
    exact Or.inl ⟨rfl, rfl, rfl⟩

theorem countVote_stepDown {me : Fin n} {inc totalVotes : Nat}
    {request : RequestVoteArgs n} {response : RequestVoteReply}
    (hs : rf.state = .candidate) (ht : rf.currentTerm = request.term)
    (hlt : rf.currentTerm < response.term) :
    countVote me inc rf request totalVotes response =
      some (rf.stepDown response.term, totalVotes, []) :=
  (if_pos ⟨hs, ht⟩).trans (if_pos hlt)

theorem start_cases {me : Fin n} {inc : Nat} {command : Option α}
    {calls : List (AppendCall n α)} {index term : Int} {isLeader : Bool}
    (h : start me inc rf command = some (rf', calls, index, term, isLeader)) :
    (rf.state ≠ .leader ∧ rf' = rf ∧ calls = [] ∧ isLeader = false) ∨
      (rf.state = .leader ∧ isLeader = true ∧ term = rf.currentTerm ∧
        (∃ last, rf.lastLogIndex = some last ∧ index = last + 1) ∧
        rf' = { rf.persist with log := rf.log ++ [⟨term, command, index⟩] } ∧
        sendHeartbeats me inc rf' = some calls) := by
  unfold start at h
  split at h
  · rename_i hl
    simp only [Option.bind_eq_bind, Option.bind_eq_some_iff, Option.some.injEq,
      Prod.mk.injEq] at h
    obtain ⟨last, hlast, calls', hs, rfl, rfl, rfl, rfl, rfl⟩ := h
    exact Or.inr ⟨hl, rfl, rfl, ⟨last, hlast, rfl⟩, rfl, hs⟩
  · rename_i hl
    simp only [Option.some.injEq, Prod.mk.injEq] at h
    obtain ⟨rfl, rfl, _, _, rfl⟩ := h
    exact Or.inl ⟨hl, rfl, rfl, rfl⟩

theorem heartbeatTick_cases {me : Fin n} {inc : Nat} {calls : List (AppendCall n α)}
    (h : heartbeatTick me inc rf = some (rf', calls)) :
    (rf.state ≠ .leader ∧ rf' = { rf with heartbeatTime := false } ∧ calls = []) ∨
      (rf.state = .leader ∧ rf' = { rf with heartbeatTime := true } ∧
        sendHeartbeats me inc { rf with heartbeatTime := false } = some calls) := by
  unfold heartbeatTick at h
  dsimp only at h
  split at h
  · rename_i hl
    simp only [Option.bind_eq_bind, Option.bind_eq_some_iff, Option.some.injEq,
      Prod.mk.injEq] at h
    obtain ⟨calls', hs, rfl, rfl⟩ := h
    exact Or.inr ⟨hl, rfl, hs⟩
  · rename_i hl
    simp only [Option.some.injEq, Prod.mk.injEq] at h
    obtain ⟨rfl, rfl⟩ := h
    exact Or.inl ⟨hl, rfl, rfl⟩

theorem electionTick_cases {me : Fin n} {request : Option (RequestVoteArgs n)}
    (h : electionTick me rf = some (rf', request)) :
    (rf.state = .leader ∧ rf' = { rf with electionTime := false } ∧ request = none) ∨
      (rf.state ≠ .leader ∧
        rf' = { rf.persist with
          currentTerm := rf.currentTerm + 1, state := .candidate, votedFor := some me
          electionTime := true } ∧
        ∃ last, rf.lastLogIndex = some last ∧
          request = some ⟨rf.currentTerm + 1, me, last, rf.lastLogTerm⟩) := by
  unfold electionTick at h
  dsimp only at h
  split at h
  · rename_i hl
    simp only [Option.bind_eq_bind, Option.bind_eq_some_iff, Option.some.injEq,
      Prod.mk.injEq] at h
    obtain ⟨last, hlast, rfl, rfl⟩ := h
    exact Or.inr ⟨hl, rfl, last, hlast, rfl⟩
  · rename_i hl
    simp only [Option.some.injEq, Prod.mk.injEq] at h
    obtain ⟨rfl, rfl⟩ := h
    exact Or.inl ⟨not_not.mp hl, rfl, rfl⟩

theorem applyLock_cases (h : rf.applyLock = some rf') :
    (rf.commitIndex ≤ rf.lastApplied ∧ rf' = { rf with applier := .waiting }) ∨
      (rf.lastApplied < rf.commitIndex ∧ ∃ base entries, rf.log[0]? = some base ∧
        GoSlice.slice rf.log (rf.lastApplied + 1 - base.index)
          (rf.commitIndex + 1 - base.index) = some entries ∧
        rf' = { rf with
          lastApplied := rf.commitIndex, applier := .sending entries }) := by
  unfold applyLock at h
  split at h
  · rename_i hlt
    simp only [GoSlice.get_zero, Option.bind_eq_bind, Option.bind_eq_some_iff] at h
    obtain ⟨base, hb, entries, he, h⟩ := h
    exact Or.inr ⟨hlt, base, entries, hb, he, (Option.some.inj h).symm⟩
  · rename_i hlt
    exact Or.inl ⟨Int.not_lt.mp hlt, (Option.some.inj h).symm⟩

/-- The two states differ at most in the heartbeat timer and in what leaders and
the applier keep: indices, notifications and messages. -/
structure SameCore (rf rf' : Raft n α) : Prop where
  persister : rf'.persister = rf.persister
  dead : rf'.dead = rf.dead
  currentTerm : rf'.currentTerm = rf.currentTerm
  votedFor : rf'.votedFor = rf.votedFor
  log : rf'.log = rf.log
  state : rf'.state = rf.state
  electionTime : rf'.electionTime = rf.electionTime

theorem SameCore.refl (rf : Raft n α) : rf.SameCore rf :=
  ⟨rfl, rfl, rfl, rfl, rfl, rfl, rfl⟩

theorem acknowledge_sameCore (rf : Raft n α) (server : Fin n) (expected : Int)
    (args : AppendEntriesArgs n α) :
    rf.SameCore (rf.acknowledge server expected args) := by
  rcases acknowledge_cases rf server expected args with ⟨_, h⟩ | h <;>
    rw [h] <;> exact ⟨rfl, rfl, rfl, rfl, rfl, rfl, rfl⟩

theorem advanceCommit_sameCore {me server : Fin n}
    (h : advanceCommit me rf server = some rf') : rf.SameCore rf' := by
  obtain ⟨_, _, _, _, rfl | ⟨_, _, rfl⟩⟩ := advanceCommit_cases h
  · exact .refl rf'
  · exact ⟨rfl, rfl, rfl, rfl, rfl, rfl, rfl⟩

theorem SameCore.trans {rf₁ rf₂ rf₃ : Raft n α} (h : rf₁.SameCore rf₂)
    (h' : rf₂.SameCore rf₃) : rf₁.SameCore rf₃ :=
  ⟨h'.1.trans h.1, h'.2.trans h.2, h'.3.trans h.3, h'.4.trans h.4, h'.5.trans h.5,
    h'.6.trans h.6, h'.7.trans h.7⟩

end Raft
end RaftLab
