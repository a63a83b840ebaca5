import DistributedLabs.Raft.Effects

/-!
Inversion of `System.step`: every enabled event is a panic of one peer or runs
one critical section and records its messages. `Touch` is the view of a single
peer, for properties that speak of one peer's fields only.
-/

namespace RaftLab

open TermLog (Role)

variable {n : Nat} {α : Type}

namespace System

/-- Event `e` makes peer `i` index or slice its log out of range. -/
inductive Panics (s : System n α) : Event n α → Fin n → Prop
  | heartbeatTick {i : Fin n} :
      (s.rafts i).heartbeatTick i (s.incarnation i) = none → Panics s (.heartbeatTick i) i
  | electionTick {i : Fin n} :
      (s.rafts i).electionTick i = none → Panics s (.electionTick i) i
  | start {i : Fin n} {command : Option α} :
      (s.rafts i).start i (s.incarnation i) command = none →
        Panics s (.start i command) i
  | requestVote {k : Nat} {peer : Fin n} {el : Election n} :
      s.elections[k]? = some el → el.peers peer = .request →
        (s.rafts peer).requestVote el.request = none → Panics s (.requestVote k peer) peer
  | voteReply {k : Nat} {peer : Fin n} {el : Election n} {response : RequestVoteReply} :
      s.elections[k]? = some el → el.peers peer = .reply response →
        (s.rafts el.candidate).countVote el.candidate (s.incarnation el.candidate)
          el.request el.totalVotes response = none →
        Panics s (.voteReply k peer) el.candidate
  | appendEntries {k : Nat} {c : AppendCall n α} :
      s.appends[k]? = some c → c.wire = .request →
        (s.rafts c.server).appendEntries c.args = none →
        Panics s (.appendEntries k) c.server
  | appendReply {k : Nat} {c : AppendCall n α} {reply : AppendEntriesReply} :
      s.appends[k]? = some c → c.wire = .reply reply → c.caller = .calling →
        (s.rafts c.leader).respAppendEntries c.leader (s.incarnation c.leader) c.server
          c.expectedNextIndex c.args reply = none →
        Panics s (.appendReply k) c.leader
  | applyLock {i : Fin n} :
      (s.rafts i).applier = .top → (s.rafts i).applyLock = none → Panics s (.applyLock i) i

/-- Every way an event changes the cluster. -/
inductive Effect (s : System n α) : Event n α → System n α → Prop
  | panic {e : Event n α} {i : Fin n} : s.Panics e i → Effect s e (s.panic i)
  | heartbeatTick {i : Fin n} {rf' : Raft n α} {calls : List (AppendCall n α)} :
      (s.rafts i).heartbeatTick i (s.incarnation i) = some (rf', calls) →
        Effect s (.heartbeatTick i) ((s.setRaft i rf').spawn calls)
  | lead {i : Fin n} {rf' : Raft n α} :
      (s.rafts i).electionTick i = some (rf', none) →
        Effect s (.electionTick i) (s.setRaft i rf')
  | stand {i : Fin n} {rf' : Raft n α} {request : RequestVoteArgs n} :
      (s.rafts i).electionTick i = some (rf', some request) →
        Effect s (.electionTick i) { s.setRaft i rf' with
          elections := s.elections ++ [conductElection i (s.incarnation i) request] }
  | start {i : Fin n} {command : Option α} {rf' : Raft n α}
      {calls : List (AppendCall n α)} {index term : Int} {isLeader : Bool} :
      (s.rafts i).start i (s.incarnation i) command =
          some (rf', calls, index, term, isLeader) →
        Effect s (.start i command) { (s.setRaft i rf').spawn calls with
          starts := s.starts ++ [⟨i, command, index, term, isLeader⟩] }
  | requestVote {k : Nat} {peer : Fin n} {el : Election n} {rf' : Raft n α}
      {reply : RequestVoteReply} :
      s.elections[k]? = some el → el.peers peer = .request →
        (s.rafts peer).requestVote el.request = some (rf', reply) →
        Effect s (.requestVote k peer) ((s.setRaft peer rf').setElection k
          { el with peers := Function.update el.peers peer (.reply reply) })
  | voteReply {k : Nat} {peer : Fin n} {el : Election n} {response : RequestVoteReply}
      {rf' : Raft n α} {totalVotes : Nat} {calls : List (AppendCall n α)} :
      s.elections[k]? = some el → el.peers peer = .reply response →
        (s.rafts el.candidate).countVote el.candidate (s.incarnation el.candidate)
          el.request el.totalVotes response = some (rf', totalVotes, calls) →
        Effect s (.voteReply k peer) (((s.setRaft el.candidate rf').setElection k
          { el with
            totalVotes := totalVotes
            peers := Function.update el.peers peer .closed }).spawn calls)
  | sendAppend {k : Nat} {c : AppendCall n α} :
      s.appends[k]? = some c → c.caller = .spawned →
        (s.rafts c.leader).state = .leader →
        c.args.term = (s.rafts c.leader).currentTerm →
        Effect s (.handleAppend k)
          (s.setCall k { c with caller := .calling, wire := .request })
  | dropAppend {k : Nat} {c : AppendCall n α} :
      s.appends[k]? = some c → c.caller = .spawned →
        Effect s (.handleAppend k)
          ((s.setRaft c.leader (s.rafts c.leader).persist).setCall k
            { c with caller := .done })
  | appendEntries {k : Nat} {c : AppendCall n α} {rf' : Raft n α}
      {response : AppendEntriesReply} :
      s.appends[k]? = some c → c.wire = .request →
        (s.rafts c.server).appendEntries c.args = some (rf', response) →
        Effect s (.appendEntries k)
          ((s.setRaft c.server rf').setCall k { c with wire := .reply response })
  | appendReply {k : Nat} {c : AppendCall n α} {reply : AppendEntriesReply}
      {rf' : Raft n α} {calls : List (AppendCall n α)} :
      s.appends[k]? = some c → c.wire = .reply reply → c.caller = .calling →
        (s.rafts c.leader).respAppendEntries c.leader (s.incarnation c.leader) c.server
          c.expectedNextIndex c.args reply = some (rf', calls) →
        Effect s (.appendReply k) (((s.setRaft c.leader rf').setCall k
          { c with caller := .unwinding, wire := .closed }).spawn calls)
  | callFails {k : Nat} {c : AppendCall n α} :
      s.appends[k]? = some c → c.caller = .calling →
        Effect s (.callFails k) (s.setCall k { c with caller := .unwinding })
  | unwind {k : Nat} {c : AppendCall n α} :
      s.appends[k]? = some c → c.caller = .unwinding →
        Effect s (.unwind k) ((s.setRaft c.leader (s.rafts c.leader).persist).setCall k
          { c with caller := .done })
  | applyLock {i : Fin n} {rf' : Raft n α} :
      (s.rafts i).applier = .top → (s.rafts i).applyLock = some rf' →
        Effect s (.applyLock i) (s.setRaft i rf')
  | applyReceive {i : Fin n} :
      (s.rafts i).applier = .waiting →
        Effect s (.applyReceive i) (s.setRaft i { s.rafts i with
          hasCommittedChan := (s.rafts i).hasCommittedChan - 1, applier := .top })
  | applySend {i : Fin n} {entries : List (LogEntry α)} :
      (s.rafts i).applier = .sending entries →
        Effect s (.applySend i) (s.setRaft i ((s.rafts i).applySend entries))
  | kill {i : Fin n} : Effect s (.kill i) (s.setRaft i { s.rafts i with dead := true })
  | restart {i : Fin n} :
      Effect s (.restart i) { s.setRaft i (Raft.make (s.rafts i).persister) with
        incarnation := Function.update s.incarnation i (s.incarnation i + 1) }

variable {s s' : System n α} {e : Event n α}

theorem stepHeartbeatTick_effect {i : Fin n} (h : s.stepHeartbeatTick i = some s') :
    s.Effect (.heartbeatTick i) s' := by
  simp only [stepHeartbeatTick] at h
  split at h
  · split at h
    · rename_i hn
      obtain rfl := Option.some.inj h
      exact .panic (.heartbeatTick hn)
    · rename_i hs
      obtain rfl := Option.some.inj h
      exact .heartbeatTick hs
  · cases h

theorem stepElectionTick_effect {i : Fin n} (h : s.stepElectionTick i = some s') :
    s.Effect (.electionTick i) s' := by
  simp only [stepElectionTick] at h
  split at h
  · split at h
    · rename_i hn
      obtain rfl := Option.some.inj h
      exact .panic (.electionTick hn)
    · rename_i hs
      obtain rfl := Option.some.inj h
      exact .lead hs
    · rename_i hs
      obtain rfl := Option.some.inj h
      exact .stand hs
  · cases h

theorem stepStart_effect {i : Fin n} {command : Option α}
    (h : s.stepStart i command = some s') : s.Effect (.start i command) s' := by
  unfold stepStart at h
  split at h
  · split at h
    · rename_i hn
      obtain rfl := Option.some.inj h
      exact .panic (.start hn)
    · rename_i hs
      obtain rfl := Option.some.inj h
      exact .start hs
  · cases h

theorem stepRequestVote_effect {k : Nat} {peer : Fin n}
    (h : s.stepRequestVote k peer = some s') : s.Effect (.requestVote k peer) s' := by
  unfold stepRequestVote at h
  split at h
  · cases h
  · rename_i el hel
    split at h
    · rename_i hg
      split at h
      · rename_i hn
        obtain rfl := Option.some.inj h
        exact .panic (.requestVote hel hg.1 hn)
      · rename_i hs
        obtain rfl := Option.some.inj h
        exact .requestVote hel hg.1 hs
    · cases h

theorem stepVoteReply_effect {k : Nat} {peer : Fin n}
    (h : s.stepVoteReply k peer = some s') : s.Effect (.voteReply k peer) s' := by
  unfold stepVoteReply at h
  split at h
  · cases h
  · rename_i el hel
    split at h
    · rename_i response hr
      split at h
      · split at h
        · rename_i hn
          obtain rfl := Option.some.inj h
          exact .panic (.voteReply hel hr hn)
        · rename_i hs
          obtain rfl := Option.some.inj h
          exact .voteReply hel hr hs
      · cases h
    · cases h

theorem stepHandleAppend_effect {k : Nat} (h : s.stepHandleAppend k = some s') :
    s.Effect (.handleAppend k) s' := by
  unfold stepHandleAppend at h
  split at h
  · cases h
  · rename_i c hc
    split at h
    · rename_i hg
      split at h
      rename_i rf' sends hr
      obtain rfl := Option.some.inj h
      unfold Raft.handleAppendEntries at hr
      split at hr
      · rename_i hl
        obtain ⟨rfl, rfl⟩ := Prod.mk.inj hr
        simpa [setRaft] using Effect.sendAppend hc hg.1 hl.1 hl.2
      · obtain ⟨rfl, rfl⟩ := Prod.mk.inj hr
        exact .dropAppend hc hg.1
    · cases h

theorem stepAppendEntries_effect {k : Nat} (h : s.stepAppendEntries k = some s') :
    s.Effect (.appendEntries k) s' := by
  unfold stepAppendEntries at h
  split at h
  · cases h
  · rename_i c hc
    split at h
    · rename_i hg
      split at h
      · rename_i hn
        obtain rfl := Option.some.inj h
        exact .panic (.appendEntries hc hg.1 hn)
      · rename_i hs
        split at h
        · obtain rfl := Option.some.inj h
          exact .appendEntries hc hg.1 hs
        · cases h
    · cases h

theorem stepAppendReply_effect {k : Nat} (h : s.stepAppendReply k = some s') :
    s.Effect (.appendReply k) s' := by
  unfold stepAppendReply at h
  split at h
  · cases h
  · rename_i c hc
    split at h
    · rename_i reply hr
      split at h
      · rename_i hg
        split at h
        · rename_i hn
          obtain rfl := Option.some.inj h
          exact .panic (.appendReply hc hr hg.1 hn)
        · rename_i hs
          split at h
          · obtain rfl := Option.some.inj h
            exact .appendReply hc hr hg.1 hs
          · cases h
      · cases h
    · cases h

theorem stepCallFails_effect {k : Nat} (h : s.stepCallFails k = some s') :
    s.Effect (.callFails k) s' := by
  unfold stepCallFails at h
  split at h
  · cases h
  · rename_i c hc
    split at h
    · rename_i hg
      obtain rfl := Option.some.inj h
      exact .callFails hc hg.1
    · cases h

theorem stepUnwind_effect {k : Nat} (h : s.stepUnwind k = some s') :
    s.Effect (.unwind k) s' := by
  unfold stepUnwind at h
  split at h
  · cases h
  · rename_i c hc
    split at h
    · rename_i hg
      obtain rfl := Option.some.inj h
      exact .unwind hc hg.1
    · cases h

theorem stepApplyLock_effect {i : Fin n} (h : s.stepApplyLock i = some s') :
    s.Effect (.applyLock i) s' := by
  unfold stepApplyLock at h
  split at h
  · rename_i ht
    split at h
    · split at h
      · rename_i hn
        obtain rfl := Option.some.inj h
        exact .panic (.applyLock ht hn)
      · rename_i hs
        obtain rfl := Option.some.inj h
        exact .applyLock ht hs
    · cases h
  · cases h

theorem stepApplyReceive_effect {i : Fin n} (h : s.stepApplyReceive i = some s') :
    s.Effect (.applyReceive i) s' := by
  unfold stepApplyReceive at h
  split at h
  · rename_i hw
    split at h
    · obtain rfl := Option.some.inj h
      exact .applyReceive hw
    · cases h
  · cases h

theorem stepApplySend_effect {i : Fin n} (h : s.stepApplySend i = some s') :
    s.Effect (.applySend i) s' := by
  unfold stepApplySend at h
  split at h
  · rename_i entries hs
    split at h
    · obtain rfl := Option.some.inj h
      exact .applySend hs
    · cases h
  · cases h

theorem stepRestart_effect {i : Fin n} (h : s.stepRestart i = some s') :
    s.Effect (.restart i) s' := by
  unfold stepRestart at h
  split at h
  · obtain rfl := Option.some.inj h
    exact .restart
  · cases h

theorem step_effect (h : s.step e = some s') : s.Effect e s' := by
  cases e with
  | heartbeatTick i => exact stepHeartbeatTick_effect h
  | electionTick i => exact stepElectionTick_effect h
  | start i command => exact stepStart_effect h
  | requestVote k peer => exact stepRequestVote_effect h
  | voteReply k peer => exact stepVoteReply_effect h
  | handleAppend k => exact stepHandleAppend_effect h
  | appendEntries k => exact stepAppendEntries_effect h
  | appendReply k => exact stepAppendReply_effect h
  | callFails k => exact stepCallFails_effect h
  | unwind k => exact stepUnwind_effect h
  | applyLock i => exact stepApplyLock_effect h
  | applyReceive i => exact stepApplyReceive_effect h
  | applySend i => exact stepApplySend_effect h
  | kill i =>
      obtain rfl := Option.some.inj h
      exact .kill
  | restart i => exact stepRestart_effect h

/-- What an event can do to peer `i`, up to the fields `SameCore` ignores. -/
inductive Touch (s : System n α) (i : Fin n) : Event n α → Raft n α → Prop
  | idle {e : Event n α} : Touch s i e (s.rafts i)
  | persist {e : Event n α} : Touch s i e (s.rafts i).persist
  | lead : (s.rafts i).state = .leader →
      Touch s i (.electionTick i) { s.rafts i with electionTime := false }
  | stand : (s.rafts i).state ≠ .leader →
      Touch s i (.electionTick i) { (s.rafts i).persist with
        currentTerm := (s.rafts i).currentTerm + 1, state := .candidate
        votedFor := some i, electionTime := true }
  | start {command : Option α} {entry : LogEntry α} : (s.rafts i).state = .leader →
      Touch s i (.start i command)
        { (s.rafts i).persist with log := (s.rafts i).log ++ [entry] }
  | refuse {k : Nat} {el : Election n} :
      s.elections[k]? = some el → el.peers i = .request →
        ¬ (s.rafts i).Grants el.request →
        Touch s i (.requestVote k i) ((s.rafts i).observeTerm el.request.term)
  | grant {k : Nat} {el : Election n} :
      s.elections[k]? = some el → el.peers i = .request →
        (s.rafts i).Grants el.request →
        Touch s i (.requestVote k i) { (s.rafts i).observeTerm el.request.term with
          votedFor := some el.request.candidateId, electionTime := true }
  | lose {k : Nat} {peer : Fin n} {el : Election n} {response : RequestVoteReply} :
      s.elections[k]? = some el → el.candidate = i → el.peers peer = .reply response →
        (s.rafts i).state = .candidate → (s.rafts i).currentTerm = el.request.term →
        (s.rafts i).currentTerm < response.term →
        Touch s i (.voteReply k peer) ((s.rafts i).stepDown response.term)
  | win {k : Nat} {peer : Fin n} {el : Election n} {response : RequestVoteReply} :
      s.elections[k]? = some el → el.candidate = i → el.peers peer = .reply response →
        (s.rafts i).Wins el.request el.totalVotes response →
        Touch s i (.voteReply k peer) { s.rafts i with state := .leader }
  | follow {k : Nat} {c : AppendCall n α} {log : List (LogEntry α)} :
      s.appends[k]? = some c → c.server = i → c.wire = .request →
        (s.rafts i).currentTerm ≤ c.args.term →
        Touch s i (.appendEntries k)
          (Raft.persist { (s.rafts i).followLeader c.args.term with log := log })
  | retire {k : Nat} {c : AppendCall n α} {reply : AppendEntriesReply} :
      s.appends[k]? = some c → c.leader = i → c.wire = .reply reply →
        (s.rafts i).state = .leader → c.args.term = (s.rafts i).currentTerm →
        (s.rafts i).currentTerm < reply.term →
        Touch s i (.appendReply k) ((s.rafts i).stepDown reply.term)
  | kill : Touch s i (.kill i) { s.rafts i with dead := true }
  | restart : Touch s i (.restart i) (Raft.make (s.rafts i).persister)

/-- The acting peer is touched by its critical section, the others stay idle. -/
theorem touch_update {j : Fin n} {rf' : Raft n α}
    (hj : ∃ rf, Touch s j e rf ∧ rf.SameCore rf') (i : Fin n) :
    ∃ rf, Touch s i e rf ∧ rf.SameCore (Function.update s.rafts j rf' i) := by
  by_cases h : i = j
  · subst h
    simpa using hj
  · rw [Function.update_of_ne h]
    exact ⟨_, .idle, .refl _⟩

theorem countVote_touch {k : Nat} {peer : Fin n} {el : Election n}
    {response : RequestVoteReply} {rf' : Raft n α} {totalVotes : Nat}
    {calls : List (AppendCall n α)} (hel : s.elections[k]? = some el)
    (hp : el.peers peer = .reply response)
    (h : (s.rafts el.candidate).countVote el.candidate (s.incarnation el.candidate)
      el.request el.totalVotes response = some (rf', totalVotes, calls)) :
    ∃ rf, Touch s el.candidate (.voteReply k peer) rf ∧ rf.SameCore rf' := by
  rcases Raft.countVote_cases h with ⟨rfl, _⟩ | ⟨hs, ht, hlt, rfl, _⟩ | ⟨_, _, _, rfl, _⟩ |
    ⟨hw, _, rfl, _⟩
  · exact ⟨_, .idle, .refl _⟩
  · exact ⟨_, .lose hel rfl hp hs ht hlt, .refl _⟩
  · exact ⟨_, .idle, .refl _⟩
  · exact ⟨_, .win hel rfl hp hw, ⟨rfl, rfl, rfl, rfl, rfl, rfl, rfl⟩⟩

theorem appendEntries_touch {k : Nat} {c : AppendCall n α} {rf' : Raft n α}
    {response : AppendEntriesReply} (hc : s.appends[k]? = some c)
    (hw : c.wire = .request)
    (h : (s.rafts c.server).appendEntries c.args = some (rf', response)) :
    ∃ rf, Touch s c.server (.appendEntries k) rf ∧ rf.SameCore rf' := by
  rcases Raft.appendEntries_cases h with ⟨_, rfl, _⟩ | ⟨hle, rf₁, hacc, rfl⟩
  · exact ⟨_, .persist, .refl _⟩
  · rcases Raft.acceptEntries_cases hacc with ⟨_, rfl⟩ | ⟨log, _, _, _, _, hcommit⟩
    · exact ⟨_, .follow hc rfl hw hle, .refl _⟩
    · rcases hcommit with ⟨_, rfl⟩ | ⟨_, _, _, rfl⟩
      · exact ⟨_, .follow hc rfl hw hle, .refl _⟩
      · exact ⟨_, .follow hc rfl hw hle, ⟨rfl, rfl, rfl, rfl, rfl, rfl, rfl⟩⟩

theorem respAppendEntries_touch {k : Nat} {c : AppendCall n α}
    {reply : AppendEntriesReply} {rf' : Raft n α} {calls : List (AppendCall n α)}
    (hc : s.appends[k]? = some c) (hw : c.wire = .reply reply)
    (h : (s.rafts c.leader).respAppendEntries c.leader (s.incarnation c.leader) c.server
      c.expectedNextIndex c.args reply = some (rf', calls)) :
    ∃ rf, Touch s c.leader (.appendReply k) rf ∧ rf.SameCore rf' := by
  rcases Raft.respAppendEntries_cases h with ⟨_, rfl, _⟩ | ⟨hs, ht, hcase⟩
  · exact ⟨_, .idle, .refl _⟩
  rcases hcase with ⟨hlt, rfl, _⟩ | ⟨_, _, _, hadv⟩ | ⟨_, _, rfl, _⟩
  · exact ⟨_, .retire hc rfl hw hs ht hlt, .refl _⟩
  · exact ⟨_, .idle,
      (Raft.acknowledge_sameCore _ _ _ _).trans (Raft.advanceCommit_sameCore hadv)⟩
  · exact ⟨_, .idle, ⟨rfl, rfl, rfl, rfl, rfl, rfl, rfl⟩⟩

theorem step_touch (h : s.step e = some s') (i : Fin n) :
    ∃ rf, Touch s i e rf ∧ rf.SameCore (s'.rafts i) := by
  cases step_effect h with
  | panic _ => exact ⟨_, .idle, .refl _⟩
  | heartbeatTick ht =>
      refine touch_update ?_ i
      rcases Raft.heartbeatTick_cases ht with ⟨_, rfl, _⟩ | ⟨_, rfl, _⟩ <;>
        exact ⟨_, .idle, ⟨rfl, rfl, rfl, rfl, rfl, rfl, rfl⟩⟩
  | lead ht =>
      refine touch_update ?_ i
      rcases Raft.electionTick_cases ht with ⟨hl, rfl, _⟩ | ⟨_, _, _, _, hr⟩
      · exact ⟨_, .lead hl, .refl _⟩
      · cases hr
  | stand ht =>
      refine touch_update ?_ i
      rcases Raft.electionTick_cases ht with ⟨_, _, hr⟩ | ⟨hl, rfl, _⟩
      · cases hr
      · exact ⟨_, .stand hl, .refl _⟩
  | start ht =>
      refine touch_update ?_ i
      rcases Raft.start_cases ht with ⟨_, rfl, _⟩ | ⟨hl, _, _, _, rfl, _⟩
      · exact ⟨_, .idle, .refl _⟩
      · exact ⟨_, .start hl, .refl _⟩
  | requestVote hel hp ht =>
      refine touch_update ?_ i
      obtain ⟨_, ⟨_, hg, rfl⟩ | ⟨_, hg, rfl⟩⟩ := Raft.requestVote_cases ht
      · exact ⟨_, .grant hel hp hg, .refl _⟩
      · exact ⟨_, .refuse hel hp hg, .refl _⟩
  | voteReply hel hp ht => exact touch_update (countVote_touch hel hp ht) i
  | sendAppend _ _ _ _ => exact ⟨_, .idle, .refl _⟩
  | dropAppend _ _ => exact touch_update ⟨_, .persist, .refl _⟩ i
  | appendEntries hc hw ht => exact touch_update (appendEntries_touch hc hw ht) i
  | appendReply hc hw _ ht => exact touch_update (respAppendEntries_touch hc hw ht) i
  | callFails _ _ => exact ⟨_, .idle, .refl _⟩
  | unwind _ _ => exact touch_update ⟨_, .persist, .refl _⟩ i
  | applyLock _ ht =>
      refine touch_update ?_ i
      rcases Raft.applyLock_cases ht with ⟨_, rfl⟩ | ⟨_, _, _, _, _, rfl⟩ <;>
        exact ⟨_, .idle, ⟨rfl, rfl, rfl, rfl, rfl, rfl, rfl⟩⟩
  | applyReceive _ =>
      refine touch_update ⟨_, .idle, ?_⟩ i
      exact ⟨rfl, rfl, rfl, rfl, rfl, rfl, rfl⟩
  | @applySend _ entries _ =>
      refine touch_update ⟨_, .idle, ?_⟩ i
      cases entries <;> exact ⟨rfl, rfl, rfl, rfl, rfl, rfl, rfl⟩
  | kill => exact touch_update ⟨_, .kill, .refl _⟩ i
  | restart => exact touch_update ⟨_, .restart, .refl _⟩ i

end System
end RaftLab
