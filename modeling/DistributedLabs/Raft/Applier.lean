import DistributedLabs.Raft.Bounds

/-!
What the other goroutines of a peer do to its applier, and what the applier puts on
`applyCh`. A handler moves `commitIndex` only forward and only with a notification; the
applier takes the entries from `lastApplied + 1` to `commitIndex`, so that the messages
and the entries still to be sent are the indices from 1 to `lastApplied`.
-/

namespace RaftLab

variable {n : Nat} {α : Type}

namespace Raft

variable {me : Fin n} {rf rf' : Raft n α}

/-- The critical section of a handler, as the applier sees it: the applier's own fields
stay, and `commitIndex` stays as well unless a notification is sent. -/
structure HandlerStep (rf rf' : Raft n α) : Prop where
  applier : rf'.applier = rf.applier
  applyCh : rf'.applyCh = rf.applyCh
  lastApplied : rf'.lastApplied = rf.lastApplied
  notified : (rf'.commitIndex = rf.commitIndex ∧
      rf'.hasCommittedChan = rf.hasCommittedChan) ∨
    rf'.hasCommittedChan = rf.hasCommittedChan + 1

/-- A critical section that neither moves `commitIndex` nor concerns the applier. -/
structure Silent (rf rf' : Raft n α) : Prop where
  applier : rf'.applier = rf.applier
  applyCh : rf'.applyCh = rf.applyCh
  lastApplied : rf'.lastApplied = rf.lastApplied
  commitIndex : rf'.commitIndex = rf.commitIndex
  hasCommittedChan : rf'.hasCommittedChan = rf.hasCommittedChan

theorem Silent.refl (rf : Raft n α) : Silent rf rf :=
  ⟨rfl, rfl, rfl, rfl, rfl⟩

theorem Silent.handlerStep (h : Silent rf rf') : HandlerStep rf rf' :=
  ⟨h.applier, h.applyCh, h.lastApplied, Or.inl ⟨h.commitIndex, h.hasCommittedChan⟩⟩

theorem observeTerm_silent (rf : Raft n α) (term : Int) :
    Silent rf (rf.observeTerm term) := by
  unfold observeTerm
  split
  · exact ⟨rfl, rfl, rfl, rfl, rfl⟩
  · exact .refl rf

theorem acknowledge_silent (rf : Raft n α) (server : Fin n) (expected : Int)
    (args : AppendEntriesArgs n α) : Silent rf (rf.acknowledge server expected args) := by
  unfold acknowledge
  split
  · exact ⟨rfl, rfl, rfl, rfl, rfl⟩
  · exact .refl rf

theorem appendEntries_handlerStep {request : AppendEntriesArgs n α}
    {response : AppendEntriesReply} (h : rf.appendEntries request = some (rf', response)) :
    HandlerStep rf rf' := by
  rcases appendEntries_cases h with ⟨_, rfl, _⟩ | ⟨hle, rf₁, hacc, rfl⟩
  · exact ⟨rfl, rfl, rfl, Or.inl ⟨rfl, rfl⟩⟩
  · rw [followLeader_of_le hle] at hacc
    rcases acceptEntries_cases hacc with ⟨_, rfl⟩ | ⟨_, _, _, _, _, hcommit⟩
    · exact ⟨rfl, rfl, rfl, Or.inl ⟨rfl, rfl⟩⟩
    · rcases hcommit with ⟨_, rfl⟩ | ⟨_, _, _, rfl⟩
      · exact ⟨rfl, rfl, rfl, Or.inl ⟨rfl, rfl⟩⟩
      · exact ⟨rfl, rfl, rfl, Or.inr rfl⟩

theorem respAppendEntries_handlerStep {server : Fin n} {inc : Nat} {expected : Int}
    {args : AppendEntriesArgs n α} {reply : AppendEntriesReply}
    {calls : List (AppendCall n α)}
    (h : respAppendEntries me inc rf server expected args reply = some (rf', calls)) :
    HandlerStep rf rf' := by
  rcases respAppendEntries_cases h with ⟨_, rfl, _⟩ | ⟨_, _, hcase⟩
  · exact (Silent.refl _).handlerStep
  rcases hcase with ⟨_, rfl, _⟩ | ⟨_, _, _, hadv⟩ | ⟨_, _, rfl, _⟩
  · exact ⟨rfl, rfl, rfl, Or.inl ⟨rfl, rfl⟩⟩
  · have hack := acknowledge_silent rf server expected args
    obtain ⟨_, _, _, _, hadv⟩ := advanceCommit_cases hadv
    rcases hadv with rfl | ⟨_, _, rfl⟩
    · exact hack.handlerStep
    · refine ⟨hack.applier, hack.applyCh, hack.lastApplied, Or.inr ?_⟩
      rw [← hack.hasCommittedChan]
  · exact ⟨rfl, rfl, rfl, Or.inl ⟨rfl, rfl⟩⟩

end Raft

/-- What an event does to peer `i`, a restart of the peer apart, as far as `commitIndex`
and the applier go. -/
inductive IndexStep (s : System n α) (i : Fin n) : Event n α → Raft n α → Prop
  | silent {e : Event n α} {rf' : Raft n α} :
      (s.rafts i).Silent rf' → IndexStep s i e rf'
  | appendEntries {k : Nat} {c : AppendCall n α} {rf' : Raft n α}
      {response : AppendEntriesReply} :
      s.appends[k]? = some c → c.server = i →
        (s.rafts i).appendEntries c.args = some (rf', response) →
        IndexStep s i (.appendEntries k) rf'
  | appendReply {k : Nat} {c : AppendCall n α} {reply : AppendEntriesReply}
      {rf' : Raft n α} {calls : List (AppendCall n α)} :
      s.appends[k]? = some c → c.leader = i →
        (s.rafts i).respAppendEntries i (s.incarnation i) c.server c.expectedNextIndex c.args
          reply = some (rf', calls) → IndexStep s i (.appendReply k) rf'
  | lock {rf' : Raft n α} : (s.rafts i).applier = .top →
      (s.rafts i).applyLock = some rf' → IndexStep s i (.applyLock i) rf'
  | receive : (s.rafts i).applier = .waiting →
      IndexStep s i (.applyReceive i) { s.rafts i with
        hasCommittedChan := (s.rafts i).hasCommittedChan - 1, applier := .top }
  | send {entries : List (LogEntry α)} : (s.rafts i).applier = .sending entries →
      IndexStep s i (.applySend i) ((s.rafts i).applySend entries)

theorem indexStep_update {s : System n α} {j : Fin n} {e : Event n α} {rf' : Raft n α}
    (hj : IndexStep s j e rf') (i : Fin n) :
    IndexStep s i e (Function.update s.rafts j rf' i) := by
  by_cases h : i = j
  · subst h
    simpa using hj
  · rw [Function.update_of_ne h]
    exact .silent (.refl _)

theorem effect_indexStep {s s' : System n α} {e : Event n α} {i : Fin n}
    (h : s.Effect e s') (hr : e ≠ .restart i) : IndexStep s i e (s'.rafts i) := by
  cases h with
  | panic _ | sendAppend _ _ _ _ | callFails _ _ => exact .silent (.refl _)
  | heartbeatTick h =>
      apply indexStep_update
      rcases Raft.heartbeatTick_cases h with ⟨_, rfl, _⟩ | ⟨_, rfl, _⟩
      · exact .silent ⟨rfl, rfl, rfl, rfl, rfl⟩
      · exact .silent ⟨rfl, rfl, rfl, rfl, rfl⟩
  | lead h | stand h =>
      apply indexStep_update
      rcases Raft.electionTick_cases h with ⟨_, rfl, _⟩ | ⟨_, rfl, _⟩
      · exact .silent ⟨rfl, rfl, rfl, rfl, rfl⟩
      · exact .silent ⟨rfl, rfl, rfl, rfl, rfl⟩
  | start h =>
      apply indexStep_update
      rcases Raft.start_cases h with ⟨_, rfl, _⟩ | ⟨_, _, _, _, rfl, _⟩
      · exact .silent (.refl _)
      · exact .silent ⟨rfl, rfl, rfl, rfl, rfl⟩
  | @requestVote _ peer el _ _ _ _ h =>
      apply indexStep_update
      have hobs := (s.rafts peer).observeTerm_silent el.request.term
      obtain ⟨_, ⟨_, _, rfl⟩ | ⟨_, _, rfl⟩⟩ := Raft.requestVote_cases h
      · exact .silent ⟨hobs.1, hobs.2, hobs.3, hobs.4, hobs.5⟩
      · exact .silent hobs
  | voteReply _ _ h =>
      apply indexStep_update
      rcases Raft.countVote_cases h with ⟨rfl, _⟩ | ⟨_, _, _, rfl, _⟩ |
        ⟨_, _, _, rfl, _⟩ | ⟨_, _, rfl, _⟩
      · exact .silent (.refl _)
      · exact .silent ⟨rfl, rfl, rfl, rfl, rfl⟩
      · exact .silent (.refl _)
      · exact .silent ⟨rfl, rfl, rfl, rfl, rfl⟩
  | dropAppend _ _ | unwind _ _ | kill =>
      apply indexStep_update
      exact .silent ⟨rfl, rfl, rfl, rfl, rfl⟩
  | appendEntries hc _ h =>
      apply indexStep_update
      exact .appendEntries hc rfl h
  | appendReply hc _ _ h =>
      apply indexStep_update
      exact .appendReply hc rfl h
  | applyLock ht h =>
      apply indexStep_update
      exact .lock ht h
  | applyReceive h =>
      apply indexStep_update
      exact .receive h
  | applySend h =>
      apply indexStep_update
      exact .send h
  | @restart j =>
      have hne : i ≠ j := by
        intro h
        exact hr (by rw [h])
      change IndexStep s i _ (Function.update s.rafts j _ i)
      rw [Function.update_of_ne hne]
      exact .silent (.refl _)

/-- No event moves the `commitIndex` of a peer back, a restart of the peer apart. -/
theorem IndexStep.commitIndex_le {s : System n α} {i : Fin n} {e : Event n α}
    {rf' : Raft n α} (h : IndexStep s i e rf') (hb : Bounds s) :
    (s.rafts i).commitIndex ≤ rf'.commitIndex := by
  cases h with
  | silent h => exact Int.le_of_eq h.commitIndex.symm
  | appendEntries hc _ h => exact ((hb.peer i).appendEntries (hb.callOk hc).carries h).2
  | appendReply _ _ h => exact ((hb.peer i).respAppendEntries h).2
  | lock _ h =>
      rcases Raft.applyLock_cases h with ⟨_, rfl⟩ | ⟨_, _, _, _, _, rfl⟩
      · exact Int.le_refl _
      · exact Int.le_refl _
  | receive _ => exact Int.le_refl _
  | @send entries _ => cases entries <;> exact Int.le_refl _

namespace Raft

/-- The entries that the applier has taken and not yet put on `applyCh`. -/
def pending (rf : Raft n α) : List (LogEntry α) :=
  match rf.applier with
  | .sending entriesToApply => entriesToApply
  | _ => []

/-- What is on `applyCh` and what is about to follow are the indices from 1 to
`lastApplied`, in order. -/
structure Paced (rf : Raft n α) : Prop where
  applied : rf.lastApplied ≤ rf.commitIndex
  count : (rf.applyCh.length : Int) + rf.pending.length = rf.lastApplied
  sent : ∀ (j : Nat) (m : ApplyMsg α), rf.applyCh[j]? = some m → m.commandIndex = j + 1
  next : ∀ (j : Nat) (e : LogEntry α), rf.pending[j]? = some e →
    e.index = rf.applyCh.length + 1 + j

variable {rf rf' : Raft n α}

theorem Paced.make (persister : Option (Persisted n α)) : Paced (Raft.make persister) := by
  cases persister with
  | none => exact ⟨Int.le_refl 0, rfl, by simp [Raft.make, readPersist], by
      simp [pending, Raft.make, readPersist]⟩
  | some p => exact ⟨Int.le_refl 0, rfl, by simp [Raft.make, readPersist], by
      simp [pending, Raft.make, readPersist]⟩

/-- A handler that leaves the applier alone and does not move `commitIndex` back. -/
theorem Paced.handler (h : Paced rf) (happlier : rf'.applier = rf.applier)
    (hch : rf'.applyCh = rf.applyCh) (happlied : rf'.lastApplied = rf.lastApplied)
    (hcommit : rf.commitIndex ≤ rf'.commitIndex) : Paced rf' := by
  have hpending : rf'.pending = rf.pending := by
    unfold pending
    rw [happlier]
  refine ⟨?_, ?_, ?_, ?_⟩
  · rw [happlied]
    exact Int.le_trans h.applied hcommit
  · rw [hch, hpending, happlied]
    exact h.count
  · rw [hch]
    exact h.sent
  · rw [hch, hpending]
    exact h.next

theorem Paced.lock (h : Paced rf) (hlog : LogOk rf.log) (htop : rf.applier = .top)
    (hlock : rf.applyLock = some rf') : Paced rf' := by
  have hpending : rf.pending = [] := by
    unfold pending
    rw [htop]
  have hcount := h.count
  rw [hpending] at hcount
  rcases applyLock_cases hlock with ⟨_, rfl⟩ | ⟨hlt, base, entries, hbase, hslice, rfl⟩
  · exact ⟨h.applied, hcount, h.sent, by simp [pending]⟩
  · rw [hlog.zero] at hbase
    obtain rfl := Option.some.inj hbase
    simp only [sentinel, Int.sub_zero] at hslice
    refine ⟨Int.le_refl _, ?_, h.sent, ?_⟩
    · have hlen := GoSlice.slice_length hslice
      simp only [pending, List.length_nil, Int.natCast_zero] at hcount ⊢
      omega
    · intro j e hj
      obtain ⟨k, hk, _, hke⟩ := GoSlice.slice_getElem hslice hj
      rw [hlog.index k e hke]
      simp only [List.length_nil] at hcount ⊢
      omega

theorem Paced.send {entries : List (LogEntry α)} (h : Paced rf)
    (hs : rf.applier = .sending entries) : Paced (rf.applySend entries) := by
  have hpending : rf.pending = entries := by
    unfold pending
    rw [hs]
  have hcount := h.count
  have hnext := h.next
  rw [hpending] at hcount hnext
  cases entries with
  | nil => exact ⟨h.applied, hcount, h.sent, by simp [pending, applySend]⟩
  | cons e rest =>
      refine ⟨h.applied, ?_, ?_, ?_⟩
      · simp only [applySend, pending, List.length_append, List.length_cons,
          List.length_nil] at hcount ⊢
        omega
      · intro j m hj
        simp only [applySend] at hj
        by_cases hlt : j < rf.applyCh.length
        · rw [List.getElem?_append_left hlt] at hj
          exact h.sent j m hj
        · rw [List.getElem?_append_right (Nat.le_of_not_lt hlt)] at hj
          obtain ⟨hj0, rfl⟩ := List.getElem?_eq_some_iff.mp hj
          have hfirst := hnext 0 e rfl
          simp only [List.length_singleton] at hj0
          simp only [List.getElem_singleton]
          omega
      · intro j x hj
        have hx := hnext (j + 1) x hj
        simp only [applySend, List.length_append, List.length_singleton]
        omega

end Raft

theorem IndexStep.paced {s : System n α} {i : Fin n} {e : Event n α} {rf' : Raft n α}
    (h : IndexStep s i e rf') (hb : Bounds s) (hp : (s.rafts i).Paced) : rf'.Paced := by
  have hcommit := h.commitIndex_le hb
  cases h with
  | silent h => exact hp.handler h.applier h.applyCh h.lastApplied hcommit
  | appendEntries _ _ h =>
      have hstep := Raft.appendEntries_handlerStep h
      exact hp.handler hstep.applier hstep.applyCh hstep.lastApplied hcommit
  | appendReply _ _ h =>
      have hstep := Raft.respAppendEntries_handlerStep h
      exact hp.handler hstep.applier hstep.applyCh hstep.lastApplied hcommit
  | lock htop h => exact hp.lock (hb.peer i).log htop h
  | receive hw =>
      have hpending : (s.rafts i).pending = [] := by
        unfold Raft.pending
        rw [hw]
      have hcount := hp.count
      rw [hpending] at hcount
      exact ⟨hp.applied, hcount, hp.sent, by simp [Raft.pending]⟩
  | send hs => exact hp.send hs

end RaftLab
