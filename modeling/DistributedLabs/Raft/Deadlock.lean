import DistributedLabs.Raft.Notification

/-!
The send on `hasCommittedChan` under the lock. A handler that finds the channel full while
the applier is on its way to the lock waits for ever, and with it every later critical
section of the peer. Nothing else goes wrong: a peer whose applier is in the receive takes
a notification out of the full channel.
-/

namespace RaftLab

variable {n : Nat} {α : Type}

namespace Locked

variable {capacity : Nat} {m m' : Locked n α}

/-- The state a handler that may notify leaves its peer in. -/
def handled (m : Locked n α) : Event n α → Option (Fin n × Raft n α)
  | .appendEntries k => do
      let c ← m.sys.appends[k]?
      let (rf', _) ← (m.sys.rafts c.server).appendEntries c.args
      some (c.server, rf')
  | .appendReply k => do
      let c ← m.sys.appends[k]?
      let reply ← c.wire.response
      let (rf', _) ← (m.sys.rafts c.leader).respAppendEntries c.leader
        (m.sys.incarnation c.leader) c.server c.expectedNextIndex c.args reply
      some (c.leader, rf')
  | _ => none

/-- A handler notifies a peer whose channel is full only while the applier receives. -/
def NotifySafe (capacity : Nat) (m : Locked n α) : Move n α → Prop
  | .run e =>
      match m.handled e with
      | none => True
      | some (i, rf') =>
          rf'.hasCommittedChan ≤ capacity ∨ (m.sys.rafts i).applier = .waiting
  | _ => True

instance [DecidableEq α] (capacity : Nat) (m : Locked n α) (mv : Move n α) :
    Decidable (m.NotifySafe capacity mv) :=
  match mv with
  | .run e =>
      match h : m.handled e with
      | none => isTrue (by simp [NotifySafe, h])
      | some (i, rf') => decidable_of_iff
          (rf'.hasCommittedChan ≤ capacity ∨ (m.sys.rafts i).applier = .waiting)
          (by simp [NotifySafe, h])
  | .notify _ => isTrue trivial
  | .assign _ => isTrue trivial

/-- A handler waits with the lock of peer `i` to send on the full channel, and the
applier, which alone receives from it, waits for the lock. -/
def Deadlocked (capacity : Nat) (m : Locked n α) (i : Fin n) : Prop :=
  m.notifier i ≠ none ∧ capacity ≤ (m.sys.rafts i).hasCommittedChan ∧
    (m.sys.rafts i).applier = .top ∧ (m.sys.rafts i).dead = false ∧
    m.sys.panicked i = false

instance [DecidableEq α] (capacity : Nat) (m : Locked n α) (i : Fin n) :
    Decidable (m.Deadlocked capacity i) :=
  inferInstanceAs (Decidable (_ ∧ _))

/-- A handler that waits with the lock will get room. -/
def Receptive (capacity : Nat) (m : Locked n α) : Prop :=
  ∀ i, m.notifier i ≠ none →
    (m.sys.rafts i).applier = .waiting ∨ (m.sys.rafts i).hasCommittedChan < capacity

theorem receptive_index {i : Fin n} {e : Event n α} {rf' : Raft n α} (hpos : 1 ≤ capacity)
    (hm : Ok capacity m) (hrec : m.Receptive capacity) (hfree : m.free e = true)
    (hheld : m.notifier i ≠ none) (h : IndexStep m.sys i e rf') :
    rf'.applier = .waiting ∨ rf'.hasCommittedChan < capacity := by
  have hroom := (hm.peer i).room
  cases indexStep_of_notifier hfree hheld h with
  | inl hsilent =>
      rw [hsilent.applier, hsilent.hasCommittedChan]
      exact hrec i hheld
  | inr hmoves =>
      cases hmoves with
      | inl hreceive =>
          obtain ⟨_, _, rfl⟩ := hreceive
          exact Or.inr (by simp only; omega)
      | inr hsend =>
          obtain ⟨entries, _, hs, rfl⟩ := hsend
          cases hrec i hheld with
          | inl hw =>
              rw [hs] at hw
              cases hw
          | inr hlt => cases entries <;> exact Or.inr hlt

theorem Blocked.receptive {i : Fin n} {w : Notifier} (h : Blocked m i m')
    (hrec : m.Receptive capacity)
    (hnotifier : m'.notifier = Function.update m.notifier i (some w))
    (hw : (m.sys.rafts i).applier = .waiting) : m'.Receptive capacity := by
  intro j hj
  by_cases hji : j = i
  · subst hji
    obtain ⟨rf', hstep, _, heq⟩ := h.handler
    rw [heq]
    exact Or.inl (hstep.applier.trans hw)
  · rw [h.others j hji]
    rw [hnotifier, Function.update_of_ne hji] at hj
    exact hrec j hj

theorem receptive_notify {i : Fin n} {rf' : Raft n α} {s' : System n α}
    (hrec : m.Receptive capacity) (hs' : s'.rafts = Function.update m.sys.rafts i rf') :
    Receptive capacity { m with sys := s', notifier := Function.update m.notifier i none } := by
  intro j hj
  by_cases hji : j = i
  · subst hji
    simp at hj
  · simp only [hs', Function.update_of_ne hji] at hj ⊢
    exact hrec j hj

theorem Moved.receptive {mv : Move n α} (hpos : 1 ≤ capacity) (hm : Ok capacity m)
    (hrec : m.Receptive capacity) (hsafe : m.NotifySafe capacity mv)
    (h : Moved capacity m mv m') : m'.Receptive capacity := by
  cases h with
  | run hfree heffect hrestart _ _ =>
      intro i hi
      exact receptive_index hpos hm hrec hfree hi (effect_indexStep heffect (hrestart i))
  | lock hfree heffect _ =>
      intro i hi
      exact receptive_index hpos hm hrec hfree hi (effect_indexStep heffect (by simp))
  | @restart j s' heffect =>
      intro i hi
      by_cases hij : i = j
      · subst hij
        simp at hi
      · simp only [Function.update_of_ne hij] at hi
        have hstep := effect_indexStep (i := i) heffect (by simpa using Ne.symm hij)
        exact receptive_index hpos hm hrec rfl hi hstep
  | blockEntries _ hc hs hfull =>
      refine (blockEntries_blocked hc hs).receptive hrec rfl ?_
      simp only [NotifySafe, handled, hc, hs, Option.bind_eq_bind, Option.bind_some] at hsafe
      exact hsafe.resolve_left (Nat.not_le_of_lt hfull)
  | blockReply _ hc hw hs heffect hfull =>
      refine (blockReply_blocked hs heffect rfl).receptive hrec rfl ?_
      simp only [NotifySafe, handled, hc, hw, Wire.response, hs, Option.bind_eq_bind,
        Option.bind_some] at hsafe
      exact hsafe.resolve_left (Nat.not_le_of_lt hfull)
  | notifyEntries _ _ => exact receptive_notify hrec rfl
  | notifyReply _ _ => exact receptive_notify hrec rfl
  | assign => exact hrec

end Locked

/-- No handler waits for ever for an applier that waits for its lock, in any run whose
handlers notify a full channel only while the applier receives. -/
theorem notification_deadlock_free {capacity : Nat} (hpos : 1 ≤ capacity)
    {h : List (Locked n α)}
    (run : (lockedCluster n α capacity).Run (Locked.NotifySafe capacity) h) :
    ∀ m ∈ h, ∀ i, ¬ m.Deadlocked capacity i := by
  have hinv : ∀ m ∈ h, m.Ok capacity ∧ m.Receptive capacity := by
    refine Machine.Run.invariant (I := fun m => m.Ok capacity ∧ m.Receptive capacity) ?_ ?_ run
    · refine ⟨.init capacity, ?_⟩
      intro i hi
      exact absurd rfl hi
    · intro m mv m' hm hsafe hstep
      have hmoved := Locked.step_moved hstep
      exact ⟨hm.1.moved hmoved, hmoved.receptive hpos hm.1 hm.2 hsafe⟩
  intro m hm i hdead
  obtain ⟨hheld, hfull, htop, _, _⟩ := hdead
  cases (hinv m hm).2 i hheld with
  | inl hw =>
      rw [htop] at hw
      cases hw
  | inr hlt => exact absurd hfull (Nat.not_le_of_lt hlt)

theorem notification_deadlock_free_one_token :
    ∃ h, (lockedCluster 3 Nat 1).Run (Locked.NotifySafe 1) h ∧
      ∃ m ∈ h, m.notifier 0 ≠ none ∧ (m.sys.rafts 0).hasCommittedChan = 1 ∧
        ¬ m.Deadlocked 1 0 := by
  obtain ⟨h, run, m, hm, hheld, hchan⟩ :=
    (lockedCluster 3 Nat 1).exists_run_of_replay (Locked.NotifySafe 1)
      (Locked.firstCommand 0 ++ [.run (.applySend 0), .run (.applySend 0), .run (.applyLock 0),
        .run (.heartbeatTick 0), .run (.handleAppend 4), .run (.appendEntries 4),
        .run (.appendReply 4), .run (.applyReceive 0), .notify 0])
      (fun h => ∃ m ∈ h, m.notifier 0 ≠ none ∧ (m.sys.rafts 0).hasCommittedChan = 1)
      (by decide +kernel)
  exact ⟨h, run, m, hm, hheld, hchan, notification_deadlock_free (by decide) run m hm 0⟩

namespace Locked

/-- The entry of the first command. -/
def command : LogEntry Nat := ⟨1, some 7, 1⟩

/-- Peer `p` leads with the first command committed on it and on peer `q`, but not on peer
`r`; the consumer of its `applyCh` has not taken the command yet, and `k` notifications are
queued. -/
def Jammed (p q r : Fin 3) (k : Nat) (m : Locked 3 Nat) : Prop :=
  ((m.sys.rafts p).state = .leader ∧ (m.sys.rafts p).currentTerm = 1 ∧
    (m.sys.rafts p).log = [sentinel, command] ∧ (m.sys.rafts p).commitIndex = 1) ∧
  ((m.sys.rafts p).nextIndex q = 2 ∧ (m.sys.rafts p).nextIndex r = 1 ∧
    (m.sys.rafts p).matchIndex q = 1) ∧
  ((m.sys.rafts p).heartbeatTime = true ∧ (m.sys.rafts p).dead = false ∧
    (m.sys.rafts p).applier = .sending [command] ∧ (m.sys.rafts p).hasCommittedChan = k) ∧
  ((m.sys.rafts q).currentTerm = 1 ∧ (m.sys.rafts q).log = [sentinel, command] ∧
    (m.sys.rafts q).commitIndex = 1) ∧
  (m.sys.panicked p = false ∧ m.sys.panicked q = false ∧ m.sys.incarnation p = 0) ∧
  (m.notifier p = none ∧ m.notifier q = none ∧ m.assigning p = none)

instance (p q r : Fin 3) (k : Nat) (m : Locked 3 Nat) : Decidable (Jammed p q r k m) :=
  inferInstanceAs (Decidable (_ ∧ _))

theorem exists_jammed :
    ∃ m h, (lockedCluster 3 Nat committedCapacity).Run Anything (m :: h) ∧ Jammed 0 1 2 2 m := by
  obtain ⟨h, run, m, hm, hj⟩ :=
    (lockedCluster 3 Nat committedCapacity).exists_run_of_replay Anything
      (firstCommand 0 ++ [.run (.heartbeatTick 0), .run (.handleAppend 4),
        .run (.appendEntries 4), .run (.appendReply 4)])
      (fun h => ∃ m ∈ h.head?, Jammed 0 1 2 2 m) (by decide +kernel)
  obtain ⟨s, h', rfl⟩ := run.exists_head
  obtain rfl := Option.some.inj hm
  exact ⟨_, _, run, hj⟩

/-- The request of a heartbeat in this state. -/
def heartbeat (p : Fin 3) : AppendEntriesArgs 3 Nat where
  term := 1
  leaderId := p
  prevLogIndex := 1
  prevLogTerm := 1
  entries := []
  leaderCommit := 1

theorem heartbeatTick_jammed {rf : Raft 3 Nat} (hs : rf.state = .leader)
    (ht : rf.currentTerm = 1) (hl : rf.log = [sentinel, command]) (hc : rf.commitIndex = 1)
    (h1 : rf.nextIndex 1 = 2) (h2 : rf.nextIndex 2 = 1) (inc : Nat) :
    ∃ c, rf.heartbeatTick 0 inc = some ({ rf with heartbeatTime := true },
      [⟨0, inc, 1, 2, heartbeat 0, .spawned, .unsent⟩, c]) := by
  have hpeers : (List.finRange 3).filter (· ≠ 0) = [1, 2] := by decide
  obtain ⟨c, hc2⟩ : ∃ c, Raft.spawnAppend 0 inc { rf with heartbeatTime := false } 2 = some c := by
    simp [Raft.spawnAppend, hl, h2, sentinel, GoSlice.sliceFrom]
  have hc1 : Raft.spawnAppend 0 inc { rf with heartbeatTime := false } 1 =
      some ⟨0, inc, 1, 2, heartbeat 0, .spawned, .unsent⟩ := by
    simp [Raft.spawnAppend, hl, h1, ht, hc, sentinel, command, GoSlice.get, GoSlice.sliceFrom,
      heartbeat]
  refine ⟨c, ?_⟩
  have hsend : Raft.sendHeartbeats 0 inc { rf with heartbeatTime := false } =
      some [⟨0, inc, 1, 2, heartbeat 0, .spawned, .unsent⟩, c] := by
    simp only [Raft.sendHeartbeats, hpeers]
    simp [hc1, hc2]
  simp only [Raft.heartbeatTick, hsend, Option.bind_eq_bind, Option.bind_some]
  exact if_pos hs

theorem appendEntries_jammed {rf : Raft 3 Nat} (ht : rf.currentTerm = 1)
    (hl : rf.log = [sentinel, command]) (hc : rf.commitIndex = 1) :
    rf.appendEntries (heartbeat 0) =
      some (Raft.persist { rf with state := .follower, electionTime := true }, ⟨1, true⟩) := by
  simp [Raft.appendEntries, heartbeat, ht, Raft.followLeader, Raft.acceptEntries, hl,
    Raft.lastLogIndex, sentinel, command, Raft.missesTerm, GoSlice.get, Raft.mergeEntries, hc]

theorem respAppendEntries_jammed {rf : Raft 3 Nat} (hs : rf.state = .leader)
    (ht : rf.currentTerm = 1) (hl : rf.log = [sentinel, command]) (hc : rf.commitIndex = 1)
    (h1 : rf.nextIndex 1 = 2) (hm : rf.matchIndex 1 = 1) (inc : Nat) :
    rf.respAppendEntries 0 inc 1 2 (heartbeat 0) ⟨1, true⟩ =
      some ({ rf with hasCommittedChan := rf.hasCommittedChan + 1 }, []) := by
  have hn : Function.update rf.nextIndex 1 2 = rf.nextIndex := by
    rw [← h1]
    exact Function.update_eq_self ..
  have hm' : Function.update rf.matchIndex 1 1 = rf.matchIndex := by
    rw [← hm]
    exact Function.update_eq_self ..
  have hagree : 1 < Raft.numAgreesToCommit 0 rf 1 := by
    simp only [Raft.numAgreesToCommit]
    have hcount : 0 < (List.finRange 3).countP
        (fun i => decide (i ≠ 0 ∧ rf.matchIndex i ≥ rf.matchIndex 1)) := by
      rw [List.countP_pos_iff]
      exact ⟨1, List.mem_finRange 1, by simp⟩
    omega
  have hack : rf.acknowledge 1 2 (heartbeat 0) = rf := by
    simp [Raft.acknowledge, heartbeat, h1, hn, hm']
  have hadv : Raft.advanceCommit 0 rf 1 =
      some { rf with hasCommittedChan := rf.hasCommittedChan + 1 } := by
    simp [Raft.advanceCommit, hl, hm, sentinel, command, GoSlice.get, hagree, ht, hc]
  have hterm : (heartbeat 0).term = rf.currentTerm := ht.symm
  have hold : ¬ (1 : Int) > rf.currentTerm := by
    rw [ht]
    decide
  unfold Raft.respAppendEntries
  rw [if_pos ⟨hs, hterm⟩, if_neg hold, if_pos rfl, hack, hadv]
  rfl

variable {capacity : Nat} {m : Locked 3 Nat} {k L : Nat}

/-- The goroutine of peer `p` that sends the heartbeat to peer `q`. -/
def beat (p q : Fin 3) (caller : Caller) (wire : Wire AppendEntriesReply) : AppendCall 3 Nat :=
  ⟨p, 0, q, 2, heartbeat p, caller, wire⟩

theorem Jammed.tick (capacity : Nat) (hj : Jammed 0 1 2 k m) :
    ∃ m', m.step capacity (.run (.heartbeatTick 0)) = some m' ∧ Jammed 0 1 2 k m' ∧
      m'.sys.appends[m.sys.appends.length]? = some (beat 0 1 .spawned .unsent) := by
  have hj' := hj
  obtain ⟨⟨hs, ht, hl, hc⟩, ⟨h1, h2, _⟩, ⟨hhb, hd, _, _⟩, _, ⟨hp0, _, hinc⟩, hn0, _, _⟩ := hj
  obtain ⟨c, htick⟩ := heartbeatTick_jammed hs ht hl hc h1 h2 0
  refine ⟨{ m with
    sys := (m.sys.setRaft 0 { m.sys.rafts 0 with heartbeatTime := true }).spawn
      [beat 0 1 .spawned .unsent, c] }, ?_, ?_, ?_⟩
  · simp [step, free, System.lockOf, hn0, stepRun, stepPlain, System.step,
      System.stepHeartbeatTick, hp0, hd, hhb, htick, beat, hinc]
  · simpa [Jammed, System.setRaft, System.spawn, hhb] using hj'
  · simp [System.spawn, System.setRaft]

theorem Jammed.send (capacity : Nat) (hj : Jammed 0 1 2 k m)
    (hL : m.sys.appends[L]? = some (beat 0 1 .spawned .unsent)) :
    ∃ m', m.step capacity (.run (.handleAppend L)) = some m' ∧ Jammed 0 1 2 k m' ∧
      m'.sys.appends[L]? = some (beat 0 1 .calling .request) := by
  have hj' := hj
  obtain ⟨⟨hs, ht, _, _⟩, _, _, _, ⟨hp0, _, hinc⟩, hn0, _, _⟩ := hj
  refine ⟨{ m with sys := m.sys.setCall L (beat 0 1 .calling .request) }, ?_, ?_, ?_⟩
  · simp [step, free, System.lockOf, hn0, stepRun, stepPlain, System.step,
      System.stepHandleAppend, hL, beat, System.Runs, hp0, hinc, Raft.handleAppendEntries, hs, ht,
      heartbeat]
  · exact hj'
  · have hlt := (List.getElem?_eq_some_iff.mp hL).1
    simp [System.setCall, hlt]

theorem Jammed.accept (hj : Jammed 0 1 2 k m) (hroom : (m.sys.rafts 1).hasCommittedChan ≤ capacity)
    (hL : m.sys.appends[L]? = some (beat 0 1 .calling .request)) :
    ∃ m', m.step capacity (.run (.appendEntries L)) = some m' ∧ Jammed 0 1 2 k m' ∧
      m'.sys.appends[L]? = some (beat 0 1 .calling (.reply ⟨1, true⟩)) := by
  have hj' := hj
  obtain ⟨_, _, _, ⟨ht1, hl1, hc1⟩, ⟨_, hp1, _⟩, _, hn1, _⟩ := hj
  have hentries := appendEntries_jammed ht1 hl1 hc1
  refine ⟨{ m with
    sys := (m.sys.setRaft 1 (Raft.persist { m.sys.rafts 1 with
      state := .follower, electionTime := true })).setCall L
        (beat 0 1 .calling (.reply ⟨1, true⟩)) }, ?_, ?_, ?_⟩
  · simp [step, free, System.lockOf, hn1, stepRun, stepAppendEntries, hL, beat, hp1, hentries,
      hroom, Raft.persist]
  · simpa [Jammed, System.setRaft, System.setCall, Raft.persist] using hj'
  · have hlt := (List.getElem?_eq_some_iff.mp hL).1
    simp [System.setCall, System.setRaft, hlt]

/-- The reply to one more heartbeat queues one more notification. -/
theorem Jammed.count (hj : Jammed 0 1 2 k m) (hroom : k < capacity)
    (hL : m.sys.appends[L]? = some (beat 0 1 .calling (.reply ⟨1, true⟩))) :
    ∃ m', m.step capacity (.run (.appendReply L)) = some m' ∧ Jammed 0 1 2 (k + 1) m' := by
  have hj' := hj
  obtain ⟨⟨hs, ht, hl, hc⟩, ⟨h1, _, hm1⟩, ⟨_, _, _, hchan⟩, _, ⟨hp0, _, hinc⟩, hn0, _, _⟩ := hj
  have hresp := respAppendEntries_jammed hs ht hl hc h1 hm1 0
  refine ⟨{ m with
    sys := (m.sys.setRaft 0 { m.sys.rafts 0 with
      hasCommittedChan := (m.sys.rafts 0).hasCommittedChan + 1 }).setCall L
        (beat 0 1 .unwinding .closed) }, ?_, ?_⟩
  · have hle : (m.sys.rafts 0).hasCommittedChan + 1 ≤ capacity := by omega
    simp [step, free, System.lockOf, hn0, stepRun, stepAppendReply, hL, beat, System.Runs, hp0,
      hinc, hresp, hle]
  · simp only [Jammed] at hj' ⊢
    simpa [System.setRaft, System.setCall] using hj'

/-- On a full channel it leaves the leader with its lock held. -/
theorem Jammed.block (hj : Jammed 0 1 2 capacity m)
    (hL : m.sys.appends[L]? = some (beat 0 1 .calling (.reply ⟨1, true⟩))) :
    ∃ m', m.step capacity (.run (.appendReply L)) = some m' ∧ m'.notifier 0 ≠ none ∧
      (m'.sys.rafts 0).applier = .sending [command] ∧
      (m'.sys.rafts 0).hasCommittedChan = capacity ∧ (m'.sys.rafts 0).dead = false ∧
      m'.sys.panicked 0 = false ∧ m'.assigning 0 = none := by
  obtain ⟨⟨hs, ht, hl, hc⟩, ⟨h1, _, hm1⟩, ⟨_, hd, happ, hchan⟩, _, ⟨hp0, _, hinc⟩, hn0, _,
    has⟩ := hj
  have hresp := respAppendEntries_jammed hs ht hl hc h1 hm1 0
  refine ⟨m.block 0 ((m.sys.setRaft 0 { m.sys.rafts 0 with
    hasCommittedChan := (m.sys.rafts 0).hasCommittedChan + 1 }).setCall L
      (beat 0 1 .unwinding .closed)) .respAppendEntries, ?_, ?_⟩
  · have hle : ¬ ((m.sys.rafts 0).hasCommittedChan + 1 ≤ capacity) := by omega
    simp [step, free, System.lockOf, hn0, stepRun, stepAppendReply, hL, beat, System.Runs, hp0,
      hinc, hresp, hle]
  · simp [Locked.block, System.setRaft, System.setCall, happ, hchan, hd, hp0, has]

/-- From a jammed state one more heartbeat reaches peer 1, and its reply the network. -/
theorem Jammed.replied {h : List (Locked 3 Nat)} (hj : Jammed 0 1 2 k m)
    (run : (lockedCluster 3 Nat capacity).Run Anything (m :: h)) :
    ∃ m' h', ∃ L : Nat, (lockedCluster 3 Nat capacity).Run Anything (m' :: h') ∧ Jammed 0 1 2 k m' ∧
      m'.sys.appends[L]? = some (beat 0 1 .calling (.reply ⟨1, true⟩)) := by
  obtain ⟨m₁, step₁, hj₁, hL₁⟩ := hj.tick capacity
  have run₁ := run_move run step₁
  obtain ⟨m₂, step₂, hj₂, hL₂⟩ := hj₁.send capacity hL₁
  have run₂ := run_move run₁ step₂
  have hroom := ((run_ok run₂ m₂ List.mem_cons_self).peer 1).room
  obtain ⟨m₃, step₃, hj₃, hL₃⟩ := hj₂.accept hroom hL₂
  exact ⟨m₃, _, _, run_move run₂ step₃, hj₃, hL₃⟩

/-- Round by round the channel fills up. -/
theorem Jammed.fills {h : List (Locked 3 Nat)} (hj : Jammed 0 1 2 k m) {d : Nat}
    (hd : k + d ≤ capacity) (run : (lockedCluster 3 Nat capacity).Run Anything (m :: h)) :
    ∃ m' h', (lockedCluster 3 Nat capacity).Run Anything (m' :: h') ∧ Jammed 0 1 2 (k + d) m' := by
  induction d with
  | zero => exact ⟨m, h, run, hj⟩
  | succ d ih =>
      obtain ⟨m₁, h₁, run₁, hj₁⟩ := ih (by omega)
      obtain ⟨m₂, h₂, L, run₂, hj₂, hL⟩ := hj₁.replied run₁
      have hroom : k + d < capacity := by omega
      obtain ⟨m₃, step₃, hj₃⟩ := hj₂.count hroom hL
      exact ⟨m₃, _, run_move run₂ step₃, hj₃⟩

theorem stepSend_of (capacity : Nat) {e : List (LogEntry Nat)}
    (hs : (m.sys.rafts 0).applier = .sending e) (hp : m.sys.panicked 0 = false)
    (ha : m.assigning 0 = none) :
    m.step capacity (.run (.applySend 0)) =
      some { m with sys := m.sys.setRaft 0 ((m.sys.rafts 0).applySend e) } := by
  simp [step, free, System.lockOf, stepRun, ha, stepPlain, System.step, System.stepApplySend, hs,
    hp]

end Locked

/-- With the capacity of `Make`: replies that confirm the commit index once more fill the
channel while the consumer of `applyCh` is slow, and the next one waits with the lock. -/
theorem full_channel_deadlocks :
    ∃ h, (lockedCluster 3 Nat committedCapacity).Run Locked.Anything h ∧
      ∃ m ∈ h, m.Deadlocked committedCapacity 0 := by
  obtain ⟨m, h, run, hj⟩ := Locked.exists_jammed
  obtain ⟨m₁, h₁, run₁, hj₁⟩ := hj.fills (d := 998) (by decide) run
  obtain ⟨m₂, h₂, L, run₂, hj₂, hL⟩ := hj₁.replied run₁
  have hfull : Locked.Jammed 0 1 2 committedCapacity m₂ := hj₂
  obtain ⟨m₃, step₃, hn, happ, hchan, hd, hp, ha⟩ := hfull.block hL
  have run₃ := Locked.run_move run₂ step₃
  have step₄ := Locked.stepSend_of committedCapacity happ hp ha
  have run₄ := Locked.run_move run₃ step₄
  have happ₄ : (Function.update m₃.sys.rafts 0 ((m₃.sys.rafts 0).applySend [Locked.command])
      0).applier = .sending [] := by
    rw [Function.update_self]
    rfl
  have step₅ := Locked.stepSend_of committedCapacity (m := { m₃ with
    sys := m₃.sys.setRaft 0 ((m₃.sys.rafts 0).applySend [Locked.command]) }) happ₄ hp ha
  have run₅ := Locked.run_move run₄ step₅
  refine ⟨_, run₅, _, List.mem_cons_self, hn, ?_, ?_, ?_, hp⟩
  · simp [System.setRaft, Raft.applySend, hchan]
  · simp [System.setRaft, Raft.applySend]
  · simp [System.setRaft, Raft.applySend, hd]

end RaftLab
