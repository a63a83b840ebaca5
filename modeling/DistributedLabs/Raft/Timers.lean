import DistributedLabs.Raft.Transitions

/-!
The election timer. The ticker consumes it without re-arming it while the peer
leads, and a vote request of a newer term that is refused makes a leader a
follower without a reset. A leader whose timer has fired is then left without
one. Every other way out of leadership arms the timer.
-/

namespace RaftLab

open TermLog (Role)

variable {n : Nat} {α : Type}

/-- A peer that is alive and does not lead has its election timer armed. -/
def Raft.Armed (rf : Raft n α) : Prop :=
  rf.dead = false → rf.state ≠ .leader → rf.electionTime = true

instance (rf : Raft n α) : Decidable rf.Armed :=
  inferInstanceAs (Decidable (_ → _))

/-- No live leader whose election timer has fired receives a vote request of a newer
term from a candidate whose log is behind its own. -/
def TimerSafe (s : System n α) : Event n α → Prop
  | .requestVote k peer => ∀ el ∈ s.elections[k]?, ¬ ((s.rafts peer).dead = false ∧
      (s.rafts peer).state = .leader ∧ (s.rafts peer).electionTime = false ∧
      (s.rafts peer).currentTerm < el.request.term ∧
      (s.rafts peer).upToDate el.request = some false)
  | _ => True

section Requests

variable {rf rf' : Raft n α} {args : RequestVoteArgs n}

/-- A newer request leaves the timer to the comparison of the logs. -/
theorem requestVote_newer {reply : RequestVoteReply}
    (hr : rf.requestVote args = some (rf', reply)) (hlt : rf.currentTerm < args.term) :
    rf'.dead = rf.dead ∧ rf'.state = .follower ∧
      rf'.electionTime = (rf.electionTime || rf.upToDate args == some true) := by
  have hobs := Raft.observeTerm_of_lt hlt
  obtain ⟨_, ⟨_, hg, rfl⟩ | ⟨_, hno, rfl⟩⟩ := Raft.requestVote_cases hr
  · have hu := hg.1
    rw [Raft.observeTerm_upToDate] at hu
    rw [hobs]
    exact ⟨rfl, rfl, by simp [hu]⟩
  · have hu : rf.upToDate args ≠ some true := by
      intro hu
      refine hno ⟨by rw [Raft.observeTerm_upToDate, hu], Or.inl ?_⟩
      rw [hobs]
    rw [hobs]
    exact ⟨rfl, rfl, by simp [hu]⟩

end Requests

/-- Every step but a refused newer request keeps the timer. -/
theorem touch_armed {s : System n α} {i : Fin n} {e : Event n α} {rf : Raft n α}
    (touch : s.Touch i e rf) (he : ∀ k, e ≠ .requestVote k i) (h : (s.rafts i).Armed) :
    rf.Armed := by
  cases touch with
  | idle | persist => exact h
  | lead hl | start hl => exact fun _ hn => absurd hl hn
  | stand _ | lose _ _ _ _ _ _ | retire _ _ _ _ _ _ => exact fun _ _ => rfl
  | refuse _ _ _ | grant _ _ _ => exact absurd rfl (he _)
  | win _ _ _ _ => exact fun _ hn => absurd rfl hn
  | follow _ _ _ hle =>
      rw [Raft.followLeader_of_le hle]
      exact fun _ _ => rfl
  | kill =>
      intro hdead
      cases hdead
  | restart =>
      unfold Raft.make Raft.readPersist
      split <;> exact fun _ _ => rfl

theorem requestVote_armed {rf rf' : Raft n α} {args : RequestVoteArgs n}
    {reply : RequestVoteReply} (hr : rf.requestVote args = some (rf', reply))
    (h : rf.Armed) :
    rf'.Armed ↔ ¬ (rf.dead = false ∧ rf.state = .leader ∧ rf.electionTime = false ∧
      rf.currentTerm < args.term ∧ rf.upToDate args = some false) := by
  by_cases hlt : rf.currentTerm < args.term
  · obtain ⟨hdead, hstate, htime⟩ := requestVote_newer hr hlt
    have hsome := Raft.requestVote_isSome rf args
    rw [hr] at hsome
    obtain ⟨b, hb⟩ := Option.isSome_iff_exists.mp hsome.symm
    unfold Raft.Armed at h ⊢
    rw [hdead, hstate, htime, hb]
    cases b <;> cases hd : rf.dead <;> cases hl : rf.state <;> simp_all
  · refine iff_of_true ?_ (fun hbad => hlt hbad.2.2.2.1)
    have hobs := Raft.observeTerm_of_le (Int.not_lt.mp hlt)
    obtain ⟨_, ⟨_, _, rfl⟩ | ⟨_, _, rfl⟩⟩ := Raft.requestVote_cases hr
    · rw [hobs]
      exact fun _ _ => rfl
    · rw [hobs]
      exact h

theorem timerSafe_requestVote {s : System n α} {k : Nat} {peer : Fin n} {el : Election n}
    (hel : s.elections[k]? = some el) :
    TimerSafe s (.requestVote k peer) ↔ ¬ ((s.rafts peer).dead = false ∧
      (s.rafts peer).state = .leader ∧ (s.rafts peer).electionTime = false ∧
      (s.rafts peer).currentTerm < el.request.term ∧
      (s.rafts peer).upToDate el.request = some false) := by
  simp only [TimerSafe, hel, Option.mem_def, Option.some.injEq]
  exact ⟨fun h => h el rfl, fun h _ heq => heq ▸ h⟩

/-- From a state in which all timers are as they should be, exactly the safe events
keep them so. -/
theorem step_armed_iff {s s' : System n α} {e : Event n α} (hstep : s.step e = some s')
    (h : ∀ i, (s.rafts i).Armed) : (∀ i, (s'.rafts i).Armed) ↔ TimerSafe s e := by
  have quiet : ∀ i, (∀ k, e ≠ .requestVote k i) → (s'.rafts i).Armed := by
    intro i he
    obtain ⟨rf, touch, core⟩ := System.step_touch hstep i
    have := touch_armed touch he (h i)
    unfold Raft.Armed at this ⊢
    rwa [core.dead, core.state, core.electionTime]
  cases e with
  | requestVote k peer =>
      have others : ∀ i, i ≠ peer → (s'.rafts i).Armed := by
        intro i hi
        refine quiet i ?_
        rintro k' ⟨⟩
        exact hi rfl
      cases System.step_effect hstep with
      | panic hpanics =>
          cases hpanics with
          | @requestVote _ _ el hel _ hnone =>
              refine iff_of_true h ((timerSafe_requestVote hel).mpr ?_)
              rintro ⟨_, _, _, _, hu⟩
              have hsome := Raft.requestVote_isSome (s.rafts peer) el.request
              rw [hnone, hu] at hsome
              cases hsome
      | requestVote hel _ ht =>
          rw [timerSafe_requestVote hel, ← requestVote_armed ht (h peer)]
          constructor
          · intro hall
            simpa [System.setRaft, System.setElection] using hall peer
          · intro hpeer i
            by_cases hi : i = peer
            · subst hi
              simpa [System.setRaft, System.setElection] using hpeer
            · exact others i hi
  | heartbeatTick _ | electionTick _ | start _ _ | voteReply _ _ | handleAppend _
  | appendEntries _ | appendReply _ | callFails _ | unwind _ | applyLock _
  | applyReceive _ | applySend _ | kill _ | restart _ =>
      refine iff_of_true (fun i => quiet i ?_) trivial
      intro k hk
      cases hk

/-- At every point of a run every live peer that does not lead has its election
timer armed, if and only if every event of the run was safe. -/
theorem armed_iff_safe {h : List (System n α)}
    (run : (cluster n α).Run (fun _ _ => True) h) :
    (∀ s ∈ h, ∀ i, (s.rafts i).Armed) ↔ (cluster n α).Run TimerSafe h := by
  refine Machine.Run.invariant_iff (I := fun s : System n α => ∀ i, (s.rafts i).Armed)
    (G := fun _ => True) ?_ ?_ ?_ run (fun _ _ => trivial)
  · exact fun _ _ _ => rfl
  · exact fun s e s' hs _ hsafe hstep => (step_armed_iff hstep hs).mpr hsafe
  · exact fun s e s' hs hs' _ hstep => (step_armed_iff hstep hs).mp hs'

/-- A leader whose election timer has fired steps down for a leader of term 2 and is
armed again. -/
theorem armed_iff_safe_second_term :
    ∃ h, (cluster 3 Nat).Run (fun _ _ => True) h ∧
      (∃ s ∈ h, (s.rafts 0).state = .leader ∧ (s.rafts 0).electionTime = false) ∧
      (∃ s ∈ h, (s.rafts 0).state = .follower ∧ (s.rafts 0).currentTerm = 2) ∧
      (cluster 3 Nat).Run TimerSafe h := by
  obtain ⟨h, run, hfired, hdown, harmed⟩ :=
    (cluster 3 Nat).exists_run_of_replay (fun _ _ => True)
      (firstElection ++ [.electionTick 0, .electionTick 1, .requestVote 1 2,
        .voteReply 1 2, .handleAppend 2, .appendEntries 2])
      (fun h => (∃ s ∈ h, (s.rafts 0).state = .leader ∧ (s.rafts 0).electionTime = false) ∧
        (∃ s ∈ h, (s.rafts 0).state = .follower ∧ (s.rafts 0).currentTerm = 2) ∧
        ∀ s ∈ h, ∀ i, (s.rafts i).Armed)
      (by decide +kernel)
  exact ⟨h, run, hfired, hdown, (armed_iff_safe run).mp harmed⟩

/-- Peer 0 leads term 1 with a command that peer 2 misses, and its election timer
fires. When peer 2 then asks for its vote in term 2, peer 0 refuses and becomes a
follower whose timer will never fire. -/
theorem refused_request_disarms :
    ∃ h, (cluster 3 Nat).Run NoRestart h ∧ ∃ s ∈ h, s.panicked 0 = false ∧
      (s.rafts 0).dead = false ∧ (s.rafts 0).state = .follower ∧
      (s.rafts 0).electionTime = false := by
  obtain ⟨h, run, s, hs, hfact⟩ :=
    (cluster 3 Nat).exists_run_of_replay NoRestart
      (firstElection ++ [.start 0 (some 7), .electionTick 0, .electionTick 2,
        .electionTick 2, .requestVote 2 0])
      (fun h => ∃ s ∈ h, s.panicked 0 = false ∧ (s.rafts 0).dead = false ∧
        (s.rafts 0).state = .follower ∧ (s.rafts 0).electionTime = false)
      (by decide +kernel)
  exact ⟨h, run, s, hs, hfact⟩

end RaftLab
