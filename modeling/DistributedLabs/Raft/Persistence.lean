import DistributedLabs.Raft.Transitions

/-!
When the persister holds a peer's term, vote and log. `AppendEntries` persists
what it changed. `Start`, the ticker, and a leader or candidate that steps down
persist before they change a field, and `RequestVote` does not persist at all.
So the persister is up to date in exactly the runs in which none of these
changes a field of the peer.
-/

namespace RaftLab

open TermLog (Role)

variable {n : Nat} {α : Type}

/-- The persister holds the term, vote and log of the peer, or nothing while they
still are what `Make` starts with. -/
def Raft.Stored (rf : Raft n α) : Prop :=
  rf.persister = some ⟨rf.currentTerm, rf.votedFor, rf.log⟩ ∨
    (rf.persister = none ∧ rf.currentTerm = 0 ∧ rf.votedFor = none ∧
      rf.log = [sentinel])

instance [DecidableEq α] (rf : Raft n α) : Decidable rf.Stored :=
  inferInstanceAs (Decidable (_ ∨ _))

/-- The event changes no field of peer `i` behind its persister's back. -/
def PersistSafe (i : Fin n) (s : System n α) : Event n α → Prop
  | .electionTick j => j = i → (s.rafts i).state = .leader
  | .start j _ => j = i → (s.rafts i).state ≠ .leader
  | .requestVote k j => j = i → ∀ el ∈ s.elections[k]?,
      el.request.term ≤ (s.rafts i).currentTerm ∧
        ((s.rafts i).Grants el.request →
          (s.rafts i).votedFor = some el.request.candidateId)
  | .voteReply k peer => ∀ el ∈ s.elections[k]?, el.candidate = i →
      ∀ r ∈ (el.peers peer).response, ¬ ((s.rafts i).state = .candidate ∧
        (s.rafts i).currentTerm = el.request.term ∧ (s.rafts i).currentTerm < r.term)
  | .appendReply k => ∀ c ∈ s.appends[k]?, c.leader = i →
      ∀ r ∈ c.wire.response, ¬ ((s.rafts i).state = .leader ∧
        c.args.term = (s.rafts i).currentTerm ∧ (s.rafts i).currentTerm < r.term)
  | _ => True

section Stored

variable {rf rf' : Raft n α}

theorem stored_persist (rf : Raft n α) : rf.persist.Stored := Or.inl rfl

theorem stored_make (p : Option (Persisted n α)) : (Raft.make p).Stored := by
  cases p with
  | none => exact Or.inr ⟨rfl, rfl, rfl, rfl⟩
  | some p => exact Or.inl rfl

theorem Raft.SameCore.stored (h : rf.SameCore rf') : rf'.Stored ↔ rf.Stored := by
  simp only [Raft.Stored, h.persister, h.currentTerm, h.votedFor, h.log]

/-- A persister that holds other values than the peer is out of date. -/
theorem not_stored_of_persisted (rf : Raft n α)
    (hp : rf'.persister = some ⟨rf.currentTerm, rf.votedFor, rf.log⟩)
    (hne : rf'.currentTerm ≠ rf.currentTerm ∨ rf'.log ≠ rf.log ∨
      rf'.votedFor ≠ rf.votedFor) : ¬ rf'.Stored := by
  rintro (h | ⟨h, _⟩)
  · rw [hp] at h
    obtain ⟨hterm, hvote, hlog⟩ := (Persisted.mk.injEq _ _ _ _ _ _).mp (Option.some.inj h)
    rcases hne with hne | hne | hne
    · exact hne hterm.symm
    · exact hne hlog.symm
    · exact hne hvote.symm
  · rw [hp] at h
    cases h

/-- So is one that was up to date and was not written to when a field changed. -/
theorem not_stored_of_changed (h : rf.Stored) (hp : rf'.persister = rf.persister)
    (hne : rf'.currentTerm ≠ rf.currentTerm ∨ rf'.votedFor ≠ rf.votedFor) :
    ¬ rf'.Stored := by
  rcases h with h | ⟨h, hterm, hvote, _⟩
  · exact not_stored_of_persisted rf (hp.trans h) (hne.imp_right Or.inr)
  · rintro (h' | ⟨_, hterm', hvote', _⟩)
    · rw [hp, h] at h'
      cases h'
    · rw [hterm, hvote, hterm', hvote'] at hne
      exact hne.elim (fun hn => hn rfl) (fun hn => hn rfl)

theorem not_stored_stepDown {T : Int} (hT : rf.currentTerm < T) :
    ¬ (rf.stepDown T).Stored :=
  not_stored_of_persisted rf rfl (Or.inl (by simp only [Raft.stepDown]; omega))

end Stored

/-- A safe event keeps the persister of `i` up to date. -/
theorem touch_stored {s : System n α} {i : Fin n} {e : Event n α} {rf : Raft n α}
    (touch : s.Touch i e rf) (hsafe : PersistSafe i s e) (h : (s.rafts i).Stored) :
    rf.Stored := by
  cases touch with
  | idle | lead _ | win _ _ _ _ | kill => exact h
  | persist => exact stored_persist _
  | stand hl => exact absurd (hsafe rfl) hl
  | start hl => exact absurd hl (hsafe rfl)
  | refuse hel _ _ =>
      rw [Raft.observeTerm_of_le (hsafe rfl _ hel).1]
      exact h
  | @grant k el hel _ hg =>
      have hvote := (hsafe rfl _ hel).2 hg
      rw [Raft.observeTerm_of_le (hsafe rfl _ hel).1]
      rcases h with h | ⟨_, _, hnone, _⟩
      · exact Or.inl (by rw [← hvote]; exact h)
      · rw [hnone] at hvote
        cases hvote
  | lose hel hc hp hs ht hlt =>
      exact absurd ⟨hs, ht, hlt⟩ (hsafe _ hel hc _ (by rw [hp]; rfl))
  | retire hc hl hw hs ht hlt =>
      exact absurd ⟨hs, ht, hlt⟩ (hsafe _ hc hl _ (by rw [hw]; rfl))
  | follow _ _ _ _ => exact stored_persist _
  | restart => exact stored_make _

/-- Every way a peer that votes can leave its persister behind. -/
theorem requestVote_safe {rf rf' : Raft n α} {args : RequestVoteArgs n}
    {reply : RequestVoteReply} (hr : rf.requestVote args = some (rf', reply))
    (h : rf.Stored) (h' : rf'.Stored) :
    args.term ≤ rf.currentTerm ∧ (rf.Grants args → rf.votedFor = some args.candidateId) := by
  obtain ⟨_, hcase⟩ := Raft.requestVote_cases hr
  have hle : args.term ≤ rf.currentTerm := by
    by_contra hlt
    have hobs := Raft.observeTerm_of_lt (Int.not_le.mp hlt)
    have hterm : rf'.currentTerm = args.term ∧ rf'.persister = rf.persister := by
      rcases hcase with ⟨_, _, rfl⟩ | ⟨_, _, rfl⟩ <;> rw [hobs] <;> exact ⟨rfl, rfl⟩
    exact not_stored_of_changed h hterm.2 (Or.inl (by omega)) h'
  refine ⟨hle, ?_⟩
  intro hg
  have hobs := Raft.observeTerm_of_le hle
  rcases hcase with ⟨_, _, rfl⟩ | ⟨_, hno, _⟩
  · by_contra hne
    refine not_stored_of_changed h ?_ (Or.inr ?_) h'
    · rw [hobs]
    · exact fun heq => hne heq.symm
  · exact absurd hg hno

theorem panics_safe {s : System n α} {e : Event n α} {i j : Fin n} (h : s.Panics e j)
    (hne : j ≠ i) : PersistSafe i s e := by
  cases h with
  | heartbeatTick _ | appendEntries _ _ _ | applyLock _ _ => trivial
  | electionTick _ | start _ | requestVote _ _ _ => exact fun hj => absurd hj hne
  | voteReply hel _ _ =>
      intro el' hel' hc
      obtain rfl := Option.some.inj (hel.symm.trans hel')
      exact absurd hc hne
  | appendReply hc _ _ _ =>
      intro c' hc' hl
      obtain rfl := Option.some.inj (hc.symm.trans hc')
      exact absurd hl hne

/-- An event after which the persister of `i` is still up to date was safe. -/
theorem effect_safe {s s' : System n α} {e : Event n α} (heffect : s.Effect e s')
    {i : Fin n} (hp : s'.panicked i = false) (h : (s.rafts i).Stored)
    (h' : (s'.rafts i).Stored) : PersistSafe i s e := by
  cases heffect with
  | @panic _ j hpanics =>
      refine panics_safe hpanics ?_
      rintro rfl
      simp [System.panic] at hp
  | lead ht =>
      rintro rfl
      rcases Raft.electionTick_cases ht with ⟨hl, _⟩ | ⟨_, _, _, _, hr⟩
      · exact hl
      · cases hr
  | @stand j _ _ ht =>
      rintro rfl
      rcases Raft.electionTick_cases ht with ⟨hl, _⟩ | ⟨_, rfl, _⟩
      · exact hl
      · refine absurd h' (not_stored_of_persisted (s.rafts j) ?_ (Or.inl ?_))
        · simp [System.setRaft, Raft.persist]
        · simp only [System.setRaft, Function.update_self]
          omega
  | @start j _ _ _ _ _ _ ht =>
      rintro rfl
      rcases Raft.start_cases ht with ⟨hl, _⟩ | ⟨_, _, _, _, rfl, _⟩
      · exact hl
      · refine absurd h' (not_stored_of_persisted (s.rafts j) ?_ (Or.inr (Or.inl ?_)))
        · simp [System.setRaft, System.spawn, Raft.persist]
        · simp [System.setRaft, System.spawn, Raft.persist]
  | requestVote hel _ ht =>
      rintro rfl el' hel'
      obtain rfl := Option.some.inj (hel.symm.trans hel')
      refine requestVote_safe ht h ?_
      simpa [System.setRaft, System.setElection] using h'
  | voteReply hel hr ht =>
      rintro el' hel' rfl r hrr ⟨hs, hterm, hlt⟩
      obtain rfl := Option.some.inj (hel.symm.trans hel')
      rw [hr] at hrr
      obtain rfl := Option.some.inj hrr
      rw [Raft.countVote_stepDown hs hterm hlt] at ht
      obtain ⟨rfl, _⟩ := Prod.mk.inj (Option.some.inj ht)
      refine not_stored_stepDown hlt ?_
      simpa [System.setRaft, System.setElection, System.spawn] using h'
  | appendReply hc hw _ ht =>
      rintro c' hc' rfl r hrr ⟨hs, hterm, hlt⟩
      obtain rfl := Option.some.inj (hc.symm.trans hc')
      rw [hw] at hrr
      obtain rfl := Option.some.inj hrr
      rw [Raft.respAppendEntries_stepDown hs hterm hlt] at ht
      obtain ⟨rfl, _⟩ := Prod.mk.inj (Option.some.inj ht)
      refine not_stored_stepDown hlt ?_
      simpa [System.setRaft, System.setCall, System.spawn] using h'
  | heartbeatTick _ | sendAppend _ _ _ _ | dropAppend _ _ | appendEntries _ _ _
  | callFails _ _ | unwind _ _ | applyLock _ _ | applyReceive _ | applySend _ | kill
  | restart => trivial

/-- While peer `i` does not panic, its persister is up to date at every point of a
run if and only if every event of the run was safe for it. The other peers are
not restricted. -/
theorem stored_iff_safe {h : List (System n α)} {i : Fin n}
    (run : (cluster n α).Run (fun _ _ => True) h)
    (hp : ∀ s ∈ h, s.panicked i = false) :
    (∀ s ∈ h, (s.rafts i).Stored) ↔ (cluster n α).Run (PersistSafe i) h := by
  refine Machine.Run.invariant_iff (I := fun s : System n α => (s.rafts i).Stored)
    (G := fun s : System n α => s.panicked i = false) (stored_make none) ?_ ?_ run hp
  · intro s e s' hs _ hsafe hstep
    obtain ⟨rf, touch, core⟩ := System.step_touch hstep i
    exact core.stored.mpr (touch_stored touch hsafe hs)
  · intro s e s' hs hs' hp' hstep
    exact effect_safe (System.step_effect hstep) hp' hs hs'

/-- Peer 2 follows the leader of term 1 and holds its command, in memory and in its
persister. -/
theorem stored_iff_safe_follower :
    ∃ h, (cluster 3 Nat).Run (fun _ _ => True) h ∧ (∀ s ∈ h, s.panicked 2 = false) ∧
      (∃ s ∈ h, (s.rafts 2).log[1]? = some ⟨1, some 7, 1⟩) ∧
      (cluster 3 Nat).Run (PersistSafe 2) h := by
  obtain ⟨h, run, hp, hlog, hstored⟩ :=
    (cluster 3 Nat).exists_run_of_replay (fun _ _ => True)
      (firstElection ++ [.start 0 (some 7), .handleAppend 3, .appendEntries 3])
      (fun h => (∀ s ∈ h, s.panicked 2 = false) ∧
        (∃ s ∈ h, (s.rafts 2).log[1]? = some ⟨1, some 7, 1⟩) ∧
        ∀ s ∈ h, (s.rafts 2).Stored)
      (by decide +kernel)
  exact ⟨h, run, hp, hlog, (stored_iff_safe run hp).mp hstored⟩

/-- Peer 0 stands for term 1 and peer 1 votes for it; the request and the reply are
on the network, and neither persister has been written. -/
theorem vote_not_stored :
    ∃ h, (cluster 3 Nat).Run NoRestart h ∧ ∃ s ∈ h,
      (∃ el ∈ s.elections, el.request.term = 1 ∧ el.request.candidateId = 0 ∧
        el.peers 1 = .reply ⟨0, true⟩) ∧
      ¬ (s.rafts 0).Stored ∧ ¬ (s.rafts 1).Stored := by
  obtain ⟨h, run, s, hs, hfact⟩ :=
    (cluster 3 Nat).exists_run_of_replay NoRestart [.electionTick 0, .requestVote 0 1]
      (fun h => ∃ s ∈ h, (∃ el ∈ s.elections, el.request.term = 1 ∧
          el.request.candidateId = 0 ∧ el.peers 1 = .reply ⟨0, true⟩) ∧
        ¬ (s.rafts 0).Stored ∧ ¬ (s.rafts 1).Stored)
      (by decide +kernel)
  exact ⟨h, run, s, hs, hfact⟩

end RaftLab
