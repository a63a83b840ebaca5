import DistributedLabs.Raft.Simulation

/-!
Where votes come from and whether they last. `RequestVote` has no check for
requests of an older term, and it does not persist. The first lets a delayed
request take the vote of a term its candidate never stood in; the second lets a
peer that restarts vote twice. Both properties hold in the runs that avoid
these steps, and the schedules below show that they fail otherwise.
-/

namespace RaftLab

open TermLog

variable {n : Nat} {α : Type}

/-- Peer `c` was a candidate of term `T` at some point of `h`. -/
def Stood (h : List (System n α)) (c : Fin n) (T : Int) : Prop :=
  ∃ t ∈ h, (t.rafts c).state = .candidate ∧ (t.rafts c).currentTerm = T

theorem Stood.cons {h : List (System n α)} {c : Fin n} {T : Int} (hs : Stood h c T)
    (s : System n α) : Stood (s :: h) c T := by
  obtain ⟨t, ht, hfact⟩ := hs
  exact ⟨t, List.mem_cons_of_mem _ ht, hfact⟩

/-- Peer `v` put a reply on the network that grants `c` its vote in `T`, where the
reply's term is not above `T`. A reply is on the network in the state that
follows the handler, so this covers every reply sent. -/
def Granted (h : List (System n α)) (v : Fin n) (T : Int) (c : Fin n) : Prop :=
  ∃ s ∈ h, ∃ el ∈ s.elections, ∃ r, el.peers v = .reply r ∧ r.voteGranted = true ∧
    r.term ≤ T ∧ el.request.term = T ∧ el.request.candidateId = c

/-- `el'` is `el` after replies were consumed or sent. A vote granted by a reply
that has just been sent is the voter's, in the request's term. -/
structure Election.Continues (s' : System n α) (el el' : Election n) : Prop where
  request : el'.request = el.request
  replies : ∀ v r, el'.peers v = .reply r → el.peers v = .reply r ∨
    (r.voteGranted = true → r.term ≤ el.request.term →
      (s'.rafts v).currentTerm = el.request.term ∧
      (s'.rafts v).votedFor = some el.request.candidateId)

theorem Election.Continues.replied {s' : System n α} {el : Election n} {peer : Fin n}
    (rf : Raft n α) {reply : RequestVoteReply}
    (h : rf.requestVote el.request = some (s'.rafts peer, reply)) :
    el.Continues s' { el with peers := Function.update el.peers peer (.reply reply) } where
  request := rfl
  replies := by
    intro v r hr
    by_cases hv : v = peer
    · subst hv
      obtain rfl : reply = r := by simpa using hr
      refine Or.inr ?_
      intro hyes hle
      obtain ⟨hterm, ⟨_, _, hrf⟩ | ⟨hno, _, _⟩⟩ := Raft.requestVote_cases h
      · rw [hrf]
        exact ⟨Raft.observeTerm_currentTerm (hterm ▸ hle), rfl⟩
      · rw [hno] at hyes
        cases hyes
    · exact Or.inl (by simpa [hv] using hr)

theorem Election.Continues.consumed {s' : System n α} {el : Election n} (peer : Fin n)
    (totalVotes : Nat) : el.Continues s' { el with
      totalVotes := totalVotes, peers := Function.update el.peers peer .closed } where
  request := rfl
  replies := by
    intro v r hr
    by_cases hv : v = peer
    · subst hv
      simp at hr
    · exact Or.inl (by simpa [hv] using hr)

/-- Each election after an event was there before, or a peer has just started it. -/
theorem effect_elections {s s' : System n α} {e : Event n α} (h : s.Effect e s') :
    ∀ el' ∈ s'.elections, (∃ el ∈ s.elections, el.Continues s' el') ∨
      ((s'.rafts el'.request.candidateId).state = .candidate ∧
        (s'.rafts el'.request.candidateId).currentTerm = el'.request.term ∧
        ∀ v r, el'.peers v ≠ .reply r) := by
  intro el' hel'
  have same : el' ∈ s.elections → ∃ el ∈ s.elections, el.Continues s' el' :=
    fun hel => ⟨el', hel, rfl, fun _ _ hr => Or.inl hr⟩
  cases h with
  | @stand i rf' request h =>
      rcases List.mem_append.mp hel' with hel | hel
      · exact Or.inl (same hel)
      · obtain rfl := List.mem_singleton.mp hel
        rcases Raft.electionTick_cases h with ⟨_, _, hr⟩ | ⟨_, rfl, _, _, hr⟩
        · cases hr
        · obtain rfl := Option.some.inj hr
          refine Or.inr ⟨by simp [System.setRaft, conductElection],
            by simp [System.setRaft, conductElection], ?_⟩
          intro v r hv
          simp only [conductElection] at hv
          split at hv <;> cases hv
  | @requestVote k peer _ _ _ hel _ h =>
      rcases List.mem_or_eq_of_mem_set hel' with hel' | rfl
      · exact Or.inl (same hel')
      · refine Or.inl ⟨_, List.mem_of_getElem? hel, .replied (s.rafts peer) ?_⟩
        simpa [System.setRaft, System.setElection] using h
  | voteReply hel _ _ =>
      rcases List.mem_or_eq_of_mem_set hel' with hel' | rfl
      · exact Or.inl (same hel')
      · exact Or.inl ⟨_, List.mem_of_getElem? hel, .consumed _ _⟩
  | _ => exact Or.inl (same hel')

/-- Every vote request was sent by a candidate of its term. -/
theorem elections_stood {allowed : System n α → Event n α → Prop} {s : System n α}
    {h : List (System n α)} (run : (cluster n α).Run allowed (s :: h)) :
    ∀ el ∈ s.elections, Stood (s :: h) el.request.candidateId el.request.term := by
  refine History.head_induction (P := fun s h => ∀ el ∈ s.elections,
    Stood (s :: h) el.request.candidateId el.request.term) ?_ ?_ run
  · intro el hel
    cases hel
  · intro s s' h _ ih hnext el' hel'
    obtain ⟨e, _, hstep⟩ := (cluster n α).next_cons.mp hnext
    rcases effect_elections (System.step_effect hstep) el' hel' with
      ⟨el, hel, hcont⟩ | ⟨hcand, hterm, _⟩
    · rw [hcont.request]
      exact (ih el hel).cons s'
    · exact ⟨s', List.mem_cons_self, hcand, hterm⟩

section Provenance

/-- No request of an older term finds a peer that could still vote and whose log it
satisfies. -/
def VoteCurrent (s : System n α) : Event n α → Prop
  | .requestVote k peer => ∀ el ∈ s.elections[k]?,
      el.request.term < (s.rafts peer).currentTerm → (s.rafts peer).votedFor = none →
        (s.rafts peer).upToDate el.request ≠ some true
  | .restart _ => False
  | _ => True

instance (s : System n α) (e : Event n α) : Decidable (VoteCurrent s e) :=
  match e with
  | .requestVote k _ => Option.decidableForallMem s.elections[k]?
  | .restart _ => isFalse id
  | .heartbeatTick _ | .electionTick _ | .start _ _ | .voteReply _ _ | .handleAppend _
  | .appendEntries _ | .appendReply _ | .callFails _ | .unwind _ | .applyLock _
  | .applyReceive _ | .applySend _ | .kill _ => isTrue trivial

/-- Under `VoteCurrent` a vote was there before, is the peer's own, or answers a
request of the peer's term. -/
theorem touch_vote {s : System n α} {i : Fin n} {e : Event n α} {rf : Raft n α}
    (touch : s.Touch i e rf) (hcurrent : VoteCurrent s e) {c : Fin n}
    (hc : rf.votedFor = some c) :
    ((s.rafts i).votedFor = some c ∧ rf.currentTerm = (s.rafts i).currentTerm) ∨
      (c = i ∧ rf.state = .candidate) ∨
      ∃ el ∈ s.elections, el.request.candidateId = c ∧
        el.request.term = rf.currentTerm := by
  cases touch with
  | idle | persist | lead _ | start _ | win _ _ _ _ | kill => exact Or.inl ⟨hc, rfl⟩
  | stand _ => exact Or.inr (Or.inl ⟨(Option.some.inj hc).symm, rfl⟩)
  | @refuse k el hel _ _ =>
      by_cases hlt : (s.rafts i).currentTerm < el.request.term
      · rw [Raft.observeTerm_of_lt hlt] at hc
        cases hc
      · rw [Raft.observeTerm_of_le (Int.not_lt.mp hlt)] at hc ⊢
        exact Or.inl ⟨hc, rfl⟩
  | @grant k el hel _ hg =>
      have hmem := List.mem_of_getElem? hel
      obtain rfl := Option.some.inj hc
      rcases Int.lt_trichotomy el.request.term (s.rafts i).currentTerm with hlt | heq | hgt
      · have hobs := Raft.observeTerm_of_le (Int.le_of_lt hlt)
        rw [hobs]
        rcases hobs ▸ hg.2 with hnone | hsome
        · exact absurd (hobs ▸ hg.1) (hcurrent el hel hlt hnone)
        · exact Or.inl ⟨hsome, rfl⟩
      · rw [Raft.observeTerm_of_le (Int.le_of_eq heq)]
        exact Or.inr (Or.inr ⟨el, hmem, rfl, heq⟩)
      · rw [Raft.observeTerm_of_lt hgt]
        exact Or.inr (Or.inr ⟨el, hmem, rfl, rfl⟩)
  | lose _ _ _ _ _ _ | retire _ _ _ _ _ _ => cases hc
  | follow _ _ _ hle =>
      rw [Raft.followLeader_of_le hle] at hc ⊢
      simp only [Raft.persist] at hc ⊢
      split at hc
      · cases hc
      · exact Or.inl ⟨hc, by omega⟩
  | restart => exact hcurrent.elim

/-- As long as no request of an older term takes a vote, the peer a vote is on was a
candidate of the voter's term. -/
theorem vote_provenance {s : System n α} {h : List (System n α)}
    (run : (cluster n α).Run VoteCurrent (s :: h)) {i c : Fin n}
    (hc : (s.rafts i).votedFor = some c) : Stood (s :: h) c (s.rafts i).currentTerm := by
  revert i c
  refine History.head_induction (P := fun s h => ∀ {i c : Fin n},
    (s.rafts i).votedFor = some c → Stood (s :: h) c (s.rafts i).currentTerm) ?_ ?_ run
  · intro i c hc
    cases hc
  · intro s s' h run ih hnext i c hc
    obtain ⟨e, hcurrent, hstep⟩ := (cluster n α).next_cons.mp hnext
    obtain ⟨rf, touch, core⟩ := System.step_touch hstep i
    rw [core.votedFor] at hc
    rw [core.currentTerm]
    rcases touch_vote touch hcurrent hc with ⟨hold, hterm⟩ | ⟨rfl, hcand⟩ |
      ⟨el, hel, rfl, hterm⟩
    · rw [hterm]
      exact (ih hold).cons s'
    · exact ⟨s', List.mem_cons_self, by rw [core.state, hcand], core.currentTerm⟩
    · rw [← hterm]
      exact (elections_stood run el hel).cons s'

theorem vote_provenance_first_term :
    ∃ s h, (cluster 3 Nat).Run VoteCurrent (s :: h) ∧ (s.rafts 1).votedFor = some 0 ∧
      Stood (s :: h) 0 (s.rafts 1).currentTerm := by
  obtain ⟨h, run, s, hs, hv⟩ :=
    (cluster 3 Nat).exists_run_of_replay VoteCurrent firstElection
      (fun h => ∃ s ∈ h, (s.rafts 1).votedFor = some 0) (by decide +kernel)
  obtain ⟨h', run', _⟩ := run.exists_upTo hs
  exact ⟨s, h', run', hv, vote_provenance run' hv⟩

/-- Peer 0 leads term 2 with the vote of peer 2, and peer 1 has followed it there
without a vote. The request that peer 2 sent in term 1 then takes the vote of
peer 1 in term 2, for which peer 2 never stood. -/
theorem stale_request_takes_vote :
    ∃ h, (cluster 3 Nat).Run NoRestart h ∧ ∃ s ∈ h, (s.rafts 1).votedFor = some 2 ∧
      (s.rafts 1).currentTerm = 2 ∧ ¬ Stood h 2 2 := by
  obtain ⟨h, run, ⟨s, hs, hv, hterm⟩, hnever⟩ :=
    (cluster 3 Nat).exists_run_of_replay NoRestart
      [.electionTick 2, .electionTick 0, .electionTick 0, .requestVote 2 2,
        .voteReply 2 2, .handleAppend 0, .appendEntries 0, .requestVote 0 1]
      (fun h => (∃ s ∈ h, (s.rafts 1).votedFor = some 2 ∧ (s.rafts 1).currentTerm = 2) ∧
        ∀ t ∈ h, ¬ ((t.rafts 2).state = .candidate ∧ (t.rafts 2).currentTerm = 2))
      (by decide +kernel)
  refine ⟨h, run, s, hs, hv, hterm, ?_⟩
  rintro ⟨t, ht, hfact⟩
  exact hnever t ht hfact

end Provenance

section Durability

/-- A peer restarts only when its persister holds its term and its vote. -/
def VoteDurable (s : System n α) : Event n α → Prop
  | .restart i =>
      (Raft.make (s.rafts i).persister).currentTerm = (s.rafts i).currentTerm ∧
        (Raft.make (s.rafts i).persister).votedFor = (s.rafts i).votedFor
  | _ => True

instance (s : System n α) (e : Event n α) : Decidable (VoteDurable s e) :=
  match e with
  | .restart _ => inferInstanceAs (Decidable (_ ∧ _))
  | .heartbeatTick _ | .electionTick _ | .start _ _ | .requestVote _ _
  | .voteReply _ _ | .handleAppend _ | .appendEntries _ | .appendReply _
  | .callFails _ | .unwind _ | .applyLock _ | .applyReceive _ | .applySend _
  | .kill _ => isTrue trivial

/-- If no restart forgets them, terms do not fall and a vote lasts as long as its
term. -/
theorem touch_keeps {s : System n α} {i : Fin n} {e : Event n α} {rf : Raft n α}
    (touch : s.Touch i e rf) (hdurable : VoteDurable s e) :
    (view (s.rafts i)).Keeps (view rf) := by
  have newer : ∀ {T : Int} {vote : Option (Fin n)} {log : List (LogEntry α)} {role : Role},
      (s.rafts i).currentTerm < T → (view (s.rafts i)).Keeps ⟨T, vote, log, role⟩ :=
    fun hT => ⟨Int.le_of_lt hT, fun hterm => absurd hterm (Int.ne_of_lt hT)⟩
  cases touch with
  | idle | persist | lead _ | start _ | win _ _ _ _ | kill =>
      exact ⟨Int.le_refl _, fun _ _ hc => hc⟩
  | stand _ => exact newer (Int.lt_succ _)
  | @refuse k el _ _ _ =>
      by_cases hlt : (s.rafts i).currentTerm < el.request.term
      · rw [Raft.observeTerm_of_lt hlt]
        exact newer hlt
      · rw [Raft.observeTerm_of_le (Int.not_lt.mp hlt)]
        exact .refl _
  | @grant k el _ _ hg =>
      by_cases hlt : (s.rafts i).currentTerm < el.request.term
      · rw [Raft.observeTerm_of_lt hlt]
        exact newer hlt
      · have hobs := Raft.observeTerm_of_le (Int.not_lt.mp hlt)
        rw [hobs]
        refine ⟨Int.le_refl _, ?_⟩
        intro _ c hc
        rcases hobs ▸ hg.2 with hnone | hsome
        · exact absurd (hnone.symm.trans hc) (by simp)
        · exact hsome.symm.trans hc
  | lose _ _ _ _ _ hlt | retire _ _ _ _ _ hlt => exact newer hlt
  | @follow k c _ _ _ _ hle =>
      rw [Raft.followLeader_of_le hle]
      refine ⟨hle, ?_⟩
      intro hterm d hd
      have heq : (s.rafts i).currentTerm = c.args.term := hterm
      simp only [view, Raft.persist, heq, Int.lt_irrefl, if_false]
      exact hd
  | restart =>
      exact ⟨Int.le_of_eq hdurable.1.symm, fun _ c hc => hdurable.2.trans hc⟩

theorem touch_self_vote {s : System n α} {i : Fin n} {e : Event n α} {rf : Raft n α}
    (touch : s.Touch i e rf)
    (ih : (s.rafts i).state ≠ .follower → (s.rafts i).votedFor = some i)
    (hrf : rf.state ≠ .follower) : rf.votedFor = some i := by
  cases touch with
  | idle | persist | lead _ | start _ | kill => exact ih hrf
  | win _ _ _ hw => exact ih (by rw [hw.1]; decide)
  | stand _ => rfl
  | @refuse k el _ _ _ =>
      unfold Raft.observeTerm at hrf ⊢
      split at hrf
      · exact absurd rfl hrf
      · rename_i hle
        rw [if_neg hle]
        exact ih hrf
  | @grant k el _ _ hg =>
      by_cases hlt : (s.rafts i).currentTerm < el.request.term
      · rw [Raft.observeTerm_of_lt hlt] at hrf
        exact absurd rfl hrf
      · have hobs := Raft.observeTerm_of_le (Int.not_lt.mp hlt)
        rw [hobs] at hrf
        rcases hobs ▸ hg.2 with hnone | hsome
        · rw [ih hrf] at hnone
          cases hnone
        · rw [← ih hrf, hsome]
  | lose _ _ _ _ _ _ | retire _ _ _ _ _ _ => exact absurd rfl hrf
  | follow _ _ _ hle =>
      rw [Raft.followLeader_of_le hle] at hrf
      exact absurd rfl hrf
  | restart =>
      refine absurd ?_ hrf
      unfold Raft.make Raft.readPersist
      split <;> rfl

/-- Peer `v` had its vote on `c` while in term `T`. -/
def HadVote (h : List (System n α)) (v : Fin n) (T : Int) (c : Fin n) : Prop :=
  ∃ t ∈ h, (t.rafts v).currentTerm = T ∧ (t.rafts v).votedFor = some c

variable {h : List (System n α)}

theorem hadVote_unique (run : (cluster n α).Run VoteDurable h) {v c d : Fin n} {T : Int}
    (hc : HadVote h v T c) (hd : HadVote h v T d) : c = d := by
  obtain ⟨s, hs, hsT, hsc⟩ := hc
  obtain ⟨t, ht, htT, htd⟩ := hd
  refine vote_unique_of_keeps (fun s : System n α => view (s.rafts v)) ?_ run hs ht
    (hsT.trans htT.symm) hsc htd
  intro s h t hnext
  obtain ⟨e, hdurable, hstep⟩ := (cluster n α).next_cons.mp hnext
  obtain ⟨rf, touch, core⟩ := System.step_touch hstep v
  rw [view_of_sameCore core]
  exact touch_keeps touch hdurable

/-- A granted vote was the voter's vote in the term of the request. -/
theorem granted_hadVote {allowed : System n α → Event n α → Prop}
    (run : (cluster n α).Run allowed h) {v c : Fin n} {T : Int} (hg : Granted h v T c) :
    HadVote h v T c := by
  obtain ⟨s, hs, el, hel, r, hr, hyes, hle, rfl, rfl⟩ := hg
  obtain ⟨h', run', hsub⟩ := run.exists_upTo hs
  suffices inv : ∀ el ∈ s.elections, ∀ v r, el.peers v = .reply r →
      r.voteGranted = true → r.term ≤ el.request.term →
      HadVote (s :: h') v el.request.term el.request.candidateId by
    obtain ⟨t, ht, hfact⟩ := inv el hel v r hr hyes hle
    exact ⟨t, hsub t ht, hfact⟩
  refine History.head_induction (P := fun s h => ∀ el ∈ s.elections, ∀ v r,
    el.peers v = .reply r → r.voteGranted = true → r.term ≤ el.request.term →
    HadVote (s :: h) v el.request.term el.request.candidateId) ?_ ?_ run'
  · intro el hel
    cases hel
  · intro s s' h _ ih hnext el' hel' v r hr hyes hle
    obtain ⟨e, _, hstep⟩ := (cluster n α).next_cons.mp hnext
    rcases effect_elections (System.step_effect hstep) el' hel' with
      ⟨el, hel, hcont⟩ | ⟨_, _, hnew⟩
    · rw [hcont.request] at hle ⊢
      rcases hcont.replies v r hr with hold | hnow
      · obtain ⟨t, ht, hfact⟩ := ih el hel v r hold hyes hle
        exact ⟨t, List.mem_cons_of_mem _ ht, hfact⟩
      · exact ⟨s', List.mem_cons_self, hnow hyes hle⟩
    · exact absurd hr (hnew v r)

theorem stood_hadVote {allowed : System n α → Event n α → Prop}
    (run : (cluster n α).Run allowed h) {v : Fin n} {T : Int} (hs : Stood h v T) :
    HadVote h v T v := by
  obtain ⟨t, ht, hcand, hterm⟩ := hs
  have inv := Machine.Run.invariant
    (I := fun s : System n α => ∀ i, (s.rafts i).state ≠ .follower →
      (s.rafts i).votedFor = some i)
    (fun i hi => absurd rfl hi)
    (by
      intro s e s' ih _ hstep i hi
      obtain ⟨rf, touch, core⟩ := System.step_touch hstep i
      rw [core.state] at hi
      rw [core.votedFor]
      exact touch_self_vote touch (ih i) hi)
    run t ht
  exact ⟨t, ht, hterm, inv v (by rw [hcand]; decide)⟩

/-- If no restart loses a term or a vote, no peer grants two candidates its vote in
one term, and none grants it in a term it stood for itself. -/
theorem vote_durability (run : (cluster n α).Run VoteDurable h) :
    (∀ v T c d, Granted h v T c → Granted h v T d → c = d) ∧
      ∀ v T c, Granted h v T c → Stood h v T → c = v := by
  refine ⟨?_, ?_⟩
  · intro v T c d hc hd
    exact hadVote_unique run (granted_hadVote run hc) (granted_hadVote run hd)
  · intro v T c hc hv
    exact hadVote_unique run (granted_hadVote run hc) (stood_hadVote run hv)

/-- Peer 2 restarts from what `AppendEntries` persisted. -/
theorem vote_durability_restart :
    ∃ h, (cluster 3 Nat).Run VoteDurable h ∧ (∃ s ∈ h, s.incarnation 2 = 1) ∧
      Granted h 1 1 0 ∧ ∀ d, Granted h 1 1 d → d = 0 := by
  obtain ⟨h, run, hrestart, s, hs, el, hel, hr, hterm, hcand⟩ :=
    (cluster 3 Nat).exists_run_of_replay VoteDurable
      (firstElection ++ [.handleAppend 1, .appendEntries 1, .restart 2])
      (fun h => (∃ s ∈ h, s.incarnation 2 = 1) ∧
        ∃ s ∈ h, ∃ el ∈ s.elections, el.peers 1 = .reply ⟨0, true⟩ ∧
          el.request.term = 1 ∧ el.request.candidateId = 0)
      (by decide +kernel)
  have hg : Granted h 1 1 0 := ⟨s, hs, el, hel, _, hr, rfl, by decide, hterm, hcand⟩
  exact ⟨h, run, hrestart, hg, fun d hd => (vote_durability run).1 1 1 d 0 hd hg⟩

/-- Peer 1 votes for peer 0 in term 1, restarts without a trace of it and votes for
peer 2 in term 1. -/
theorem restart_votes_twice :
    ∃ h, (cluster 3 Nat).Run (fun _ _ => True) h ∧
      Granted h 1 1 0 ∧ Granted h 1 1 2 := by
  obtain ⟨h, run, ⟨s, hs, el, hel, hr, hterm, hcand⟩, s', hs', el', hel', hr', hterm',
      hcand'⟩ :=
    (cluster 3 Nat).exists_run_of_replay (fun _ _ => True)
      [.electionTick 0, .requestVote 0 1, .restart 1, .electionTick 2, .requestVote 1 1]
      (fun h => (∃ s ∈ h, ∃ el ∈ s.elections, el.peers 1 = .reply ⟨0, true⟩ ∧
          el.request.term = 1 ∧ el.request.candidateId = 0) ∧
        ∃ s ∈ h, ∃ el ∈ s.elections, el.peers 1 = .reply ⟨0, true⟩ ∧
          el.request.term = 1 ∧ el.request.candidateId = 2)
      (by decide +kernel)
  exact ⟨h, run, ⟨s, hs, el, hel, _, hr, rfl, by decide, hterm, hcand⟩,
    ⟨s', hs', el', hel', _, hr', rfl, by decide, hterm', hcand'⟩⟩

end Durability

end RaftLab
