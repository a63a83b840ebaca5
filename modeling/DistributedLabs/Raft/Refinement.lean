import DistributedLabs.Raft.Simulation

/-!
Every event of the cluster but a restart is matched by moves of the abstract
replicated log, and so is every run. The safety properties of the abstract
protocol then speak of the peers' terms, votes, roles and logs.
-/

namespace RaftLab

open TermLog

variable {n : Nat} {α : Type}

/-- The abstract history goes on to match the new state. -/
def Matched (s' : System n α) (a : Abstract n α) (H : List (Abstract n α)) : Prop :=
  ∃ a' H', Sim s' a' H' ∧ ∀ b ∈ a :: H, b ∈ a' :: H'

theorem Born.append {starts : List (StartReturn n α)} {l : List (LogEntry α)}
    (h : Born starts l) {r : StartReturn n α} {e : LogEntry α} (hr : r.Made e) :
    Born (starts ++ [r]) (l ++ [e]) := by
  intro k x hk
  rcases Nat.lt_or_ge k l.length with hlt | hge
  · rw [List.getElem?_append_left hlt] at hk
    exact h.mono (fun q hq => List.mem_append_left _ hq) k x hk
  · rw [List.getElem?_append_right hge] at hk
    obtain ⟨_, rfl⟩ := List.getElem?_eq_some_iff.mp hk
    exact Or.inr ⟨r, by simp, by simpa using hr⟩

namespace Sim

variable {s s' : System n α} {a : Abstract n α} {H : List (Abstract n α)}
variable (sim : Sim s a H)
include sim

/-- A leader appends behind everything it returned earlier in its term. -/
theorem start_apart {i : Fin n} (hl : (s.rafts i).state = .leader) {command : Option α}
    {index : Int} (hindex : index = (s.rafts i).log.length) :
    ∀ r ∈ s.starts,
      r.Apart ⟨i, command, index, (s.rafts i).currentTerm, true⟩ := by
  rintro r hr hleader _ ⟨hi, ht⟩
  obtain ⟨l, hled, hlen⟩ := sim.starts r hr hleader
  simp only at hi ht
  rw [ht] at hled
  obtain rfl := sim.run.led_unique hled (sim.led hl)
  have hpre := (sim.run.led_stays hled (by rw [sim.node]; rfl)).2
  rw [sim.node] at hpre
  have : l.length ≤ (s.rafts r.server).log.length := hpre.length_le
  omega

/-- A return of `Start` is recorded behind the earlier ones. -/
theorem recorded_start {i : Fin n} {rf' : Raft n α} {a' : Abstract n α}
    {H' : List (Abstract n α)} {calls : List (AppendCall n α)} {r : StartReturn n α}
    (m : Moves genesis i a H (view rf') a' H')
    (hlog : LogOk rf'.log ∧ Born (s.starts ++ [r]) rf'.log)
    (hcalls : ∀ c ∈ calls, ∃ l, AppendOk (a' :: H') c l)
    (hr : r.isLeader = true →
      ∃ l, Led (a' :: H') r.server r.term l ∧ (l.length : Int) = r.index + 1)
    (hapart : ∀ q ∈ s.starts, q.Apart r) :
    Sim { (s.setRaft i rf').spawn calls with starts := s.starts ++ [r] } a' H' := by
  refine sim.recorded m rfl hlog (fun el hel => Or.inl hel) ?_ ?_ ?_ ?_
  · intro c hc
    rcases List.mem_append.mp hc with hc | hc
    · exact Or.inl hc
    · exact Or.inr (hcalls c hc)
  · exact fun q hq => List.mem_append_left _ hq
  · intro q hq
    rcases List.mem_append.mp hq with hq | hq
    · exact Or.inl hq
    · obtain rfl := List.mem_singleton.mp hq
      exact Or.inr hr
  · refine List.pairwise_append.mpr ⟨sim.apart, List.pairwise_singleton _ _, ?_⟩
    intro q hq p hp
    obtain rfl := List.mem_singleton.mp hp
    exact hapart q hq

theorem extend_moves {i : Fin n} (hl : (s.rafts i).state = .leader) {e : LogEntry α}
    (he : e.term = (s.rafts i).currentTerm) :
    ∃ a' H', Moves genesis i a H
      { view (s.rafts i) with log := (s.rafts i).log ++ [e] } a' H' := by
  have hmove := Move.extend (G := genesis) (H := a :: H) (a := a) (v := i) e
    (by rw [sim.node]; exact hl) (by rw [sim.node]; exact he)
  rw [sim.node] at hmove
  exact ⟨_, _, (Moves.refl sim.run).next rfl hmove⟩

theorem start {i : Fin n} {command : Option α} {rf' : Raft n α}
    {calls : List (AppendCall n α)} {index term : Int} {isLeader : Bool}
    (h : (s.rafts i).start i (s.incarnation i) command =
      some (rf', calls, index, term, isLeader)) :
    Matched { (s.setRaft i rf').spawn calls with
      starts := s.starts ++ [⟨i, command, index, term, isLeader⟩] } a H := by
  have hold := sim.logs _ (sim.seen i)
  rcases Raft.start_cases h with ⟨_, rfl, rfl, rfl⟩ |
    ⟨hl, rfl, rfl, ⟨last, hlast, rfl⟩, rfl, hcalls⟩
  · have m := Moves.refl (v := i) sim.run
    rw [sim.node] at m
    refine ⟨a, H, sim.recorded_start m ⟨hold.1, hold.2.mono ?_⟩ ?_ ?_ ?_, fun _ hb => hb⟩
    · exact fun r hr => List.mem_append_left _ hr
    · simp
    · simp
    · intro r _ _ hq
      cases hq
  · rw [Raft.lastLogIndex_eq (sim.logOk i)] at hlast
    obtain rfl := Option.some.inj hlast
    have hindex : ((s.rafts i).log.length : Int) - 1 + 1 = (s.rafts i).log.length := by
      omega
    rw [hindex] at hcalls ⊢
    obtain ⟨a', H', m⟩ := sim.extend_moves hl
      (e := ⟨(s.rafts i).currentTerm, command, (s.rafts i).log.length⟩) rfl
    have hled : Led (a' :: H') i (s.rafts i).currentTerm ((s.rafts i).log ++
        [⟨(s.rafts i).currentTerm, command, (s.rafts i).log.length⟩]) :=
      ⟨a', List.mem_cons_self, by simp [m.self, view, hl]⟩
    have hlog := hold.1.append
      (e := ⟨(s.rafts i).currentTerm, command, (s.rafts i).log.length⟩) rfl
    refine ⟨a', H', sim.recorded_start m ⟨hlog, hold.2.append ⟨rfl, rfl, rfl, rfl⟩⟩
      (sendHeartbeats_ok hlog hled hcalls) ?_ (sim.start_apart hl rfl), m.past⟩
    exact fun _ => ⟨_, hled, by simp⟩

theorem stand {i : Fin n} {rf' : Raft n α} {request : RequestVoteArgs n}
    (h : (s.rafts i).electionTick i = some (rf', some request)) :
    Matched { s.setRaft i rf' with
      elections := s.elections ++ [conductElection i (s.incarnation i) request] } a H := by
  have hlog : rf'.log = (s.rafts i).log := by
    rcases Raft.electionTick_cases h with ⟨_, rfl, _⟩ | ⟨_, rfl, _⟩ <;> rfl
  obtain ⟨a', H', m, ok⟩ := sim.stand_moves h
  refine ⟨a', H', sim.moved m rfl ?_ rfl ?_ (fun c hc => Or.inl hc), m.past⟩
  · rw [hlog]
    exact sim.logs _ (sim.seen i)
  · intro el hel
    rcases List.mem_append.mp hel with hel | hel
    · exact Or.inl hel
    · obtain rfl := List.mem_singleton.mp hel
      exact Or.inr ok

theorem requestVote {k : Nat} {peer : Fin n} {el : Election n} {rf' : Raft n α}
    {reply : RequestVoteReply} (hel : s.elections[k]? = some el)
    (hp : el.peers peer = .request)
    (h : (s.rafts peer).requestVote el.request = some (rf', reply)) :
    Matched ((s.setRaft peer rf').setElection k
      { el with peers := Function.update el.peers peer (.reply reply) }) a H := by
  have ok := sim.elections el (List.mem_of_getElem? hel)
  have hlog : rf'.log = (s.rafts peer).log := by
    obtain ⟨_, ⟨_, _, rfl⟩ | ⟨_, _, rfl⟩⟩ := Raft.requestVote_cases h <;> simp
  obtain ⟨a', H', m, hg⟩ := sim.requestVote_moves ok hp h
  refine ⟨a', H', sim.moved m rfl ?_ rfl ?_ (fun c hc => Or.inl hc), m.past⟩
  · rw [hlog]
    exact sim.logs _ (sim.seen peer)
  · intro el' hel'
    rcases List.mem_or_eq_of_mem_set hel' with hel' | rfl
    · exact Or.inl hel'
    · exact Or.inr ((ok.mono m.past m.grant).replied hp hg)

theorem voteReply {k : Nat} {peer : Fin n} {el : Election n}
    {response : RequestVoteReply} {rf' : Raft n α} {totalVotes : Nat}
    {calls : List (AppendCall n α)} (hel : s.elections[k]? = some el)
    (hp : el.peers peer = .reply response)
    (h : (s.rafts el.candidate).countVote el.candidate (s.incarnation el.candidate)
      el.request el.totalVotes response = some (rf', totalVotes, calls)) :
    Matched (((s.setRaft el.candidate rf').setElection k
      { el with
        totalVotes := totalVotes
        peers := Function.update el.peers peer .closed }).spawn calls) a H := by
  have ok := sim.elections el (List.mem_of_getElem? hel)
  have hlog : rf'.log = (s.rafts el.candidate).log := by
    rcases Raft.countVote_cases h with ⟨rfl, _⟩ | ⟨_, _, _, rfl, _⟩ | ⟨_, _, _, rfl, _⟩ |
      ⟨_, _, rfl, _⟩ <;> rfl
  obtain ⟨a', H', m, hv, hcalls⟩ := sim.countVote_moves ok hp h
  refine ⟨a', H', sim.moved m rfl ?_ rfl ?_ ?_, m.past⟩
  · rw [hlog]
    exact sim.logs _ (sim.seen el.candidate)
  · intro el' hel'
    rcases List.mem_or_eq_of_mem_set hel' with hel' | rfl
    · exact Or.inl hel'
    · exact Or.inr ((ok.mono m.past m.grant).consumed hp hv)
  · intro c hc
    rcases List.mem_append.mp hc with hc | hc
    · exact Or.inl hc
    · exact Or.inr (hcalls c hc)

theorem appendEntries {k : Nat} {c : AppendCall n α} {rf' : Raft n α}
    {response : AppendEntriesReply} (hc : s.appends[k]? = some c)
    (h : (s.rafts c.server).appendEntries c.args = some (rf', response)) :
    Matched ((s.setRaft c.server rf').setCall k { c with wire := .reply response })
      a H := by
  obtain ⟨l, ok⟩ := sim.appends c (List.mem_of_getElem? hc)
  obtain ⟨a', H', m, hlog, hsuccess⟩ := sim.appendEntries_moves ok h
  refine ⟨a', H', sim.moved m rfl ?_ rfl (fun el hel => Or.inl hel) ?_, m.past⟩
  · rcases hlog with hlog | hlog <;> rw [hlog]
    · exact sim.logs _ (sim.seen c.server)
    · exact sim.logs l ok.led.seen
  · intro c' hc'
    rcases List.mem_or_eq_of_mem_set hc' with hc' | rfl
    · exact Or.inl hc'
    · refine Or.inr ⟨l, ok.update m.past c.caller ?_⟩
      intro r hr hs
      obtain rfl : response = r := by simpa using hr
      refine ⟨a', List.mem_cons_self, ?_⟩
      rw [m.self]
      exact hsuccess hs

/-- A call moved on and reports no new success. -/
theorem set_call {a' : Abstract n α} {H' : List (Abstract n α)}
    (hH : ∀ b ∈ a :: H, b ∈ a' :: H') {k : Nat} {c : AppendCall n α}
    (hc : s.appends[k]? = some c) (caller : Caller) {wire : Wire AppendEntriesReply}
    (hw : wire = c.wire ∨ ∀ r, wire ≠ .reply r) :
    ∀ c' ∈ s.appends.set k { c with caller := caller, wire := wire },
      c' ∈ s.appends ∨ ∃ l, AppendOk (a' :: H') c' l := by
  intro c' hc'
  rcases List.mem_or_eq_of_mem_set hc' with hc' | rfl
  · exact Or.inl hc'
  · obtain ⟨l, ok⟩ := sim.appends c (List.mem_of_getElem? hc)
    refine Or.inr ⟨l, ok.update hH caller ?_⟩
    intro r hr hs
    rcases hw with rfl | hw
    · obtain ⟨b, hb, hfact⟩ := ok.acked r hr hs
      exact ⟨b, hH b hb, hfact⟩
    · exact absurd hr (hw r)

/-- A call of `i` moved on, and no view changed. -/
theorem call {k : Nat} {c : AppendCall n α} {i : Fin n} {rf' : Raft n α}
    (hc : s.appends[k]? = some c) (caller : Caller) (wire : Wire AppendEntriesReply)
    (hw : wire = c.wire ∨ ∀ r, wire ≠ .reply r) (hview : view rf' = view (s.rafts i)) :
    Sim ((s.setRaft i rf').setCall k { c with caller := caller, wire := wire }) a H :=
  sim.unmoved rfl hview rfl (fun _ hel => Or.inl hel)
    (sim.set_call (fun _ hb => hb) hc caller hw)

/-- A leader whose view did not change has sent some calls. -/
theorem spawn {i : Fin n} {rf' rf : Raft n α} (hl : (s.rafts i).state = .leader)
    (hview : view rf' = view (s.rafts i)) (hsent : view rf = view (s.rafts i))
    {inc : Nat} {calls : List (AppendCall n α)}
    (hcalls : Raft.sendHeartbeats i inc rf = some calls) :
    Sim ((s.setRaft i rf').spawn calls) a H := by
  have hlog : rf.log = (s.rafts i).log := congrArg Node.log hsent
  have hterm : rf.currentTerm = (s.rafts i).currentTerm := congrArg Node.term hsent
  refine sim.unmoved rfl hview rfl (fun _ hel => Or.inl hel) ?_
  intro c hc
  rcases List.mem_append.mp hc with hc | hc
  · exact Or.inl hc
  · refine Or.inr (sendHeartbeats_ok ?_ ?_ hcalls c hc)
    · rw [hlog]
      exact sim.logOk i
    · rw [hlog, hterm]
      exact sim.led hl

theorem appendReply {k : Nat} {c : AppendCall n α} {reply : AppendEntriesReply}
    {rf' : Raft n α} {calls : List (AppendCall n α)} (hc : s.appends[k]? = some c)
    (h : (s.rafts c.leader).respAppendEntries c.leader (s.incarnation c.leader) c.server
      c.expectedNextIndex c.args reply = some (rf', calls)) :
    Matched (((s.setRaft c.leader rf').setCall k
      { c with caller := .unwinding, wire := .closed }).spawn calls) a H := by
  have hwire : (Wire.closed : Wire AppendEntriesReply) = c.wire ∨
      ∀ r, (Wire.closed : Wire AppendEntriesReply) ≠ .reply r := Or.inr (by simp)
  have hset := sim.set_call (fun _ hb => hb) hc .unwinding hwire
  rcases Raft.respAppendEntries_cases h with ⟨_, rfl, rfl⟩ | ⟨hl, _, hcase⟩
  · rw [System.spawn_nil]
    exact ⟨a, H, sim.unmoved rfl rfl rfl (fun _ hel => Or.inl hel) hset, fun _ hb => hb⟩
  rcases hcase with ⟨hlt, rfl, rfl⟩ | ⟨_, _, rfl, hadv⟩ | ⟨_, _, rfl, c', hc', rfl⟩
  · obtain ⟨a', H', m⟩ := sim.stepDown_moves c.leader hlt
    rw [System.spawn_nil]
    exact ⟨a', H', sim.moved m rfl (sim.logs _ (sim.seen c.leader)) rfl
      (fun _ hel => Or.inl hel) (sim.set_call m.past hc .unwinding hwire), m.past⟩
  · have hcore := (Raft.acknowledge_sameCore _ _ _ _).trans
      (Raft.advanceCommit_sameCore hadv)
    rw [System.spawn_nil]
    exact ⟨a, H, sim.unmoved rfl (view_of_sameCore hcore) rfl (fun _ hel => Or.inl hel)
      hset, fun _ hb => hb⟩
  · refine ⟨a, H, sim.unmoved rfl rfl rfl (fun _ hel => Or.inl hel) ?_, fun _ hb => hb⟩
    intro d hd
    rcases List.mem_append.mp hd with hd | hd
    · exact hset d hd
    · obtain rfl := List.mem_singleton.mp hd
      obtain ⟨l, ok⟩ := sim.appends c (List.mem_of_getElem? hc)
      refine Or.inr ⟨_, spawnAppend_ok ?_ ?_ ok.other hc'⟩
      · exact sim.logOk c.leader
      · exact sim.led hl

theorem effect {e : Event n α} (h : s.Effect e s') (hr : NoRestart s e) :
    Matched s' a H := by
  have still : ∀ {t : System n α}, Sim t a H → Matched t a H :=
    fun hs => ⟨a, H, hs, fun _ hb => hb⟩
  have frame : ∀ {i : Fin n} {rf' : Raft n α}, view rf' = view (s.rafts i) →
      Matched (s.setRaft i rf') a H :=
    fun hview => still (sim.unmoved rfl hview rfl (fun _ hel => Or.inl hel)
      (fun _ hc => Or.inl hc))
  cases h with
  | panic _ =>
      exact still ⟨sim.run, sim.node, sim.logs, sim.elections, sim.appends, sim.starts,
        sim.apart⟩
  | heartbeatTick h =>
      rcases Raft.heartbeatTick_cases h with ⟨_, rfl, rfl⟩ | ⟨hl, rfl, hcalls⟩
      · rw [System.spawn_nil]
        exact frame rfl
      · refine still (sim.spawn hl ?_ ?_ hcalls) <;> rfl
  | lead h =>
      rcases Raft.electionTick_cases h with ⟨_, rfl, _⟩ | ⟨_, _, _, _, hr⟩
      · exact frame rfl
      · cases hr
  | stand h => exact sim.stand h
  | start h => exact sim.start h
  | requestVote hel hp h => exact sim.requestVote hel hp h
  | voteReply hel hp h => exact sim.voteReply hel hp h
  | @sendAppend k c hc _ _ _ =>
      have hs := sim.call (i := c.leader) hc .calling .request (Or.inr (by simp)) rfl
      simpa using still hs
  | dropAppend hc _ =>
      refine still (sim.call hc .done _ (Or.inl rfl) ?_)
      rfl
  | appendEntries hc _ h => exact sim.appendEntries hc h
  | appendReply hc _ _ h => exact sim.appendReply hc h
  | @callFails k c hc _ =>
      have hs := sim.call (i := c.leader) hc .unwinding c.wire (Or.inl rfl) rfl
      simpa using still hs
  | unwind hc _ =>
      refine still (sim.call hc .done _ (Or.inl rfl) ?_)
      rfl
  | applyLock _ h =>
      rcases Raft.applyLock_cases h with ⟨_, rfl⟩ | ⟨_, _, _, _, _, rfl⟩ <;>
        exact frame rfl
  | applyReceive _ => exact frame rfl
  | @applySend i entries _ => cases entries <;> exact frame rfl
  | kill => exact frame rfl
  | restart => exact hr.elim

end Sim

/-- Every run without restarts has an abstract history that passes through the
views of each of its states. -/
theorem run_refines {s : System n α} {h : List (System n α)}
    (run : (cluster n α).Run NoRestart (s :: h)) :
    ∃ a H, Sim s a H ∧
      ∀ t ∈ s :: h, ∃ b ∈ a :: H, ∀ i, b.node i = view (t.rafts i) := by
  refine History.head_induction (P := fun s h => ∃ a H, Sim s a H ∧
    ∀ t ∈ s :: h, ∃ b ∈ a :: H, ∀ i, b.node i = view (t.rafts i)) ?_ ?_ run
  · refine ⟨genesis.cluster, [], Sim.init, ?_⟩
    intro t ht
    obtain rfl := List.mem_singleton.mp ht
    exact ⟨genesis.cluster, List.mem_cons_self, Sim.init.node⟩
  · rintro s s' h _ ⟨a, H, sim, hpoints⟩ hnext
    obtain ⟨e, hr, hstep⟩ := (cluster n α).next_cons.mp hnext
    obtain ⟨a', H', sim', hpast⟩ := sim.effect (System.step_effect hstep) hr
    refine ⟨a', H', sim', ?_⟩
    intro t ht
    cases ht with
    | head => exact ⟨a', List.mem_cons_self, sim'.node⟩
    | tail _ ht =>
        obtain ⟨b, hb, hnode⟩ := hpoints t ht
        exact ⟨b, hpast b hb, hnode⟩

end RaftLab
