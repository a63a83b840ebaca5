import DistributedLabs.Raft.Refinement

/-!
Acknowledgements. A leader credits a peer with the entries of a request when the
reply is a success and `nextIndex` is where the request began. Requests overtake one
another and a failure sets `nextIndex` back, so the guard may be met by an old
request; but a success was given for all of the leader's log up to the end of the
request, and the peer keeps that much of it while it stays in the leader's term.
-/

namespace RaftLab

open TermLog

variable {n : Nat} {α : Type}

namespace Raft

variable {rf rf' : Raft n α} {server : Fin n} {expected : Int}
  {args : AppendEntriesArgs n α} {reply : AppendEntriesReply}

/-- The reply makes `respAppendEntries` set `matchIndex[server]`. -/
def Credits (rf : Raft n α) (server : Fin n) (expectedNextIndex : Int)
    (args : AppendEntriesArgs n α) (reply : AppendEntriesReply) : Prop :=
  rf.state = .leader ∧ args.term = rf.currentTerm ∧ reply.term ≤ rf.currentTerm ∧
    reply.success = true ∧ rf.nextIndex server + args.entries.length = expectedNextIndex

instance : Decidable (rf.Credits server expected args reply) :=
  inferInstanceAs (Decidable (_ ∧ _))

theorem advanceCommit_matchIndex {me : Fin n} (h : advanceCommit me rf server = some rf') :
    rf'.matchIndex = rf.matchIndex := by
  obtain ⟨_, _, _, _, rfl | ⟨_, _, rfl⟩⟩ := advanceCommit_cases h
  · rfl
  · rfl

/-- No other reply changes `matchIndex`. -/
theorem respAppendEntries_matchIndex {me : Fin n} {inc : Nat}
    {calls : List (AppendCall n α)}
    (h : respAppendEntries me inc rf server expected args reply = some (rf', calls)) :
    rf'.matchIndex =
      if rf.Credits server expected args reply then
        Function.update rf.matchIndex server (expected - 1)
      else rf.matchIndex := by
  rcases respAppendEntries_cases h with ⟨hno, rfl, _⟩ | ⟨hl, ht, hcase⟩
  · rw [if_neg fun hc => hno ⟨hc.1, hc.2.1⟩]
  rcases hcase with ⟨hlt, rfl, _⟩ | ⟨hle, hs, _, hadv⟩ | ⟨_, hs, rfl, _⟩
  · rw [if_neg fun hc => Int.not_le.mpr hlt hc.2.2.1]
    rfl
  · rw [advanceCommit_matchIndex hadv, acknowledge]
    split
    · rename_i hguard
      rw [if_pos ⟨hl, ht, hle, hs, hguard⟩]
    · rename_i hguard
      rw [if_neg fun hc => hguard hc.2.2.2.2]
  · rw [if_neg fun hc => Bool.noConfusion (hs.symm.trans hc.2.2.2.1)]

theorem respAppendEntries_of_credits (me : Fin n) (inc : Nat) {m : Nat} (hlog : LogOk rf.log)
    (hm : expected = m + 1) (hlt : m < rf.log.length)
    (hcredits : rf.Credits server expected args reply) :
    ∃ rf', respAppendEntries me inc rf server expected args reply = some (rf', []) := by
  obtain ⟨hl, ht, hle, hs, hguard⟩ := hcredits
  have hget : rf.log[m]? = some rf.log[m] := List.getElem?_eq_getElem hlt
  have hadv : ∃ rf', advanceCommit me (rf.acknowledge server expected args) server =
      some rf' := by
    have hmatch : expected - 1 - 0 = (m : Int) := by omega
    simp only [advanceCommit, acknowledge, if_pos hguard, GoSlice.get_zero, hlog.zero,
      sentinel, Function.update_self, hmatch, GoSlice.get_natCast, hget,
      Option.bind_eq_bind, Option.bind_some]
    split
    · exact ⟨_, rfl⟩
    · exact ⟨_, rfl⟩
  obtain ⟨rf', hrf'⟩ := hadv
  refine ⟨rf', ?_⟩
  simp [respAppendEntries, hl, ht, hs, Int.not_lt.mpr hle, hrf']

theorem respAppendEntries_log {me : Fin n} {inc : Nat} {calls : List (AppendCall n α)}
    (h : respAppendEntries me inc rf server expected args reply = some (rf', calls)) :
    rf'.log = rf.log := by
  rcases respAppendEntries_cases h with ⟨_, rfl, _⟩ | ⟨_, _, hcase⟩
  · rfl
  rcases hcase with ⟨_, rfl, _⟩ | ⟨_, _, _, hadv⟩ | ⟨_, _, rfl, _⟩
  · rfl
  · exact ((acknowledge_sameCore _ _ _ _).trans (advanceCommit_sameCore hadv)).log
  · rfl

end Raft

section Later

variable {s t : System n α} {a : Abstract n α} {H : List (Abstract n α)}
  {past newer : List (System n α)}

theorem Sim.later (sim : Sim s a H)
    (run : (cluster n α).Run NoRestart (newer ++ s :: past)) :
    ∀ u ∈ newer ++ [s], ∃ a' H', Sim u a' H' ∧ ∀ b ∈ a :: H, b ∈ a' :: H' := by
  induction newer with
  | nil =>
      intro u hu
      obtain rfl := List.mem_singleton.mp hu
      exact ⟨a, H, sim, fun _ hb => hb⟩
  | cons t newer ih =>
      have hprev : (cluster n α).Run NoRestart (newer ++ s :: past) :=
        History.drop [t] (by simp) run
      intro u hu
      cases hu with
      | tail _ hu => exact ih hprev u hu
      | head =>
          obtain ⟨v, rest, hv⟩ := hprev.exists_head
          have hmem : v ∈ newer ++ [s] := by
            cases newer with
            | nil =>
                obtain ⟨rfl, _⟩ := List.cons.inj hv
                exact List.mem_cons_self
            | cons w newer =>
                obtain ⟨rfl, _⟩ := List.cons.inj hv
                exact List.mem_cons_self
          obtain ⟨a₁, H₁, sim₁, hpast₁⟩ := ih hprev v hmem
          rw [List.cons_append, hv] at run
          cases run with
          | next _ hnext =>
              obtain ⟨e, hr, hstep⟩ := (cluster n α).next_cons.mp hnext
              obtain ⟨a₂, H₂, sim₂, hpast₂⟩ := sim₁.effect (System.step_effect hstep) hr
              exact ⟨a₂, H₂, sim₂, fun b hb => hpast₂ b (hpast₁ b hb)⟩

theorem Sim.led_kept (sim : Sim s a H) {i j : Fin n} {T : Int} {l : List (LogEntry α)}
    (hled : Led (a :: H) i T l)
    (hheld : ∃ b ∈ a :: H, (b.node j).term = T ∧ l <+: (b.node j).log)
    (hterm : (s.rafts j).currentTerm = T) : l <+: (s.rafts j).log := by
  obtain ⟨b, hb, hbT, hbl⟩ := hheld
  have hnode : (a.node j).term = T := by
    rw [sim.node]
    exact hterm
  have hkept := sim.run.led_kept b hb (hbT.trans hnode.symm) hbl (hnode.symm ▸ hled)
  rw [sim.node] at hkept
  exact hkept

/-- In every later state the leader and a peer that acknowledged the call, as far as they
are still in its term, have all that the call was sent with. -/
theorem AppendOk.kept {c : AppendCall n α} {l : List (LogEntry α)} {reply : AppendEntriesReply}
    (ok : AppendOk (a :: H) c l) (sim : Sim s a H)
    (run : (cluster n α).Run NoRestart (newer ++ s :: past)) (hw : c.wire = .reply reply)
    (hsuccess : reply.success = true) {u : System n α} (hu : u ∈ newer) :
    ((u.rafts c.server).currentTerm = c.args.term → l <+: (u.rafts c.server).log) ∧
      ((u.rafts c.leader).currentTerm = c.args.term → l <+: (u.rafts c.leader).log) := by
  obtain ⟨a', H', sim', hpast⟩ := sim.later run u (List.mem_append_left _ hu)
  refine ⟨sim'.led_kept (ok.led.mono hpast) ?_, sim'.led_kept (ok.led.mono hpast) ?_⟩
  · obtain ⟨b, hb, hfact⟩ := ok.acked reply hw hsuccess
    exact ⟨b, hpast b hb, hfact⟩
  · obtain ⟨b, hb, _, hT, hlog⟩ := ok.led
    exact ⟨b, hpast b hb, hT, by rw [hlog]⟩

theorem AppendOk.credited {c : AppendCall n α} {l : List (LogEntry α)}
    {reply : AppendEntriesReply} {k : Nat} (ok : AppendOk (a :: H) c l) (sim : Sim s a H)
    (hlead : l <+: (s.rafts c.leader).log) (hstep : s.step (.appendReply k) = some t)
    (hc : s.appends[k]? = some c) (hw : c.wire = .reply reply)
    (hcredits : (s.rafts c.leader).Credits c.server c.expectedNextIndex c.args reply) :
    (t.rafts c.leader).log = (s.rafts c.leader).log ∧
      (t.rafts c.leader).matchIndex c.server = c.expectedNextIndex - 1 := by
  cases System.step_effect hstep with
  | panic hp =>
      cases hp with
      | appendReply hc' hw' _ hnone =>
          obtain rfl := Option.some.inj (hc.symm.trans hc')
          obtain rfl := Wire.reply.inj (hw.symm.trans hw')
          have hpos := (sim.logs l ok.led.seen).1.length_pos
          have hlt : l.length - 1 < (s.rafts c.leader).log.length := by
            have := hlead.length_le
            omega
          obtain ⟨rf', hrf'⟩ := Raft.respAppendEntries_of_credits c.leader
            (s.incarnation c.leader) (sim.logOk c.leader)
            (by rw [ok.snapshot.expected]; omega) hlt hcredits
          rw [hrf'] at hnone
          cases hnone
  | appendReply hc' hw' _ hresp =>
      obtain rfl := Option.some.inj (hc.symm.trans hc')
      obtain rfl := Wire.reply.inj (hw.symm.trans hw')
      have hmatch := Raft.respAppendEntries_matchIndex hresp
      rw [if_pos hcredits] at hmatch
      simp [System.setRaft, System.setCall, System.spawn, hmatch,
        Raft.respAppendEntries_log hresp]

end Later

/-- When a reply makes the leader of a term set `matchIndex[server]` to `m`, the peer,
if it is in that term, has the leader's log up to `m`, and so it has in every later
state in which it is still in that term; the leader keeps this much of its log for as
long as it is in the term. -/
theorem acknowledged_agrees {newer past : List (System n α)} {s t : System n α}
    (run : (cluster n α).Run NoRestart (newer ++ t :: s :: past)) {k : Nat}
    {c : AppendCall n α} {reply : AppendEntriesReply}
    (hstep : s.step (.appendReply k) = some t) (hc : s.appends[k]? = some c)
    (hw : c.wire = .reply reply)
    (hcredits : (s.rafts c.leader).Credits c.server c.expectedNextIndex c.args reply) :
    ∃ m : Nat, (t.rafts c.leader).matchIndex c.server = m ∧
      m < (t.rafts c.leader).log.length ∧
      ∀ u ∈ newer ++ [t],
        ((u.rafts c.server).currentTerm = c.args.term →
          (u.rafts c.server).log.take (m + 1) = (t.rafts c.leader).log.take (m + 1)) ∧
        ((u.rafts c.leader).currentTerm = c.args.term →
          (u.rafts c.leader).log.take (m + 1) = (t.rafts c.leader).log.take (m + 1)) := by
  have hrun : (cluster n α).Run NoRestart (s :: past) :=
    History.drop (newer ++ [t]) (by simp) (by simpa using run)
  obtain ⟨a, H, sim, _⟩ := run_refines hrun
  obtain ⟨l, ok⟩ := sim.appends c (List.mem_of_getElem? hc)
  obtain ⟨hl, hterm, hle, hsuccess, hguard⟩ := id hcredits
  have hpos : 0 < l.length := (sim.logs l ok.led.seen).1.length_pos
  have hlead : l <+: (s.rafts c.leader).log := by
    have hstays := (sim.run.led_stays ok.led (by rw [sim.node]; exact hterm.symm)).2
    rw [sim.node] at hstays
    exact hstays
  have hrun' : (cluster n α).Run NoRestart ((newer ++ [t]) ++ s :: past) := by simpa using run
  have hlater := fun u (hu : u ∈ newer ++ [t]) => ok.kept sim hrun' hw hsuccess hu
  have htake : ∀ f : List (LogEntry α), l <+: f → f.take (l.length - 1 + 1) = l := by
    intro f hf
    rw [Nat.sub_add_cancel hpos]
    exact (List.prefix_iff_eq_take.mp hf).symm
  have hraft := ok.credited sim hlead hstep hc hw hcredits
  refine ⟨l.length - 1, ?_, ?_, ?_⟩
  · rw [hraft.2, ok.snapshot.expected]
    omega
  · rw [hraft.1]
    have := hlead.length_le
    omega
  · intro u hu
    rw [hraft.1, htake _ hlead]
    exact ⟨fun h => htake _ ((hlater u hu).1 h), fun h => htake _ ((hlater u hu).2 h)⟩

/-- Peer 1 acknowledges the first command, and then peer 0 sends another heartbeat. -/
theorem acknowledged_agrees_first_command :
    ∃ (u t s : System 3 Nat) (past : List (System 3 Nat)),
      (cluster 3 Nat).Run NoRestart (u :: t :: s :: past) ∧
      (t.rafts 0).matchIndex 1 = 1 ∧ (u.rafts 1).currentTerm = 1 ∧
      (u.rafts 1).log.take 2 = (t.rafts 0).log.take 2 := by
  obtain ⟨h, run, hfeature⟩ :=
    (cluster 3 Nat).exists_run_of_replay NoRestart
      (firstElection ++ [.start 0 (some 7), .handleAppend 2, .appendEntries 2])
      (fun h => ∃ s ∈ h.head?, ∃ t ∈ s.step (.appendReply 2),
        ∃ u ∈ t.step (.heartbeatTick 0), ∃ c ∈ s.appends[2]?,
        ∃ reply ∈ c.wire.response,
          (s.rafts c.leader).Credits c.server c.expectedNextIndex c.args reply ∧
          c.leader = 0 ∧ c.server = 1 ∧ c.args.term = 1 ∧
          (t.rafts 0).matchIndex 1 = 1 ∧ (u.rafts 1).currentTerm = 1)
      (by decide +kernel)
  obtain ⟨s, past, rfl⟩ := run.exists_head
  obtain ⟨s', hs', t, ht, u, hu, c, hc, reply, hreply, hcredits, hleader, hserver, hterm,
    hmatch, hnow⟩ := hfeature
  obtain rfl := Option.some.inj hs'
  have run' : (cluster 3 Nat).Run NoRestart ([u] ++ t :: s :: past) := by
    refine .next (.next run ?_) ?_
    · exact (cluster 3 Nat).next_cons.mpr ⟨.appendReply 2, trivial, ht⟩
    · exact (cluster 3 Nat).next_cons.mpr ⟨.heartbeatTick 0, trivial, hu⟩
  have hw : c.wire = .reply reply := by
    cases hwire : c.wire with
    | reply r =>
        rw [hwire] at hreply
        rw [Option.some.inj hreply]
    | unsent | request | closed =>
        rw [hwire] at hreply
        cases hreply
  obtain ⟨m, hm, _, hagree⟩ := acknowledged_agrees run' ht hc hw hcredits
  rw [hleader, hserver, hmatch] at hm
  obtain rfl : m = 1 := by omega
  have hu' := (hagree u List.mem_cons_self).1
  rw [hleader, hserver, hterm] at hu'
  exact ⟨u, t, s, past, run', hmatch, hnow, hu' hnow⟩

end RaftLab
