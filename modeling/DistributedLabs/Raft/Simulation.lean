import DistributedLabs.Raft.Transitions
import DistributedLabs.Raft.Logs

/-!
The cluster refines the abstract replicated log, as long as no peer restarts.
A peer's view is its term, vote, log and role. `Sim` ties the newest cluster
state to an abstract history: what a message on the network says was once true
of its sender, and a counted vote was granted. Every event is matched by a few
moves of the peer it runs on, or by none.
-/

namespace RaftLab

open TermLog

variable {n : Nat} {α : Type}

abbrev Abstract (n : Nat) (α : Type) := Cluster (Fin n) (LogEntry α)

def view (rf : Raft n α) : Node (Fin n) (LogEntry α) :=
  ⟨rf.currentTerm, rf.votedFor, rf.log, rf.state⟩

theorem view_of_sameCore {rf rf' : Raft n α} (h : rf.SameCore rf') :
    view rf' = view rf := by
  simp only [view, h.currentTerm, h.votedFor, h.log, h.state]

def genesis : Genesis (LogEntry α) where
  term := LogEntry.term
  log := [sentinel]
  epoch := 0
  bounded := by simp [sentinel]
  sorted := by simp

/-- A vote request reports the log its candidate stood with; a reply that grants
it, in no newer term, is a grant; the counted replies are grants. -/
structure ElectionOk (H : List (Abstract n α)) (a : Abstract n α) (el : Election n) :
    Prop where
  candidate : el.request.candidateId = el.candidate
  stood : ∃ l x, Campaigned H el.candidate el.request.term l ∧ l.getLast? = some x ∧
    el.request.lastLogTerm = x.term ∧ el.request.lastLogIndex = (l.length : Int) - 1
  self : el.peers el.candidate = .closed
  granted : ∀ p r, el.peers p = .reply r → r.voteGranted = true →
    r.term ≤ el.request.term → a.grant p el.request.term el.candidate
  counted : ∃ Q : Finset (Fin n), Q.card + 1 = el.totalVotes ∧ el.candidate ∉ Q ∧
    ∀ p ∈ Q, el.peers p = .closed ∧ a.grant p el.request.term el.candidate

/-- The call carries a tail of `l`, which its sender had while it led the term of
the call; a successful reply means that the receiver had all of `l` in that term. -/
structure AppendOk (H : List (Abstract n α)) (c : AppendCall n α)
    (l : List (LogEntry α)) : Prop where
  led : Led H c.leader c.args.term l
  other : c.server ≠ c.leader
  snapshot : Snapshot l c
  acked : ∀ r, c.wire = .reply r → r.success = true →
    ∃ b ∈ H, (b.node c.server).term = c.args.term ∧ l <+: (b.node c.server).log

/-- The call of `Start` that returned `r` put `e` into a log. -/
def StartReturn.Made (r : StartReturn n α) (e : LogEntry α) : Prop :=
  r.isLeader = true ∧ r.command = e.command ∧ r.index = e.index ∧ r.term = e.term

/-- Every entry of `l` but the sentinel was put there by a call of `Start`. -/
def Born (starts : List (StartReturn n α)) (l : List (LogEntry α)) : Prop :=
  ∀ k e, l[k]? = some e → k = 0 ∨ ∃ r ∈ starts, r.Made e

/-- Two calls of `Start` returned different positions, if both found a leader. -/
def StartReturn.Apart (r q : StartReturn n α) : Prop :=
  r.isLeader = true → q.isLeader = true → ¬ (r.index = q.index ∧ r.term = q.term)

structure Sim (s : System n α) (a : Abstract n α) (H : List (Abstract n α)) : Prop where
  run : Run genesis (a :: H)
  node : ∀ i, a.node i = view (s.rafts i)
  logs : ∀ l, Seen (a :: H) l → LogOk l ∧ Born s.starts l
  elections : ∀ el ∈ s.elections, ElectionOk (a :: H) a el
  appends : ∀ c ∈ s.appends, ∃ l, AppendOk (a :: H) c l
  starts : ∀ r ∈ s.starts, r.isLeader = true →
    ∃ l, Led (a :: H) r.server r.term l ∧ (l.length : Int) = r.index + 1
  apart : s.starts.Pairwise StartReturn.Apart

section Frames

variable {a a' : Abstract n α} {H H' : List (Abstract n α)}

theorem ElectionOk.mono (hH : ∀ b ∈ H, b ∈ H')
    (hg : ∀ w T c, a.grant w T c → a'.grant w T c) {el : Election n}
    (h : ElectionOk H a el) : ElectionOk H' a' el where
  candidate := h.candidate
  stood := by
    obtain ⟨l, x, hl, hx⟩ := h.stood
    exact ⟨l, x, hl.mono hH, hx⟩
  self := h.self
  granted := fun p r hp hr ht => hg _ _ _ (h.granted p r hp hr ht)
  counted := by
    obtain ⟨Q, hQ, hc, hp⟩ := h.counted
    exact ⟨Q, hQ, hc, fun p hpQ => ⟨(hp p hpQ).1, hg _ _ _ (hp p hpQ).2⟩⟩

/-- The call has moved on; a success it now reports is a fact. -/
theorem AppendOk.update {c : AppendCall n α} {l : List (LogEntry α)}
    (h : AppendOk H c l) (hH : ∀ b ∈ H, b ∈ H') (caller : Caller)
    {wire : Wire AppendEntriesReply}
    (hw : ∀ r, wire = .reply r → r.success = true →
      ∃ b ∈ H', (b.node c.server).term = c.args.term ∧ l <+: (b.node c.server).log) :
    AppendOk H' { c with caller := caller, wire := wire } l where
  led := h.led.mono hH
  other := h.other
  snapshot := ⟨h.snapshot.prev, h.snapshot.expected⟩
  acked := hw

theorem AppendOk.mono {c : AppendCall n α} {l : List (LogEntry α)}
    (h : AppendOk H c l) (hH : ∀ b ∈ H, b ∈ H') : AppendOk H' c l := by
  have acked : ∀ r, c.wire = .reply r → r.success = true →
      ∃ b ∈ H', (b.node c.server).term = c.args.term ∧ l <+: (b.node c.server).log := by
    intro r hr hs
    obtain ⟨b, hb, hfact⟩ := h.acked r hr hs
    exact ⟨b, hH b hb, hfact⟩
  exact h.update hH c.caller acked

theorem Born.mono {starts starts' : List (StartReturn n α)}
    (hs : ∀ r ∈ starts, r ∈ starts') {l : List (LogEntry α)} (h : Born starts l) :
    Born starts' l := by
  intro k e hk
  rcases h k e hk with h0 | ⟨r, hr, hm⟩
  · exact Or.inl h0
  · exact Or.inr ⟨r, hs r hr, hm⟩

/-- A peer has replied; a grant it reports is a fact. -/
theorem ElectionOk.replied {el : Election n} (h : ElectionOk H a el) {peer : Fin n}
    (hp : el.peers peer = .request) {reply : RequestVoteReply}
    (hg : reply.voteGranted = true → reply.term ≤ el.request.term →
      a.grant peer el.request.term el.candidate) :
    ElectionOk H a { el with peers := Function.update el.peers peer (.reply reply) } where
  candidate := h.candidate
  stood := h.stood
  self := by
    have hne : el.candidate ≠ peer := by
      rintro rfl
      rw [h.self] at hp
      cases hp
    simpa [hne] using h.self
  granted := by
    intro p r hr hv ht
    by_cases hpp : p = peer
    · subst hpp
      obtain rfl : reply = r := by simpa using hr
      exact hg hv ht
    · exact h.granted p r (by simpa [hpp] using hr) hv ht
  counted := by
    obtain ⟨Q, hQ, hc, hin⟩ := h.counted
    refine ⟨Q, hQ, hc, ?_⟩
    intro p hpQ
    have hpp : p ≠ peer := by
      rintro rfl
      rw [(hin p hpQ).1] at hp
      cases hp
    exact ⟨by simpa [hpp] using (hin p hpQ).1, (hin p hpQ).2⟩

/-- A reply has been consumed and counts only if it is a grant. -/
theorem ElectionOk.consumed {el : Election n} (h : ElectionOk H a el) {peer : Fin n}
    {response : RequestVoteReply} (hp : el.peers peer = .reply response)
    {totalVotes : Nat}
    (hv : totalVotes = el.totalVotes ∨ (totalVotes = el.totalVotes + 1 ∧
      response.voteGranted = true ∧ response.term ≤ el.request.term)) :
    ElectionOk H a { el with
      totalVotes := totalVotes, peers := Function.update el.peers peer .closed } where
  candidate := h.candidate
  stood := h.stood
  self := by
    by_cases hc : el.candidate = peer
    · simp [hc]
    · simpa [hc] using h.self
  granted := by
    intro p r hr
    have hpp : p ≠ peer := by
      rintro rfl
      simp at hr
    exact h.granted p r (by simpa [hpp] using hr)
  counted := by
    obtain ⟨Q, hQ, hc, hin⟩ := h.counted
    have hclosed : ∀ p ∈ Q, Function.update el.peers peer Wire.closed p = .closed ∧
        a.grant p el.request.term el.candidate := by
      intro p hpQ
      refine ⟨?_, (hin p hpQ).2⟩
      by_cases hpp : p = peer
      · simp [hpp]
      · simpa [hpp] using (hin p hpQ).1
    rcases hv with rfl | ⟨rfl, hg, ht⟩
    · exact ⟨Q, hQ, hc, hclosed⟩
    · have hnew : peer ∉ Q := by
        intro hpQ
        rw [(hin peer hpQ).1] at hp
        cases hp
      have hne : el.candidate ≠ peer := by
        rintro rfl
        rw [h.self] at hp
        cases hp
      refine ⟨insert peer Q, ?_, by simp [hne, hc], ?_⟩
      · rw [Finset.card_insert_of_notMem hnew, hQ]
      · intro p hpQ
        rcases Finset.mem_insert.mp hpQ with rfl | hpQ
        · exact ⟨by simp, h.granted p response hp hg ht⟩
        · exact hclosed p hpQ

/-- A call that has not been sent carries its leader's log. -/
theorem AppendOk.unsent {i : Fin n} {rf : Raft n α} {c : AppendCall n α}
    (hled : Led H i rf.currentTerm rf.log) (hleader : c.leader = i) (hne : c.server ≠ i)
    (hterm : c.args.term = rf.currentTerm) (hwire : c.wire = .unsent)
    (hsnap : Snapshot rf.log c) : AppendOk H c rf.log := by
  subst hleader
  refine ⟨hterm ▸ hled, hne, hsnap, ?_⟩
  intro r hr
  rw [hwire] at hr
  cases hr

theorem sendHeartbeats_ok {i : Fin n} {inc : Nat} {rf : Raft n α}
    {calls : List (AppendCall n α)} (hlog : LogOk rf.log)
    (hled : Led H i rf.currentTerm rf.log)
    (h : Raft.sendHeartbeats i inc rf = some calls) :
    ∀ c ∈ calls, ∃ l, AppendOk H c l := by
  intro c hc
  obtain ⟨hleader, hserver, hterm, _, hwire, hsnap⟩ :=
    Raft.sendHeartbeats_spec hlog h c hc
  exact ⟨rf.log, .unsent hled hleader hserver hterm hwire hsnap⟩

theorem spawnAppend_ok {i server : Fin n} {inc : Nat} {rf : Raft n α}
    {c : AppendCall n α} (hlog : LogOk rf.log) (hled : Led H i rf.currentTerm rf.log)
    (hne : server ≠ i) (h : Raft.spawnAppend i inc rf server = some c) :
    AppendOk H c rf.log := by
  obtain ⟨hleader, rfl, hterm, _, hwire, hsnap⟩ := Raft.spawnAppend_spec hlog h
  exact .unsent hled hleader hne hterm hwire hsnap

end Frames

namespace Sim

variable {s s' : System n α} {a a' : Abstract n α} {H H' : List (Abstract n α)}

theorem init : Sim (System.init : System n α) genesis.cluster [] where
  run := .start
  node := fun _ => rfl
  logs := by
    rintro l ⟨b, hb, v, rfl⟩
    obtain rfl := List.mem_singleton.mp hb
    refine ⟨LogOk.singleton, ?_⟩
    intro k e hk
    cases k with
    | zero => exact Or.inl rfl
    | succ k => simp [genesis, Genesis.cluster] at hk
  elections := by simp [System.init]
  appends := by simp [System.init]
  starts := by simp [System.init]
  apart := .nil

variable (sim : Sim s a H)
include sim

theorem seen (i : Fin n) : Seen (a :: H) (s.rafts i).log :=
  ⟨a, List.mem_cons_self, i, by rw [sim.node]; rfl⟩

theorem logOk (i : Fin n) : LogOk (s.rafts i).log :=
  (sim.logs _ (sim.seen i)).1

theorem matches_seen {f l : List (LogEntry α)} (hf : Seen (a :: H) f)
    (hl : Seen (a :: H) l) : Matches f l :=
  fun _ _ _ hx hy hxy => sim.run.log_matching hf hl hx hy hxy

theorem led {i : Fin n} (h : (s.rafts i).state = .leader) :
    Led (a :: H) i (s.rafts i).currentTerm (s.rafts i).log :=
  ⟨a, List.mem_cons_self, by simp [sim.node, view, h]⟩

/-- One peer moved, and with it at most an election, some calls and a return of
`Start`. -/
theorem recorded {i : Fin n} {rf' : Raft n α}
    (m : Moves genesis i a H (view rf') a' H')
    (hrafts : s'.rafts = Function.update s.rafts i rf')
    (hlog : LogOk rf'.log ∧ Born s'.starts rf'.log)
    (helections : ∀ el ∈ s'.elections, el ∈ s.elections ∨ ElectionOk (a' :: H') a' el)
    (happends : ∀ c ∈ s'.appends, c ∈ s.appends ∨ ∃ l, AppendOk (a' :: H') c l)
    (hkept : ∀ r ∈ s.starts, r ∈ s'.starts)
    (hstarts : ∀ r ∈ s'.starts, r ∈ s.starts ∨ (r.isLeader = true →
      ∃ l, Led (a' :: H') r.server r.term l ∧ (l.length : Int) = r.index + 1))
    (hapart : s'.starts.Pairwise StartReturn.Apart) :
    Sim s' a' H' where
  run := m.run
  node := by
    intro j
    rw [m.node, hrafts]
    by_cases hj : j = i
    · subst hj
      simp
    · simp [hj, sim.node]
  logs := by
    intro l hl
    rcases m.seen l hl with h | rfl
    · exact ⟨(sim.logs l h).1, (sim.logs l h).2.mono hkept⟩
    · exact hlog
  elections := by
    intro el hel
    rcases helections el hel with h | h
    · exact (sim.elections el h).mono m.past m.grant
    · exact h
  appends := by
    intro c hc
    rcases happends c hc with h | h
    · obtain ⟨l, hl⟩ := sim.appends c h
      exact ⟨l, hl.mono m.past⟩
    · exact h
  starts := by
    intro r hr hleader
    rcases hstarts r hr with h | h
    · obtain ⟨l, hled, hlen⟩ := sim.starts r h hleader
      exact ⟨l, hled.mono m.past, hlen⟩
    · exact h hleader
  apart := hapart

theorem moved {i : Fin n} {rf' : Raft n α}
    (m : Moves genesis i a H (view rf') a' H')
    (hrafts : s'.rafts = Function.update s.rafts i rf')
    (hlog : LogOk rf'.log ∧ Born s.starts rf'.log)
    (hstarts : s'.starts = s.starts)
    (helections : ∀ el ∈ s'.elections, el ∈ s.elections ∨ ElectionOk (a' :: H') a' el)
    (happends : ∀ c ∈ s'.appends, c ∈ s.appends ∨ ∃ l, AppendOk (a' :: H') c l) :
    Sim s' a' H' := by
  refine sim.recorded m hrafts (hstarts ▸ hlog) helections happends ?_ ?_ ?_
  · exact fun r hr => hstarts ▸ hr
  · exact fun r hr => Or.inl (hstarts ▸ hr)
  · exact hstarts ▸ sim.apart

/-- A change no view shows. -/
theorem unmoved {i : Fin n} {rf' : Raft n α}
    (hrafts : s'.rafts = Function.update s.rafts i rf')
    (hview : view rf' = view (s.rafts i)) (hstarts : s'.starts = s.starts)
    (helections : ∀ el ∈ s'.elections, el ∈ s.elections ∨ ElectionOk (a :: H) a el)
    (happends : ∀ c ∈ s'.appends, c ∈ s.appends ∨ ∃ l, AppendOk (a :: H) c l) :
    Sim s' a H := by
  have hlog : rf'.log = (s.rafts i).log := congrArg Node.log hview
  refine sim.moved ?_ hrafts ?_ hstarts helections happends
  · rw [hview, ← sim.node]
    exact .refl sim.run
  · rw [hlog]
    exact sim.logs _ (sim.seen i)

theorem stand_moves {i : Fin n} {rf' : Raft n α} {request : RequestVoteArgs n}
    (h : (s.rafts i).electionTick i = some (rf', some request)) :
    ∃ a' H', Moves genesis i a H (view rf') a' H' ∧
      ElectionOk (a' :: H') a' (conductElection i (s.incarnation i) request) := by
  rcases Raft.electionTick_cases h with ⟨_, _, hr⟩ | ⟨hl, rfl, last, hlast, hr⟩
  · cases hr
  obtain rfl := Option.some.inj hr
  have hmove := Move.campaign (G := genesis) (H := a :: H) (a := a) (v := i)
    (by rw [sim.node]; exact hl)
  rw [sim.node] at hmove
  obtain ⟨a', H', m⟩ : ∃ a' H', Moves genesis i a H
      ⟨(s.rafts i).currentTerm + 1, some i, (s.rafts i).log, .candidate⟩ a' H' :=
    ⟨_, _, (Moves.refl sim.run).next rfl hmove⟩
  have hstood : Campaigned (a' :: H') i ((s.rafts i).currentTerm + 1) (s.rafts i).log :=
    ⟨a', List.mem_cons_self, by simp [m.self]⟩
  refine ⟨a', H', m, rfl, ?_, by simp [conductElection], ?_, ∅, by simp [conductElection]⟩
  · obtain ⟨x, hx, _⟩ := (sim.logOk i).getLast
    refine ⟨(s.rafts i).log, x, hstood, hx, Raft.lastLogTerm_eq hx, ?_⟩
    rw [Raft.lastLogIndex_eq (sim.logOk i)] at hlast
    exact (Option.some.inj hlast).symm
  · intro p r hp
    simp only [conductElection] at hp
    split at hp <;> cases hp

theorem advance_moves (i : Fin n) {T : Int} (hT : (s.rafts i).currentTerm < T) :
    ∃ a' H', Moves genesis i a H ⟨T, none, (s.rafts i).log, .follower⟩ a' H' := by
  have hmove := Move.advance (G := genesis) (H := a :: H) (a := a) (v := i) T
    (by rw [sim.node]; exact hT)
  rw [sim.node] at hmove
  exact ⟨_, _, (Moves.refl sim.run).next rfl hmove⟩

theorem observe_moves (i : Fin n) (T : Int) :
    ∃ a' H', Moves genesis i a H (view ((s.rafts i).observeTerm T)) a' H' := by
  by_cases hT : (s.rafts i).currentTerm < T
  · rw [Raft.observeTerm_of_lt hT]
    exact sim.advance_moves i hT
  · rw [Raft.observeTerm_of_le (Int.not_lt.mp hT), ← sim.node]
    exact ⟨a, H, .refl sim.run⟩

theorem upToDate_of_grants {i : Fin n} {args : RequestVoteArgs n}
    (hg : (s.rafts i).Grants args) {l : List (LogEntry α)} {x : LogEntry α}
    (hx : l.getLast? = some x) (hterm : args.lastLogTerm = x.term)
    (hindex : args.lastLogIndex = (l.length : Int) - 1) :
    genesis.UpToDate l (s.rafts i).log := by
  obtain ⟨y, hy, _⟩ := (sim.logOk i).getLast
  have hu := hg.1
  have hlog : LogOk ((s.rafts i).observeTerm args.term).log := by
    rw [Raft.observeTerm_log]
    exact sim.logOk i
  have hlast : ((s.rafts i).observeTerm args.term).lastLogTerm = y.term :=
    Raft.lastLogTerm_eq (by rw [Raft.observeTerm_log]; exact hy)
  refine ⟨x, y, hx, hy, ?_⟩
  simp only [Raft.upToDate, hlast, Raft.lastLogIndex_eq hlog, hterm, hindex,
    Raft.observeTerm_log, Option.map_some] at hu
  change y.term < x.term ∨ (x.term = y.term ∧ (s.rafts i).log.length ≤ l.length)
  split at hu
  · exact Or.inl ‹_›
  · split at hu
    · refine Or.inr ⟨‹_›, ?_⟩
      have := of_decide_eq_true (Option.some.inj hu)
      omega
    · simp at hu

/-- A granted request of no older term is a grant of the candidate's election; an
older one wastes the vote. -/
theorem requestVote_moves {el : Election n} {peer : Fin n} {rf' : Raft n α}
    {reply : RequestVoteReply} (ok : ElectionOk (a :: H) a el)
    (hp : el.peers peer = .request)
    (h : (s.rafts peer).requestVote el.request = some (rf', reply)) :
    ∃ a' H', Moves genesis peer a H (view rf') a' H' ∧
      (reply.voteGranted = true → reply.term ≤ el.request.term →
        a'.grant peer el.request.term el.candidate) := by
  obtain ⟨hterm, ⟨_, hg, rfl⟩ | ⟨hno, _, rfl⟩⟩ := Raft.requestVote_cases h
  · by_cases hT : el.request.term < (s.rafts peer).currentTerm
    · have hobs := Raft.observeTerm_of_le (Int.le_of_lt hT)
      have hstale : ¬ reply.term ≤ el.request.term := by omega
      rw [hobs]
      rcases hobs ▸ hg.2 with hv | hv
      · have hmove := Move.waste (G := genesis) (H := a :: H) (a := a) (v := peer)
          el.request.candidateId (by rw [sim.node]; exact hv)
        rw [sim.node] at hmove
        exact ⟨_, _, (Moves.refl sim.run).next rfl hmove, fun _ h => absurd h hstale⟩
      · refine ⟨a, H, ?_, fun _ h => absurd h hstale⟩
        have hsame : view { s.rafts peer with
            votedFor := some el.request.candidateId, electionTime := true } =
              a.node peer := by
          rw [sim.node, view, view, hv]
        rw [hsame]
        exact .refl sim.run
    · obtain ⟨a₁, H₁, m⟩ := sim.observe_moves peer el.request.term
      have hnow : ((s.rafts peer).observeTerm el.request.term).currentTerm =
          el.request.term := Raft.observeTerm_currentTerm (Int.not_lt.mp hT)
      have hne : el.candidate ≠ peer := by
        rintro rfl
        rw [ok.self] at hp
        cases hp
      obtain ⟨l, x, hl, hx, hlt, hli⟩ := ok.stood
      have hself := m.self
      have hmove := Move.grant (G := genesis) (H := a₁ :: H₁) (a := a₁) (v := peer)
        el.candidate l hne
        (by rw [hself]; simpa [view, hnow] using hl.mono m.past)
        (by rw [hself, ← ok.candidate]; exact hg.2)
        (by
          rw [hself]
          simpa [view] using sim.upToDate_of_grants hg hx hlt hli)
      rw [hself, ← ok.candidate] at hmove
      refine ⟨_, _, m.next (by simp [view, sim.node]) hmove, fun _ _ => Or.inr ?_⟩
      exact ⟨rfl, by rw [hself]; exact hnow.symm, by rw [ok.candidate]⟩
  · obtain ⟨a₁, H₁, m⟩ := sim.observe_moves peer el.request.term
    exact ⟨a₁, H₁, m, fun hy => by rw [hno] at hy; cases hy⟩

theorem stepDown_moves (i : Fin n) {T : Int} (hT : (s.rafts i).currentTerm < T) :
    ∃ a' H', Moves genesis i a H (view ((s.rafts i).stepDown T)) a' H' :=
  sim.advance_moves i hT

theorem win_moves {el : Election n} {peer : Fin n} {response : RequestVoteReply}
    (ok : ElectionOk (a :: H) a el) (hp : el.peers peer = .reply response)
    (hw : (s.rafts el.candidate).Wins el.request el.totalVotes response) :
    ∃ a' H', Moves genesis el.candidate a H
      { view (s.rafts el.candidate) with role := .leader } a' H' := by
  obtain ⟨hrole, hterm, hle, hgranted, hmajority⟩ := hw
  obtain ⟨Q, hQ, hc, hin⟩ :=
    (ok.consumed hp (Or.inr ⟨rfl, hgranted, hterm ▸ hle⟩)).counted
  have hmove := Move.elect (G := genesis) (H := a :: H) (a := a) (v := el.candidate)
    (insert el.candidate Q) (by rw [sim.node]; exact hrole)
    (by
      simp only at hQ hc
      rw [Majority.IsMajority, Finset.card_insert_of_notMem hc, Fintype.card_fin]
      omega)
    (by
      intro w hw
      rcases Finset.mem_insert.mp hw with rfl | hw
      · exact Or.inl rfl
      · refine Or.inr ?_
        rw [sim.node]
        simpa [view, hterm] using (hin w hw).2)
  rw [sim.node] at hmove
  exact ⟨_, _, (Moves.refl sim.run).next rfl hmove⟩

theorem countVote_moves {el : Election n} {peer : Fin n} {response : RequestVoteReply}
    {rf' : Raft n α} {totalVotes : Nat} {calls : List (AppendCall n α)}
    (ok : ElectionOk (a :: H) a el) (hp : el.peers peer = .reply response)
    (h : (s.rafts el.candidate).countVote el.candidate (s.incarnation el.candidate)
      el.request el.totalVotes response = some (rf', totalVotes, calls)) :
    ∃ a' H', Moves genesis el.candidate a H (view rf') a' H' ∧
      (totalVotes = el.totalVotes ∨ (totalVotes = el.totalVotes + 1 ∧
        response.voteGranted = true ∧ response.term ≤ el.request.term)) ∧
      ∀ c ∈ calls, ∃ l, AppendOk (a' :: H') c l := by
  have stay : Moves genesis el.candidate a H (view (s.rafts el.candidate)) a H := by
    rw [← sim.node]
    exact .refl sim.run
  rcases Raft.countVote_cases h with ⟨rfl, hv, rfl⟩ | ⟨_, _, hlt, rfl, hv, rfl⟩ |
    ⟨ht, hle, hg, rfl, hv, rfl⟩ | ⟨hw, hv, rfl, hcalls⟩
  · exact ⟨a, H, stay, Or.inl hv, by simp⟩
  · obtain ⟨a', H', m⟩ := sim.stepDown_moves el.candidate hlt
    exact ⟨a', H', m, Or.inl hv, by simp⟩
  · exact ⟨a, H, stay, Or.inr ⟨hv, hg, ht ▸ hle⟩, by simp⟩
  · obtain ⟨a', H', m⟩ := sim.win_moves ok hp hw
    refine ⟨a', H', m, Or.inr ⟨hv, hw.2.2.2.1, hw.2.1 ▸ hw.2.2.1⟩, ?_⟩
    have hlog : LogOk (s.rafts el.candidate).elected.log := sim.logOk el.candidate
    refine sendHeartbeats_ok hlog ?_ hcalls
    exact ⟨a', List.mem_cons_self, by simp [m.self, view, Raft.elected]⟩

theorem followLeader_moves {c : AppendCall n α} {l : List (LogEntry α)}
    (ok : AppendOk (a :: H) c l)
    (hle : (s.rafts c.server).currentTerm ≤ c.args.term) :
    ∃ a' H', Moves genesis c.server a H
      (view ((s.rafts c.server).followLeader c.args.term)) a' H' := by
  obtain ⟨a₁, H₁, m⟩ := sim.observe_moves c.server c.args.term
  have hself := m.self
  have hview : view ((s.rafts c.server).followLeader c.args.term) =
      { view ((s.rafts c.server).observeTerm c.args.term) with role := .follower } := by
    rw [Raft.followLeader_of_le hle]
    unfold Raft.observeTerm
    split
    · simp [view, *]
    · have : c.args.term = (s.rafts c.server).currentTerm := by omega
      simp [view, *]
  have hterm : (a₁.node c.server).term = c.args.term := by
    have := congrArg Node.term hview
    rw [hself]
    rw [Raft.followLeader_of_le hle] at this
    exact this.symm
  have hmove := Move.follow (G := genesis) (H := a₁ :: H₁) (a := a₁) (v := c.server)
    c.leader l ok.other.symm (by rw [hterm]; exact ok.led.mono m.past)
  rw [hself] at hmove
  rw [hview]
  exact ⟨_, _, m.next (by simp [view, sim.node]) hmove⟩

/-- An accepted request leaves the receiver in the leader's term with all of the
leader's log. -/
theorem appendEntries_moves {c : AppendCall n α} {l : List (LogEntry α)}
    {rf' : Raft n α} {response : AppendEntriesReply} (ok : AppendOk (a :: H) c l)
    (h : (s.rafts c.server).appendEntries c.args = some (rf', response)) :
    ∃ a' H', Moves genesis c.server a H (view rf') a' H' ∧
      (rf'.log = (s.rafts c.server).log ∨ rf'.log = l) ∧
      (response.success = true → rf'.currentTerm = c.args.term ∧ l <+: rf'.log) := by
  rcases Raft.appendEntries_cases h with ⟨_, rfl, rfl⟩ | ⟨hle, rf₁, hacc, rfl⟩
  · refine ⟨a, H, ?_, Or.inl rfl, by simp⟩
    have := Moves.refl (v := c.server) sim.run
    rwa [sim.node] at this
  have hfollow := Raft.followLeader_of_le hle
  obtain ⟨a₁, H₁, m⟩ := sim.followLeader_moves ok hle
  have hlog : ((s.rafts c.server).followLeader c.args.term).log =
      (s.rafts c.server).log := by
    rw [hfollow]
  have hlogOk := sim.logOk c.server
  have hmatches := sim.matches_seen (sim.seen c.server) ok.led.seen
  rw [← hlog] at hlogOk hmatches
  obtain ⟨rf₂, response₂, hspec, hcase⟩ :=
    Raft.acceptEntries_spec _ hlogOk (sim.logs l ok.led.seen).1 hmatches ok.snapshot
  rw [hacc] at hspec
  obtain ⟨rfl, rfl⟩ := Prod.mk.inj (Option.some.inj hspec)
  rcases hcase with ⟨hno, rfl⟩ | ⟨_, log, chan, ⟨hp, rfl⟩ | ⟨hp, rfl⟩, rfl⟩
  · exact ⟨a₁, H₁, m, Or.inl hlog, by simp [hno]⟩
  · refine ⟨a₁, H₁, m, Or.inl hlog, fun _ => ⟨?_, hp⟩⟩
    change ((s.rafts c.server).followLeader c.args.term).currentTerm = c.args.term
    rw [hfollow]
  · have hterm : ((s.rafts c.server).followLeader c.args.term).currentTerm =
        c.args.term := by
      rw [hfollow]
    have hmove := Move.adopt (G := genesis) (H := a₁ :: H₁) (a := a₁) (v := c.server)
      c.leader log ok.other.symm
      (by rw [m.self]; simpa [view, hterm] using ok.led.mono m.past)
      (by rw [m.self]; simp [view, hfollow]) (by rw [m.self]; exact hp)
    rw [m.self] at hmove
    exact ⟨_, _, m.next (by rw [sim.node]; exact hlog) hmove, Or.inr rfl,
      fun _ => ⟨hterm, List.prefix_rfl⟩⟩

end Sim
end RaftLab
