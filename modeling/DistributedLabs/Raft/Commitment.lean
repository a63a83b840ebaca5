import DistributedLabs.Raft.Indices

/-!
State machine safety and index safety. A server that becomes leader keeps the
`matchIndex` of its last leadership, which may lie beyond what the peers have in
the new term, or beyond its own log. The cluster commits entries that a majority
never held, and applies different commands at one index, or a leader panics.
Both properties hold in the runs in which every winner's `matchIndex` lies inside
its log: what it counts by mistake is then older than its term, and a leader commits
only at entries of its own term.
-/

namespace RaftLab

open TermLog

variable {n : Nat} {α : Type}

/-- A reply makes a candidate the leader only if the `matchIndex` of every other peer
lies inside its log. No peer restarts. -/
def FreshMatch (s : System n α) : Event n α → Prop
  | .voteReply k peer => ∀ el ∈ s.elections[k]?, ∀ r ∈ (el.peers peer).response,
      (s.rafts el.candidate).Wins el.request el.totalVotes r → ∀ i, i ≠ el.candidate →
        (s.rafts el.candidate).matchIndex i < (s.rafts el.candidate).log.length
  | .restart _ => False
  | _ => True

instance (s : System n α) (e : Event n α) : Decidable (FreshMatch s e) :=
  match e with
  | .voteReply k _ => Option.decidableForallMem s.elections[k]?
  | .restart _ => isFalse id
  | .heartbeatTick _ | .electionTick _ | .start _ _ | .requestVote _ _
  | .handleAppend _ | .appendEntries _ | .appendReply _ | .callFails _ | .unwind _
  | .applyLock _ | .applyReceive _ | .applySend _ | .kill _ => isTrue trivial

theorem noRestart_of_freshMatch {s : System n α} {e : Event n α} (h : FreshMatch s e) :
    NoRestart s e := by
  cases e <;> first | exact h.elim | trivial

section Total

variable {K : List (Abstract n α)} {me : Fin n} {rf : Raft n α} (inc : Nat)

theorem Indexed.sendHeartbeats_isSome (h : Indexed K me rf) (hlog : LogOk rf.log)
    (hl : rf.state = .leader) : ∃ calls, Raft.sendHeartbeats me inc rf = some calls :=
  Raft.sendHeartbeats_isSome hlog (h.next hl)

theorem Indexed.heartbeatTick_ne_none (h : Indexed K me rf) (hlog : LogOk rf.log) :
    Raft.heartbeatTick me inc rf ≠ none := by
  unfold Raft.heartbeatTick
  dsimp only
  split
  · rename_i hl
    have h' : Indexed K me { rf with heartbeatTime := false } :=
      ⟨h.commit, h.applied, h.matched, h.next, h.acked⟩
    obtain ⟨calls, hcalls⟩ := h'.sendHeartbeats_isSome inc hlog hl
    simp [hcalls]
  · simp

theorem electionTick_ne_none (hlog : LogOk rf.log) : Raft.electionTick me rf ≠ none := by
  obtain ⟨x, hx, _⟩ := hlog.getLast
  unfold Raft.electionTick
  dsimp only
  split
  · simp [Raft.lastLogIndex, Raft.persist, hx]
  · simp

theorem Indexed.start_ne_none (h : Indexed K me rf) (hlog : LogOk rf.log)
    {command : Option α} : Raft.start me inc rf command ≠ none := by
  unfold Raft.start
  split
  · rename_i hl
    have hlast : rf.persist.lastLogIndex = some ((rf.log.length : Int) - 1) :=
      Raft.lastLogIndex_eq hlog
    have hlog' : LogOk (rf.log ++ [⟨rf.currentTerm, command, rf.log.length⟩]) :=
      hlog.append rfl
    obtain ⟨calls, hcalls⟩ :=
      (h.start ⟨rf.currentTerm, command, rf.log.length⟩).sendHeartbeats_isSome inc hlog' hl
    simp only [hlast, Option.bind_eq_bind, Option.bind_some, Int.sub_add_cancel]
    simp only [Raft.persist] at hcalls ⊢
    simp [hcalls]
  · simp

theorem requestVote_ne_none (hlog : LogOk rf.log) {args : RequestVoteArgs n} :
    rf.requestVote args ≠ none := by
  have hu : (rf.upToDate args).isSome = true := by
    unfold Raft.upToDate
    rw [Raft.lastLogIndex_eq hlog]
    split
    · rfl
    · split <;> rfl
  rw [← Raft.requestVote_isSome] at hu
  exact Option.isSome_iff_ne_none.mp hu

theorem Indexed.countVote_ne_none (h : Indexed K me rf) (hlog : LogOk rf.log)
    {request : RequestVoteArgs n} {totalVotes : Nat} {response : RequestVoteReply} :
    Raft.countVote me inc rf request totalVotes response ≠ none := by
  have hnext : ∃ calls, Raft.sendHeartbeats me inc rf.elected = some calls := by
    refine Raft.sendHeartbeats_isSome hlog ?_
    intro i _
    have h0 := h.commitIndex_nonneg
    have h1 := h.commitIndex_lt
    simp only [Raft.elected]
    omega
  obtain ⟨calls, hcalls⟩ := hnext
  simp only [Raft.elected] at hcalls
  unfold Raft.countVote
  split
  · split
    · simp
    · split
      · dsimp only
        split
        · simp [hcalls]
        · simp
      · simp
  · simp

theorem Indexed.applyLock_ne_none (h : Indexed K me rf) (hlog : LogOk rf.log) :
    rf.applyLock ≠ none := by
  have h0 := h.applied
  have h1 := h.commitIndex_lt
  obtain ⟨entries, he⟩ :
      ∃ entries, GoSlice.slice rf.log (rf.lastApplied + 1) (rf.commitIndex + 1) =
        some entries :=
    GoSlice.slice_isSome (by omega) (by omega) (by omega)
  unfold Raft.applyLock
  split
  · simp [hlog.zero, sentinel, he]
  · simp

theorem Indexed.advanceCommit_ne_none (h : Indexed K me rf) (hlog : LogOk rf.log)
    (hl : rf.state = .leader) {server : Fin n} (hne : server ≠ me) :
    Raft.advanceCommit me rf server ≠ none := by
  obtain ⟨k, hk⟩ := Int.eq_ofNat_of_zero_le (h.matched server)
  have hlt := h.matchIndex_lt hl hne
  have hget : rf.log[k]? = some rf.log[k] := List.getElem?_eq_getElem (by omega)
  unfold Raft.advanceCommit
  simp only [GoSlice.get_zero, hlog.zero, sentinel, hk, Int.sub_zero,
    GoSlice.get_natCast, hget, Option.bind_eq_bind, Option.bind_some]
  split <;> simp

theorem respAppendEntries_ne_none (hlog : LogOk rf.log)
    {server : Fin n} (hne : server ≠ me) {expected : Int} {args : AppendEntriesArgs n α}
    {reply : AppendEntriesReply}
    (hack : rf.state = .leader → args.term = rf.currentTerm → reply.success = true →
      Indexed K me (rf.acknowledge server expected args)) :
    Raft.respAppendEntries me inc rf server expected args reply ≠ none := by
  unfold Raft.respAppendEntries
  split
  · rename_i hl
    split
    · simp
    · split
      · rename_i hs
        have hcore := Raft.acknowledge_sameCore rf server expected args
        have hadv := (hack hl.1 hl.2 hs).advanceCommit_ne_none (hcore.log ▸ hlog)
          (hcore.state.trans hl.1) hne
        obtain ⟨rf', hrf'⟩ := Option.ne_none_iff_exists'.mp hadv
        simp [hrf']
      · have hpos := hlog.length_pos
        obtain ⟨c, hc⟩ : ∃ c, Raft.spawnAppend me inc
            { rf with nextIndex := Function.update rf.nextIndex server 1 } server = some c :=
          Raft.spawnAppend_isSome hlog (by simp)
            (by simp only [Function.update_self]; omega)
        simp [hc]
  · simp

end Total

/-- The entry lies in a committed log, at its own index. -/
def Fixed (K : List (Abstract n α)) (e : LogEntry α) : Prop :=
  ∃ (T : Int) (p : List (LogEntry α)) (k : Nat),
    Committed genesis K T p ∧ e.index = k ∧ p[k]? = some e

theorem Fixed.mono {K K' : List (Abstract n α)} (hK : ∀ b ∈ K, b ∈ K') {e : LogEntry α}
    (h : Fixed K e) : Fixed K' e := by
  obtain ⟨T, p, k, hp, hk⟩ := h
  exact ⟨T, p, k, hp.mono hK (Int.le_refl _), hk⟩

structure CommitInv (s : System n α) (K : List (Abstract n α)) : Prop where
  alive : ∀ i, s.panicked i = false
  peers : ∀ i, Indexed K i (s.rafts i)
  calls : ∀ c ∈ s.appends, CommitOk K c
  delivers : ∀ i, Delivers (Fixed K) (s.rafts i)

namespace CommitInv

variable {s s' : System n α} {a a' : Abstract n α} {H H' : List (Abstract n α)}

theorem init : CommitInv (System.init : System n α) [genesis.cluster] where
  alive := fun _ => rfl
  peers := fun _ => Indexed.make
  calls := by simp [System.init]
  delivers := fun _ => Delivers.make

theorem mono {K K' : List (Abstract n α)} (hK : ∀ b ∈ K, b ∈ K') (inv : CommitInv s K) :
    CommitInv s K' where
  alive := inv.alive
  peers := fun i => (inv.peers i).mono hK
  calls := fun c hc => (inv.calls c hc).mono hK
  delivers := fun i => (inv.delivers i).mono (fun _ he => he.mono hK)

/-- One peer moved, and the calls and deliveries are as they should be. -/
theorem update {K : List (Abstract n α)} (inv : CommitInv s K) {i : Fin n}
    {rf' : Raft n α} (hrafts : s'.rafts = Function.update s.rafts i rf')
    (hpanicked : s'.panicked = s.panicked) (hi : Indexed K i rf')
    (hcalls : ∀ c ∈ s'.appends, CommitOk K c)
    (hdelivers : ∀ j, Delivers (Fixed K) (s'.rafts j)) : CommitInv s' K where
  alive := by
    rw [hpanicked]
    exact inv.alive
  peers := by
    intro j
    rw [hrafts]
    by_cases hj : j = i
    · subst hj
      simpa using hi
    · simpa [hj] using inv.peers j
  calls := hcalls
  delivers := hdelivers

variable (sim : Sim s a H) (inv : CommitInv s (a :: H))
include sim inv

/-- A successful reply to a call of the leader's term is about a start of its log. -/
theorem acknowledge {c : AppendCall n α} (hc : c ∈ s.appends)
    {reply : AppendEntriesReply} (hw : c.wire = .reply reply)
    (ht : c.args.term = (s.rafts c.leader).currentTerm) (hs : reply.success = true) :
    Indexed (a :: H) c.leader
      ((s.rafts c.leader).acknowledge c.server c.expectedNextIndex c.args) := by
  obtain ⟨l, ok⟩ := sim.appends c hc
  have hstays := sim.run.led_stays ok.led (by rw [sim.node, ht]; rfl)
  rw [sim.node] at hstays
  have hack := ok.acked reply hw hs
  rw [ht] at hack
  exact (inv.peers c.leader).acknowledge ok.snapshot.expected
    (sim.logs l ok.led.seen).1.length_pos hstays.2 hack

theorem not_panics {e : Event n α} {i : Fin n} : ¬ s.Panics e i := by
  intro h
  cases h with
  | heartbeatTick h => exact (inv.peers _).heartbeatTick_ne_none _ (sim.logOk _) h
  | electionTick h => exact electionTick_ne_none (sim.logOk _) h
  | start h => exact (inv.peers _).start_ne_none _ (sim.logOk _) h
  | requestVote _ _ h => exact requestVote_ne_none (sim.logOk _) h
  | voteReply _ _ h => exact (inv.peers _).countVote_ne_none _ (sim.logOk _) h
  | @appendEntries k c hc _ h =>
      obtain ⟨l, ok⟩ := sim.appends c (List.mem_of_getElem? hc)
      unfold Raft.appendEntries at h
      split at h
      · cases h
      · rename_i hle
        have hlog : ((s.rafts c.server).followLeader c.args.term).log =
            (s.rafts c.server).log := by
          rw [Raft.followLeader_of_le (Int.not_lt.mp hle)]
        obtain ⟨rf', response, hspec, _⟩ := Raft.acceptEntries_spec
          ((s.rafts c.server).followLeader c.args.term) (hlog ▸ sim.logOk c.server)
          (sim.logs l ok.led.seen).1
          (hlog ▸ sim.matches_seen (sim.seen c.server) ok.led.seen) ok.snapshot
        simp [hspec] at h
  | @appendReply k c reply hc hw _ h =>
      have hmem := List.mem_of_getElem? hc
      obtain ⟨l, ok⟩ := sim.appends c hmem
      exact respAppendEntries_ne_none _ (sim.logOk _) ok.other
        (fun _ => inv.acknowledge sim hmem hw) h
  | applyLock _ h => exact (inv.peers _).applyLock_ne_none (sim.logOk _) h

theorem delivers_step {e : Event n α} (heffect : s.Effect e s') (hr : NoRestart s e)
    (hK : ∀ b ∈ a :: H, b ∈ a' :: H') (i : Fin n) :
    Delivers (Fixed (a' :: H')) (s'.rafts i) := by
  refine (inv.delivers i).step (fun x hx => hx.mono hK) (effect_applier heffect hr i) ?_
  intro hl entries hs x hx
  obtain ⟨k, _, hk, hkx⟩ := applyLock_entries (sim.logOk i) hl hs hx
  obtain ⟨c, hc, _, hcom⟩ := (inv.peers i).commit
  refine ⟨_, _, k, hcom.mono hK (Int.le_refl _), (sim.logOk i).index k x hkx, ?_⟩
  rw [List.getElem?_take, if_pos (by omega)]
  exact hkx

end CommitInv

section Steps

variable {K : List (Abstract n α)} {me : Fin n} {rf rf' : Raft n α}

theorem Indexed.requestVote (h : Indexed K me rf) {args : RequestVoteArgs n}
    {reply : RequestVoteReply} (hr : rf.requestVote args = some (rf', reply)) :
    Indexed K me rf' := by
  by_cases hlt : rf.currentTerm < args.term
  · have hobs := Raft.observeTerm_of_lt hlt
    obtain ⟨_, ⟨_, _, rfl⟩ | ⟨_, _, rfl⟩⟩ := Raft.requestVote_cases hr <;> rw [hobs] <;>
      exact h.carry rfl rfl rfl rfl (Int.le_of_lt hlt) (fun hl => nomatch hl)
  · have hobs := Raft.observeTerm_of_le (Int.not_lt.mp hlt)
    obtain ⟨_, ⟨_, _, rfl⟩ | ⟨_, _, rfl⟩⟩ := Raft.requestVote_cases hr <;> rw [hobs] <;>
      exact h.carry rfl rfl rfl rfl (Int.le_refl _) (fun hl => ⟨hl, rfl, rfl⟩)

theorem Indexed.stepDown (h : Indexed K me rf) {T : Int} (hT : rf.currentTerm < T) :
    Indexed K me (rf.stepDown T) :=
  h.carry rfl rfl rfl rfl (Int.le_of_lt hT) (fun hl => nomatch hl)

theorem Indexed.electionTick (h : Indexed K me rf) {request : Option (RequestVoteArgs n)}
    (ht : Raft.electionTick me rf = some (rf', request)) : Indexed K me rf' := by
  rcases Raft.electionTick_cases ht with ⟨_, rfl, _⟩ | ⟨_, rfl, _⟩
  · exact h.carry rfl rfl rfl rfl (Int.le_refl _) (fun hl => ⟨hl, rfl, rfl⟩)
  · exact h.carry rfl rfl rfl rfl (by simp only; omega) (fun hl => nomatch hl)

theorem Indexed.countVote (h : Indexed K me rf) (hlog : LogOk rf.log) {inc : Nat}
    {request : RequestVoteArgs n} {totalVotes totalVotes' : Nat}
    {response : RequestVoteReply} {calls : List (AppendCall n α)}
    (hold : rf.state = .candidate → ∀ e ∈ rf.log, e.term < rf.currentTerm)
    (hfresh : rf.Wins request totalVotes response → ∀ j, j ≠ me →
      rf.matchIndex j < rf.log.length)
    (hled : rf'.state = .leader → Led K me rf'.currentTerm rf'.log)
    (hc : Raft.countVote me inc rf request totalVotes response =
      some (rf', totalVotes', calls)) :
    Indexed K me rf' ∧ ∀ c ∈ calls, CommitOk K c := by
  rcases Raft.countVote_cases hc with ⟨rfl, _, rfl⟩ | ⟨_, _, hlt, rfl, _, rfl⟩ |
    ⟨_, _, _, rfl, _, rfl⟩ | ⟨hw, _, rfl, hcalls⟩
  · exact ⟨h, by simp⟩
  · exact ⟨h.stepDown hlt, by simp⟩
  · exact ⟨h, by simp⟩
  · have helected := h.elected (hold hw.1) (hfresh hw)
    refine ⟨?_, helected.sendHeartbeats_commitOk hlog (hled rfl) hcalls⟩
    exact helected.carry rfl rfl rfl rfl (Int.le_refl _) (fun hl => ⟨hl, rfl, rfl⟩)

theorem Indexed.respAppendEntries (h : Indexed K me rf) (hlog : LogOk rf.log)
    {server : Fin n} {inc : Nat} {expected : Int} {args : AppendEntriesArgs n α}
    {reply : AppendEntriesReply} {calls : List (AppendCall n α)}
    (hled : rf.state = .leader → Led K me rf.currentTerm rf.log)
    (hack : args.term = rf.currentTerm → reply.success = true →
      Indexed K me (rf.acknowledge server expected args))
    (hr : Raft.respAppendEntries me inc rf server expected args reply =
      some (rf', calls)) :
    Indexed K me rf' ∧ ∀ c ∈ calls, CommitOk K c := by
  rcases Raft.respAppendEntries_cases hr with ⟨_, rfl, rfl⟩ | ⟨hl, ht, hcase⟩
  · exact ⟨h, by simp⟩
  rcases hcase with ⟨hlt, rfl, rfl⟩ | ⟨_, hs, rfl, hadv⟩ | ⟨_, _, rfl, c, hc, rfl⟩
  · exact ⟨h.stepDown hlt, by simp⟩
  · have hcore := Raft.acknowledge_sameCore rf server expected args
    refine ⟨(hack ht hs).advanceCommit (hcore.log ▸ hlog) (hcore.state.trans hl) ?_ hadv,
      by simp⟩
    rw [hcore.currentTerm, hcore.log]
    exact hled hl
  · have hretry := h.retry hlog.length_pos server
    refine ⟨hretry, ?_⟩
    intro c' hc'
    obtain rfl := List.mem_singleton.mp hc'
    have hlog' : LogOk (Raft.log
        { rf with nextIndex := Function.update rf.nextIndex server 1 }) := hlog
    obtain ⟨hme, _, hterm, hcommit, _, hsnap⟩ := Raft.spawnAppend_spec hlog' hc
    exact hretry.commitOk_of_snapshot (hled hl) hme hterm hcommit hsnap

end Steps

namespace CommitInv

variable {s s' : System n α} {a a' : Abstract n α} {H H' : List (Abstract n α)}

theorem effect {e : Event n α} (sim : Sim s a H) (inv : CommitInv s (a :: H))
    (heffect : s.Effect e s') (hfresh : FreshMatch s e) (sim' : Sim s' a' H')
    (hK : ∀ b ∈ a :: H, b ∈ a' :: H') : CommitInv s' (a' :: H') := by
  have hdelivers := inv.delivers_step sim heffect (noRestart_of_freshMatch hfresh) hK
  have hinv := inv.mono hK
  cases heffect with
  | panic h => exact absurd h (inv.not_panics sim)
  | @heartbeatTick i rf' cs h =>
      rcases Raft.heartbeatTick_cases h with ⟨_, rfl, rfl⟩ | ⟨hl, rfl, hcs⟩
      · rw [System.spawn_nil] at hdelivers ⊢
        refine hinv.update rfl rfl ?_ hinv.calls hdelivers
        exact (hinv.peers i).still rfl rfl rfl rfl rfl rfl rfl
      · have hi : Indexed (a' :: H') i { s.rafts i with heartbeatTime := false } :=
          (hinv.peers i).still rfl rfl rfl rfl rfl rfl rfl
        have hsent := hi.sendHeartbeats_commitOk (sim.logOk i) ((sim.led hl).mono hK) hcs
        refine hinv.update rfl rfl ?_ (List.forall_mem_append.mpr ⟨hinv.calls, hsent⟩)
          hdelivers
        exact (hinv.peers i).still rfl rfl rfl rfl rfl rfl rfl
  | lead h | stand h =>
      exact hinv.update rfl rfl ((hinv.peers _).electionTick h) hinv.calls hdelivers
  | @start i command rf' cs index term isLeader h =>
      rcases Raft.start_cases h with ⟨_, rfl, rfl, _⟩ | ⟨hl, _, rfl, _, rfl, hcs⟩
      · simp only [System.spawn_nil] at hdelivers ⊢
        exact hinv.update rfl rfl (hinv.peers i) hinv.calls hdelivers
      · have hi := (hinv.peers i).start ⟨(s.rafts i).currentTerm, command, index⟩
        have hlog := sim'.logOk i
        have hled := sim'.led (i := i)
          (by simpa [System.setRaft, System.spawn, Raft.persist] using hl)
        simp only [System.setRaft, System.spawn, Function.update_self] at hlog hled
        have hsent := hi.sendHeartbeats_commitOk hlog hled hcs
        exact hinv.update rfl rfl hi (List.forall_mem_append.mpr ⟨hinv.calls, hsent⟩)
          hdelivers
  | requestVote _ _ h =>
      exact hinv.update rfl rfl ((hinv.peers _).requestVote h) hinv.calls hdelivers
  | @voteReply k peer el response rf' totalVotes cs hel hr h =>
      have hled := sim'.led (i := el.candidate)
      simp only [System.setRaft, System.setElection, System.spawn,
        Function.update_self] at hled
      have hold := sim.run.candidate_log (v := el.candidate)
      rw [sim.node] at hold
      obtain ⟨hi, hsent⟩ := (hinv.peers el.candidate).countVote (sim.logOk _) hold
        (hfresh el hel response (by rw [hr]; rfl)) hled h
      exact hinv.update rfl rfl hi (List.forall_mem_append.mpr ⟨hinv.calls, hsent⟩)
        hdelivers
  | sendAppend hc _ _ _ | callFails hc _ =>
      refine ⟨inv.alive, hinv.peers, ?_, hdelivers⟩
      exact CommitOk.set hinv.calls hc rfl rfl rfl
  | dropAppend hc _ | unwind hc _ =>
      refine hinv.update rfl rfl ?_ (CommitOk.set hinv.calls hc rfl rfl rfl) hdelivers
      exact (hinv.peers _).still rfl rfl rfl rfl rfl rfl rfl
  | @appendEntries k c rf' response hc _ h =>
      obtain ⟨l, ok⟩ := sim.appends c (List.mem_of_getElem? hc)
      refine hinv.update rfl rfl ?_ (CommitOk.set hinv.calls hc rfl rfl rfl) hdelivers
      exact (hinv.peers c.server).appendEntries sim'.run (sim.logOk _)
        (sim.logs l ok.led.seen).1 (sim.matches_seen (sim.seen _) ok.led.seen)
        (ok.led.mono hK) ok.snapshot (hinv.calls c (List.mem_of_getElem? hc)) h
  | @appendReply k c reply rf' cs hc hw _ h =>
      obtain ⟨hi, hsent⟩ := (hinv.peers c.leader).respAppendEntries (sim.logOk _)
        (fun hl => (sim.led hl).mono hK)
        (fun ht hs => (inv.acknowledge sim (List.mem_of_getElem? hc) hw ht hs).mono hK) h
      refine hinv.update rfl rfl hi (List.forall_mem_append.mpr ⟨?_, hsent⟩) hdelivers
      exact CommitOk.set hinv.calls hc rfl rfl rfl
  | applyLock _ h =>
      exact hinv.update rfl rfl ((hinv.peers _).locked h) hinv.calls hdelivers
  | applyReceive _ | kill =>
      refine hinv.update rfl rfl ?_ hinv.calls hdelivers
      exact (hinv.peers _).still rfl rfl rfl rfl rfl rfl rfl
  | @applySend i entries _ =>
      refine hinv.update rfl rfl ?_ hinv.calls hdelivers
      cases entries <;> exact (hinv.peers i).still rfl rfl rfl rfl rfl rfl rfl
  | restart => exact hfresh.elim

end CommitInv

/-- In a run of fresh leaders the commit invariant holds at its end, and what any
peer delivered at any point is fixed. -/
theorem run_commitInv {s : System n α} {h : List (System n α)}
    (run : (cluster n α).Run FreshMatch (s :: h)) :
    ∃ a H, Sim s a H ∧ CommitInv s (a :: H) ∧
      ∀ t ∈ s :: h, ∀ i, t.panicked i = false ∧ Delivers (Fixed (a :: H)) (t.rafts i) := by
  refine History.head_induction (P := fun s h => ∃ a H, Sim s a H ∧
    CommitInv s (a :: H) ∧ ∀ t ∈ s :: h, ∀ i,
      t.panicked i = false ∧ Delivers (Fixed (a :: H)) (t.rafts i)) ?_ ?_ run
  · refine ⟨genesis.cluster, [], Sim.init, CommitInv.init, ?_⟩
    intro t ht i
    obtain rfl := List.mem_singleton.mp ht
    exact ⟨rfl, Delivers.make⟩
  · rintro s s' h _ ⟨a, H, sim, inv, hpoints⟩ hnext
    obtain ⟨e, hfresh, hstep⟩ := (cluster n α).next_cons.mp hnext
    have heffect := System.step_effect hstep
    obtain ⟨a', H', sim', hK⟩ := sim.effect heffect (noRestart_of_freshMatch hfresh)
    have inv' := inv.effect sim heffect hfresh sim' hK
    refine ⟨a', H', sim', inv', ?_⟩
    intro t ht i
    cases ht with
    | head => exact ⟨inv'.alive i, inv'.delivers i⟩
    | tail _ ht =>
        obtain ⟨halive, hd⟩ := hpoints t ht i
        exact ⟨halive, hd.mono (fun x hx => hx.mono hK)⟩

/-- Messages with one index, delivered by any two peers, carry the same command and
the same term, as long as every leader starts with `matchIndex` inside its log. -/
theorem state_machine_safety {h : List (System n α)}
    (run : (cluster n α).Run FreshMatch h) {s t : System n α} (hs : s ∈ h) (ht : t ∈ h)
    {i j : Fin n} {m m' : ApplyMsg α} (hm : m ∈ (s.rafts i).applyCh)
    (hm' : m' ∈ (t.rafts j).applyCh) (hindex : m.commandIndex = m'.commandIndex) :
    m.command = m'.command ∧ m.commandTerm = m'.commandTerm := by
  obtain ⟨u, h, rfl⟩ := run.exists_head
  obtain ⟨a, H, sim, _, hpoints⟩ := run_commitInv run
  obtain ⟨e, ⟨T, p, k, hp, hk, he⟩, rfl⟩ := (hpoints s hs i).2.applied m hm
  obtain ⟨e', ⟨T', p', k', hp', hk', he'⟩, rfl⟩ := (hpoints t ht j).2.applied m' hm'
  simp only at hindex
  have hkk : k = k' := by omega
  subst hkk
  have hsame : e = e' := by
    rcases sim.run.committed_chain hp hp' with hpre | hpre
    · exact Option.some.inj ((getElem?_of_isPrefix hpre he).symm.trans he')
    · exact Option.some.inj (he.symm.trans (getElem?_of_isPrefix hpre he'))
  subst hsame
  exact ⟨rfl, rfl⟩

/-- Peers 0 and 1 deliver the first command. -/
theorem state_machine_safety_first_command :
    ∃ h, (cluster 3 Nat).Run FreshMatch h ∧ ∃ s ∈ h, ∃ t ∈ h,
      ∃ m ∈ (s.rafts 0).applyCh, ∃ m' ∈ (t.rafts 1).applyCh,
        m.commandIndex = 1 ∧ m'.commandIndex = 1 ∧
        m.command = m'.command ∧ m.commandTerm = m'.commandTerm := by
  obtain ⟨h, run, s, hs, hm, hm'⟩ :=
    (cluster 3 Nat).exists_run_of_replay FreshMatch
      (firstElection ++ [.start 0 (some 7), .handleAppend 2, .appendEntries 2,
        .appendReply 2, .applyLock 0, .applySend 0, .heartbeatTick 0, .handleAppend 4,
        .appendEntries 4, .applyLock 1, .applySend 1])
      (fun h => ∃ s ∈ h, ⟨true, some 7, 1, 1⟩ ∈ (s.rafts 0).applyCh ∧
        ⟨true, some 7, 1, 1⟩ ∈ (s.rafts 1).applyCh)
      (by decide +kernel)
  exact ⟨h, run, s, hs, s, hs, _, hm, _, hm', rfl, rfl,
    state_machine_safety run hs hs hm hm' rfl⟩

/-- No peer ever indexes or slices its log out of range, whatever the next event is,
as long as every leader starts with `matchIndex` inside its log. -/
theorem index_safety {h : List (System n α)} (run : (cluster n α).Run FreshMatch h)
    {s : System n α} (hs : s ∈ h) (i : Fin n) :
    s.panicked i = false ∧ ∀ e, ¬ s.Panics e i := by
  obtain ⟨h', run', _⟩ := run.exists_upTo hs
  obtain ⟨a, H, sim, inv, _⟩ := run_commitInv run'
  exact ⟨inv.alive i, fun e => inv.not_panics sim⟩

/-- Peer 0 leads terms 1, 3 and 5, and peer 1 leads term 2. In term 3 peer 1
acknowledges an entry of term 1, which is not committed, so that peer 0 wins term 5
with `matchIndex[1]` above its `commitIndex`. -/
theorem index_safety_later_terms :
    ∃ h, (cluster 3 Nat).Run FreshMatch h ∧
      (∃ s ∈ h, (s.rafts 0).state = .leader ∧ (s.rafts 0).currentTerm = 3 ∧
        (s.rafts 0).matchIndex 1 = 1 ∧ s.panicked 0 = false ∧ ∀ e, ¬ s.Panics e 0) ∧
      ∃ s ∈ h, (s.rafts 0).state = .leader ∧ (s.rafts 0).currentTerm = 5 ∧
        (s.rafts 0).commitIndex = 1 ∧ (s.rafts 0).matchIndex 1 = 2 ∧
        s.panicked 0 = false ∧ ∀ e, ¬ s.Panics e 0 := by
  obtain ⟨h, run, ⟨s, hs, hl, hterm, hmatch⟩, t, ht, hl', hterm', hcommit', hmatch'⟩ :=
    (cluster 3 Nat).exists_run_of_replay FreshMatch
      (firstElection ++ [.start 0 (some 7), .handleAppend 2, .appendEntries 2,
        .appendReply 2, .start 0 (some 8), .electionTick 1, .requestVote 1 0,
        .requestVote 1 2, .voteReply 1 2, .electionTick 0, .requestVote 2 1,
        .voteReply 2 1, .handleAppend 8, .appendEntries 8, .appendReply 8,
        .electionTick 1, .requestVote 3 0, .electionTick 0, .requestVote 4 1,
        .voteReply 4 1])
      (fun h => (∃ s ∈ h, (s.rafts 0).state = .leader ∧ (s.rafts 0).currentTerm = 3 ∧
          (s.rafts 0).matchIndex 1 = 1) ∧
        ∃ s ∈ h, (s.rafts 0).state = .leader ∧ (s.rafts 0).currentTerm = 5 ∧
          (s.rafts 0).commitIndex = 1 ∧ (s.rafts 0).matchIndex 1 = 2)
      (by decide +kernel)
  exact ⟨h, run, ⟨s, hs, hl, hterm, hmatch, index_safety run hs 0⟩,
    t, ht, hl', hterm', hcommit', hmatch', index_safety run ht 0⟩

/-- Peer `p` leads terms 1, 3 and 5 and peer `r` terms 2 and 4, each with the vote of
peer `q`. In term 3 peer `q` acknowledges three entries of term 1 to peer `p`. In
term 4 peer `r` replaces them in the log of `p` by two of its own and commits these.
In term 5 peer `p` leads with `matchIndex[q] = 3` from term 3; a retry has set
`nextIndex[q]` to 1 and brought peer `q` up to date. -/
def staleMatch (p q r : Fin n) : List (Event n Nat) :=
  [.electionTick p, .requestVote 0 q, .voteReply 0 q,
    .start p (some 1), .start p (some 2), .start p (some 3),
    .electionTick r, .electionTick r, .requestVote 2 q, .voteReply 2 q,
    .start r (some 4), .handleAppend 8, .appendEntries 8,
    .electionTick p, .requestVote 3 q, .voteReply 3 q,
    .handleAppend 12, .appendEntries 12, .appendReply 12, .requestVote 3 r,
    .electionTick r, .requestVote 4 q, .voteReply 4 q,
    .start r (some 5), .handleAppend 16, .appendEntries 16, .appendReply 16,
    .heartbeatTick r, .handleAppend 18, .appendEntries 18,
    .electionTick p, .requestVote 5 q, .voteReply 5 q, .heartbeatTick p,
    .handleAppend 20, .appendEntries 20, .appendReply 20,
    .handleAppend 24, .appendEntries 24]

/-- With one more command, peer 0 counts the stale `matchIndex` of peer 1 and
commits a command no other peer holds. Peer 1 then leads term 6 and commits
another one at the same index. -/
theorem stale_match_applies_twice :
    ∃ h, (cluster 3 Nat).Run NoRestart h ∧ ∃ s ∈ h,
      ⟨true, some 6, 3, 5⟩ ∈ (s.rafts 0).applyCh ∧
      ⟨true, some 7, 3, 6⟩ ∈ (s.rafts 1).applyCh := by
  exact (cluster 3 Nat).exists_run_of_replay NoRestart
    (staleMatch 0 1 2 ++ [.start 0 (some 6), .handleAppend 22, .appendEntries 22,
      .appendReply 22, .applyLock 0, .applySend 0, .applySend 0, .applySend 0,
      .electionTick 1, .requestVote 6 2, .voteReply 6 2, .start 1 (some 7),
      .handleAppend 30, .appendEntries 30, .appendReply 30, .applyLock 1, .applySend 1,
      .applySend 1, .applySend 1])
    (fun h => ∃ s ∈ h, ⟨true, some 6, 3, 5⟩ ∈ (s.rafts 0).applyCh ∧
      ⟨true, some 7, 3, 6⟩ ∈ (s.rafts 1).applyCh)
    (by decide +kernel)

/-- Without it, `matchIndex[1]` lies outside the log of peer 0, and the next reply of
peer 1 makes peer 0 panic. -/
theorem stale_match_panics :
    ∃ h, (cluster 3 Nat).Run NoRestart h ∧ ∃ s ∈ h, s.panicked 0 = true := by
  exact (cluster 3 Nat).exists_run_of_replay NoRestart
    (staleMatch 0 1 2 ++ [.handleAppend 22, .appendEntries 22, .appendReply 22])
    (fun h => ∃ s ∈ h, s.panicked 0 = true) (by decide +kernel)

end RaftLab
