import DistributedLabs.Raft.Transitions
import DistributedLabs.Raft.Logs

/-!
What the applier relies on, whatever the other peers do and across restarts. Every
log holds index `k` at position `k`; a leader's `commitIndex` lies inside its log,
since the first heartbeat of a leader reads the entry there; so the `commitIndex` that
a request carries lies within its entries, and a peer that accepts the request has a
log that reaches that far. No peer's `commitIndex` ever goes back.
-/

namespace RaftLab

variable {n : Nat} {α : Type}

/-- The entries of a request continue a log behind `prevLogIndex`, and the leader's
`commitIndex` is not beyond them. -/
def Carries (args : AppendEntriesArgs n α) : Prop :=
  ∃ p : Nat, args.prevLogIndex = p ∧
    (∀ (j : Nat) (e : LogEntry α), args.entries[j]? = some e → e.index = p + 1 + j) ∧
    args.leaderCommit ≤ p + args.entries.length

theorem carries_of_snapshot {l : List (LogEntry α)} {c : AppendCall n α} (hl : LogOk l)
    (hsnap : Snapshot l c) (hcommit : c.args.leaderCommit < l.length) : Carries c.args := by
  obtain ⟨p, x, hp, hx, _, hentries⟩ := hsnap.prev
  have hlt := (List.getElem?_eq_some_iff.mp hx).1
  refine ⟨p, hp, ?_, ?_⟩
  · intro j e hj
    rw [hentries, List.getElem?_drop] at hj
    rw [hl.index _ e hj]
    omega
  · rw [hentries, List.length_drop]
    omega

/-- A log whose end is replaced by entries that continue it. -/
theorem LogOk.splice {f entries : List (LogEntry α)} {q : Nat} (hf : LogOk f) (hq : 0 < q)
    (hle : q ≤ f.length)
    (he : ∀ (j : Nat) (e : LogEntry α), entries[j]? = some e → e.index = q + j) :
    LogOk (f.take q ++ entries) := by
  have hlen : (f.take q).length = q := by
    rw [List.length_take]
    omega
  refine ⟨?_, ?_⟩
  · rw [List.getElem?_append_left (by omega), List.getElem?_take, if_pos hq]
    exact hf.zero
  · intro k e hk
    by_cases hkq : k < q
    · rw [List.getElem?_append_left (by omega), List.getElem?_take, if_pos hkq] at hk
      exact hf.index k e hk
    · rw [List.getElem?_append_right (by omega), hlen] at hk
      rw [he _ e hk]
      omega

namespace Raft

/-- The merge loop, at entry `q`: what it leaves reaches to the end of the entries. -/
theorem mergeEntries_reaches {f entries r : List (LogEntry α)} {q : Nat} (hf : LogOk f)
    (hq : 0 < q) (hle : q ≤ f.length)
    (he : ∀ (j : Nat) (e : LogEntry α), entries[j]? = some e → e.index = q + j)
    (h : mergeEntries f entries = some r) : LogOk r ∧ q + entries.length ≤ r.length := by
  induction entries generalizing q with
  | nil =>
      obtain rfl := Option.some.inj h
      exact ⟨hf, hle⟩
  | cons e rest ih =>
      have hidx : e.index = (q : Int) := he 0 e rfl
      simp only [mergeEntries, GoSlice.get_zero, hf.zero, Option.bind_eq_bind,
        Option.bind_some, sentinel, Int.sub_zero, hidx, Option.bind_eq_some_iff] at h
      obtain ⟨conflict, hconflict, h⟩ := h
      cases conflict with
      | true =>
          simp only [if_true, GoSlice.sliceTo_natCast f hle, Option.map_some,
            Option.some.injEq] at h
          subst h
          refine ⟨hf.splice hq hle he, ?_⟩
          simp only [List.length_append, List.length_take]
          omega
      | false =>
          have hin : q < f.length := by
            apply Nat.lt_of_not_le
            intro hout
            have hge : (q : Int) ≥ (f.length : Int) := by omega
            simp [missesTerm, hge] at hconflict
          have hrest : ∀ (j : Nat) (x : LogEntry α), rest[j]? = some x →
              x.index = (q + 1 : Nat) + j := by
            intro j x hj
            rw [he (j + 1) x hj]
            omega
          obtain ⟨hok, hlen⟩ := ih (Nat.succ_pos q) hin hrest (by simpa using h)
          refine ⟨hok, ?_⟩
          simp only [List.length_cons]
          omega

variable {rf rf' : Raft n α}

/-- An accepted request leaves a log that reaches to the `commitIndex` it carries. -/
theorem acceptEntries_reaches {request : AppendEntriesArgs n α}
    {response : AppendEntriesReply} (hlog : LogOk rf.log) (hc : Carries request)
    (h : rf.acceptEntries request = some (rf', response)) :
    LogOk rf'.log ∧ rf.commitIndex ≤ rf'.commitIndex := by
  rcases acceptEntries_cases h with ⟨_, rfl⟩ | ⟨log, last, hmerge, hlast, hle, hcase⟩
  · exact ⟨hlog, Int.le_refl _⟩
  obtain ⟨p, hp, hentries, hcommit⟩ := hc
  rw [lastLogIndex_eq hlog] at hlast
  have hpos := hlog.length_pos
  have hpl : p + 1 ≤ rf.log.length := by
    have := Option.some.inj hlast
    omega
  obtain ⟨hok, hlen⟩ := mergeEntries_reaches hlog (Nat.succ_pos p) hpl
    (by simpa using hentries) hmerge
  rcases hcase with ⟨_, rfl⟩ | ⟨hlt, last', hlast', rfl⟩
  · exact ⟨hok, Int.le_refl _⟩
  · have hok' : LogOk ({ rf with log := log } : Raft n α).log := hok
    rw [lastLogIndex_eq hok'] at hlast'
    obtain rfl := Option.some.inj hlast'
    refine ⟨hok, ?_⟩
    simp only
    split
    · exact Int.le_of_lt hlt
    · omega

/-- A goroutine that starts at all has sliced the log at `nextIndex`. -/
theorem spawnAppend_next {me server : Fin n} {inc : Nat} {c : AppendCall n α}
    (hlog : LogOk rf.log) (h : spawnAppend me inc rf server = some c) :
    rf.nextIndex server ≤ rf.log.length := by
  simp only [spawnAppend, GoSlice.get_zero, hlog.zero, Option.bind_eq_bind,
    Option.bind_some, Option.bind_eq_some_iff, sentinel, Int.sub_zero] at h
  obtain ⟨_, _, _, he, _⟩ := h
  obtain ⟨m, hm, hle, _⟩ := GoSlice.sliceFrom_eq_some he
  omega

/-- What the handlers of peer `me` keep, whatever its applier does. -/
structure Bounded (me : Fin n) (rf : Raft n α) : Prop where
  log : LogOk rf.log
  stored : ∀ p, rf.persister = some p → LogOk p.log
  leads : rf.state = .leader → ∀ j, j ≠ me → rf.commitIndex < rf.log.length

variable {me : Fin n}

theorem Bounded.make {persister : Option (Persisted n α)}
    (h : ∀ p, persister = some p → LogOk p.log) : Bounded me (Raft.make persister) := by
  cases persister with
  | none =>
      refine ⟨LogOk.singleton, ?_, ?_⟩
      · intro p hp
        cases hp
      · intro hl
        cases hl
  | some p =>
      refine ⟨h p rfl, h, ?_⟩
      intro hl
      cases hl

theorem Bounded.congr (h : Bounded me rf) (hlog : rf'.log = rf.log)
    (hstored : rf'.persister = rf.persister) (hcommit : rf'.commitIndex = rf.commitIndex)
    (hleads : rf'.state = .leader → rf.state = .leader) : Bounded me rf' := by
  refine ⟨?_, ?_, ?_⟩
  · rw [hlog]
    exact h.log
  · rw [hstored]
    exact h.stored
  · intro hl j hj
    rw [hlog, hcommit]
    exact h.leads (hleads hl) j hj

theorem Bounded.persist (h : Bounded me rf) : Bounded me rf.persist := by
  refine ⟨h.log, ?_, h.leads⟩
  intro p hp
  cases hp
  exact h.log

theorem Bounded.stepDown (h : Bounded me rf) (term : Int) :
    Bounded me (rf.stepDown term) :=
  h.persist.congr rfl rfl rfl (fun hl => by cases hl)

/-- A peer that has sent its first heartbeats as leader has its `commitIndex` inside
its log. -/
theorem Bounded.elected {inc : Nat} {calls : List (AppendCall n α)} (h : Bounded me rf)
    (hsend : sendHeartbeats me inc rf.elected = some calls) : Bounded me rf.elected := by
  refine ⟨h.log, h.stored, ?_⟩
  intro _ j hj
  obtain ⟨c, hc⟩ := GoSlice.exists_of_mapM hsend j (by simpa using hj)
  have hle : rf.elected.nextIndex j ≤ rf.elected.log.length := spawnAppend_next h.log hc
  have hnext : rf.elected.nextIndex j = rf.elected.commitIndex + 1 := rfl
  omega

theorem Bounded.append {e : LogEntry α} (h : Bounded me rf) (he : e.index = rf.log.length) :
    Bounded me { rf.persist with log := rf.log ++ [e] } := by
  refine ⟨h.log.append he, h.persist.stored, ?_⟩
  intro hl j hj
  have hlt := h.leads hl j hj
  simp only [List.length_append, List.length_singleton]
  exact Int.lt_trans hlt (by omega)

theorem Bounded.observeTerm (h : Bounded me rf) (term : Int) :
    Bounded me (rf.observeTerm term) := by
  unfold Raft.observeTerm
  split
  · exact h.congr rfl rfl rfl (fun hl => by cases hl)
  · exact h

theorem Bounded.requestVote {args : RequestVoteArgs n} {reply : RequestVoteReply}
    (h : Bounded me rf) (hvote : rf.requestVote args = some (rf', reply)) :
    Bounded me rf' := by
  have hobs := h.observeTerm args.term
  obtain ⟨_, ⟨_, _, rfl⟩ | ⟨_, _, rfl⟩⟩ := requestVote_cases hvote
  · exact hobs.congr rfl rfl rfl id
  · exact hobs

theorem Bounded.electionTick {request : Option (RequestVoteArgs n)} (h : Bounded me rf)
    (htick : electionTick me rf = some (rf', request)) : Bounded me rf' := by
  rcases electionTick_cases htick with ⟨_, rfl, _⟩ | ⟨_, rfl, _⟩
  · exact h.congr rfl rfl rfl id
  · exact h.persist.congr rfl rfl rfl (fun hl => by cases hl)

theorem Bounded.applyLock (h : Bounded me rf) (hlock : rf.applyLock = some rf') :
    Bounded me rf' := by
  rcases applyLock_cases hlock with ⟨_, rfl⟩ | ⟨_, _, _, _, _, rfl⟩
  · exact h.congr rfl rfl rfl id
  · exact h.congr rfl rfl rfl id

theorem Bounded.applySend (h : Bounded me rf) (entries : List (LogEntry α)) :
    Bounded me (rf.applySend entries) := by
  cases entries with
  | nil => exact h.congr rfl rfl rfl id
  | cons e rest => exact h.congr rfl rfl rfl id

theorem Bounded.followLeader (h : Bounded me rf) {term : Int} (hle : rf.currentTerm ≤ term) :
    Bounded me (rf.followLeader term) := by
  rw [followLeader_of_le hle]
  exact h.congr rfl rfl rfl (fun hl => by cases hl)

theorem Bounded.acceptEntries {request : AppendEntriesArgs n α}
    {response : AppendEntriesReply} (h : Bounded me rf) (hc : Carries request)
    (hs : rf.state = .follower) (hacc : rf.acceptEntries request = some (rf', response)) :
    Bounded me rf' ∧ rf.commitIndex ≤ rf'.commitIndex := by
  obtain ⟨hok, hle⟩ := acceptEntries_reaches h.log hc hacc
  have hsame : rf'.persister = rf.persister ∧ rf'.state = rf.state := by
    rcases acceptEntries_cases hacc with ⟨_, rfl⟩ | ⟨_, _, _, _, _, ⟨_, rfl⟩ | ⟨_, _, _, rfl⟩⟩
    · exact ⟨rfl, rfl⟩
    · exact ⟨rfl, rfl⟩
    · exact ⟨rfl, rfl⟩
  refine ⟨⟨hok, ?_, ?_⟩, hle⟩
  · rw [hsame.1]
    exact h.stored
  · rw [hsame.2, hs]
    intro hl
    cases hl

theorem Bounded.appendEntries {request : AppendEntriesArgs n α}
    {response : AppendEntriesReply} (h : Bounded me rf) (hc : Carries request)
    (happ : rf.appendEntries request = some (rf', response)) :
    Bounded me rf' ∧ rf.commitIndex ≤ rf'.commitIndex := by
  rcases appendEntries_cases happ with ⟨_, rfl, _⟩ | ⟨hle, rf₁, hacc, rfl⟩
  · exact ⟨h.persist, Int.le_refl _⟩
  · have hfollow := followLeader_of_le hle
    obtain ⟨hb, hcommit⟩ := (h.followLeader hle).acceptEntries hc (by rw [hfollow]) hacc
    rw [hfollow] at hcommit
    exact ⟨hb.persist, hcommit⟩

theorem Bounded.acknowledge (h : Bounded me rf) (server : Fin n) (expected : Int)
    (args : AppendEntriesArgs n α) :
    Bounded me (rf.acknowledge server expected args) ∧
      (rf.acknowledge server expected args).commitIndex = rf.commitIndex := by
  rcases acknowledge_cases rf server expected args with ⟨_, hack⟩ | hack
  · rw [hack]
    exact ⟨h.congr rfl rfl rfl id, rfl⟩
  · rw [hack]
    exact ⟨h, rfl⟩

/-- The entry that `respAppendEntries` reads before it commits is one of the log. -/
theorem Bounded.advanceCommit {server : Fin n} (h : Bounded me rf)
    (hadv : advanceCommit me rf server = some rf') :
    Bounded me rf' ∧ rf.commitIndex ≤ rf'.commitIndex := by
  obtain ⟨base, entry, hbase, hget, hcase⟩ := advanceCommit_cases hadv
  rw [h.log.zero] at hbase
  obtain rfl := Option.some.inj hbase
  obtain ⟨m, hm, hmlog⟩ := GoSlice.get_eq_some hget
  have hlt := (List.getElem?_eq_some_iff.mp hmlog).1
  rcases hcase with rfl | ⟨_, _, rfl⟩
  · exact ⟨h, Int.le_refl _⟩
  · refine ⟨⟨h.log, h.stored, ?_⟩, Int.le_max_left _ _⟩
    intro hl j hj
    have hold := h.leads hl j hj
    simp only [sentinel] at hm
    simp only
    omega

theorem Bounded.respAppendEntries {server : Fin n} {inc : Nat} {expected : Int}
    {args : AppendEntriesArgs n α} {reply : AppendEntriesReply}
    {calls : List (AppendCall n α)} (h : Bounded me rf)
    (hresp : respAppendEntries me inc rf server expected args reply = some (rf', calls)) :
    Bounded me rf' ∧ rf.commitIndex ≤ rf'.commitIndex := by
  rcases respAppendEntries_cases hresp with ⟨_, rfl, _⟩ | ⟨_, _, hcase⟩
  · exact ⟨h, Int.le_refl _⟩
  rcases hcase with ⟨_, rfl, _⟩ | ⟨_, _, _, hadv⟩ | ⟨_, _, rfl, _⟩
  · exact ⟨h.stepDown _, Int.le_refl _⟩
  · obtain ⟨hack, hcommit⟩ := h.acknowledge server expected args
    obtain ⟨hb, hle⟩ := hack.advanceCommit hadv
    exact ⟨hb, hcommit ▸ hle⟩
  · exact ⟨h.congr rfl rfl rfl id, Int.le_refl _⟩

/-- What every goroutine of `handleAppendEntries` carries. -/
structure CallOk (c : AppendCall n α) : Prop where
  carries : Carries c.args
  other : c.server ≠ c.leader

theorem Bounded.spawnAppend {server : Fin n} {inc : Nat} {c : AppendCall n α}
    (h : Bounded me rf) (hl : rf.state = .leader) (hne : server ≠ me)
    (hc : spawnAppend me inc rf server = some c) : CallOk c := by
  obtain ⟨rfl, rfl, _, hcommit, _, hsnap⟩ := spawnAppend_spec h.log hc
  exact ⟨carries_of_snapshot h.log hsnap (hcommit ▸ h.leads hl _ hne), hne⟩

section Calls

variable {inc : Nat} {calls : List (AppendCall n α)}

theorem Bounded.sendHeartbeats (h : Bounded me rf) (hl : rf.state = .leader)
    (hsend : sendHeartbeats me inc rf = some calls) : ∀ c ∈ calls, CallOk c := by
  intro c hc
  obtain ⟨i, hi, hic⟩ := GoSlice.mapM_mem hsend c hc
  exact h.spawnAppend hl (by simpa using hi) hic

theorem Bounded.heartbeatTick (h : Bounded me rf)
    (htick : heartbeatTick me inc rf = some (rf', calls)) :
    Bounded me rf' ∧ ∀ c ∈ calls, CallOk c := by
  rcases heartbeatTick_cases htick with ⟨_, rfl, rfl⟩ | ⟨hl, rfl, hsend⟩
  · exact ⟨h.congr rfl rfl rfl id, by simp⟩
  · have hsent : Bounded me { rf with heartbeatTime := false } := h.congr rfl rfl rfl id
    exact ⟨h.congr rfl rfl rfl id, hsent.sendHeartbeats hl hsend⟩

theorem Bounded.start {command : Option α} {index term : Int} {isLeader : Bool}
    (h : Bounded me rf)
    (hstart : start me inc rf command = some (rf', calls, index, term, isLeader)) :
    Bounded me rf' ∧ ∀ c ∈ calls, CallOk c := by
  rcases start_cases hstart with ⟨_, rfl, rfl, _⟩ | ⟨hl, _, _, ⟨last, hlast, rfl⟩, rfl, hsend⟩
  · exact ⟨h, by simp⟩
  · rw [lastLogIndex_eq h.log] at hlast
    have hlast := Option.some.inj hlast
    have hrf := h.append (e := ⟨term, command, last + 1⟩) (by simp only; omega)
    exact ⟨hrf, hrf.sendHeartbeats hl hsend⟩

theorem Bounded.countVote {request : RequestVoteArgs n} {totalVotes totalVotes' : Nat}
    {response : RequestVoteReply} (h : Bounded me rf)
    (hcount : countVote me inc rf request totalVotes response =
      some (rf', totalVotes', calls)) :
    Bounded me rf' ∧ ∀ c ∈ calls, CallOk c := by
  rcases countVote_cases hcount with ⟨rfl, _, rfl⟩ | ⟨_, _, _, rfl, _, rfl⟩ |
    ⟨_, _, _, rfl, _, rfl⟩ | ⟨_, _, rfl, hsend⟩
  · exact ⟨h, by simp⟩
  · exact ⟨h.stepDown _, by simp⟩
  · exact ⟨h, by simp⟩
  · have helected := h.elected hsend
    exact ⟨helected.congr rfl rfl rfl id, helected.sendHeartbeats rfl hsend⟩

/-- The only call that a reply sends is the retry. -/
theorem Bounded.respAppendEntries_calls {server : Fin n} {expected : Int}
    {args : AppendEntriesArgs n α} {reply : AppendEntriesReply} (h : Bounded me rf)
    (hne : server ≠ me)
    (hresp : Raft.respAppendEntries me inc rf server expected args reply =
      some (rf', calls)) : ∀ c ∈ calls, CallOk c := by
  have hrf := (h.respAppendEntries hresp).1
  rcases respAppendEntries_cases hresp with ⟨_, _, rfl⟩ | ⟨hl, _, hcase⟩
  · simp
  rcases hcase with ⟨_, _, rfl⟩ | ⟨_, _, rfl, _⟩ | ⟨_, _, rfl, retry, hretry, rfl⟩
  · simp
  · simp
  · intro c hc
    obtain rfl := List.mem_singleton.mp hc
    exact hrf.spawnAppend hl hne hretry

end Calls

end Raft

/-- The bounds of every peer and of everything that was ever sent. -/
structure Bounds (s : System n α) : Prop where
  peer : ∀ i, (s.rafts i).Bounded i
  call : ∀ c ∈ s.appends, Raft.CallOk c

namespace Bounds

variable {s : System n α}

theorem setRaft (h : Bounds s) {i : Fin n} {rf : Raft n α} (hrf : rf.Bounded i) :
    Bounds (s.setRaft i rf) := by
  refine ⟨?_, h.call⟩
  intro j
  by_cases hj : j = i
  · subst hj
    simpa [System.setRaft] using hrf
  · simpa [System.setRaft, hj] using h.peer j

theorem spawn (h : Bounds s) {calls : List (AppendCall n α)}
    (hcalls : ∀ c ∈ calls, Raft.CallOk c) : Bounds (s.spawn calls) := by
  refine ⟨h.peer, ?_⟩
  intro c hc
  cases List.mem_append.mp hc with
  | inl hold => exact h.call c hold
  | inr hnew => exact hcalls c hnew

theorem setCall (h : Bounds s) {k : Nat} {c : AppendCall n α} (hc : Raft.CallOk c) :
    Bounds (s.setCall k c) := by
  refine ⟨h.peer, ?_⟩
  intro c' hc'
  cases List.mem_or_eq_of_mem_set hc' with
  | inl hold => exact h.call c' hold
  | inr hnew => exact hnew ▸ hc

theorem elections (h : Bounds s) (els : List (Election n)) :
    Bounds { s with elections := els } :=
  ⟨h.peer, h.call⟩

theorem callOk (h : Bounds s) {k : Nat} {c : AppendCall n α}
    (hc : s.appends[k]? = some c) : Raft.CallOk c :=
  h.call c (List.mem_of_getElem? hc)

theorem init : Bounds (System.init : System n α) where
  peer := by
    intro i
    change Raft.Bounded i (Raft.make none)
    apply Raft.Bounded.make
    intro p hp
    cases hp
  call := by
    intro c hc
    cases hc

/-- Every event keeps the bounds, restarts included. -/
theorem effect {s' : System n α} {e : Event n α} (hb : Bounds s) (h : s.Effect e s') :
    Bounds s' := by
  cases h with
  | panic _ => exact ⟨hb.peer, hb.call⟩
  | @heartbeatTick i _ _ ht =>
      obtain ⟨hrf, hcalls⟩ := (hb.peer i).heartbeatTick ht
      exact (hb.setRaft hrf).spawn hcalls
  | @lead i _ ht => exact hb.setRaft ((hb.peer i).electionTick ht)
  | @stand i _ _ ht => exact (hb.setRaft ((hb.peer i).electionTick ht)).elections _
  | @start i _ _ _ _ _ _ ht =>
      obtain ⟨hrf, hcalls⟩ := (hb.peer i).start ht
      have hspawn := (hb.setRaft hrf).spawn hcalls
      exact ⟨hspawn.peer, hspawn.call⟩
  | @requestVote _ peer _ _ _ _ _ ht =>
      exact elections (hb.setRaft ((hb.peer peer).requestVote ht)) _
  | @voteReply _ _ el _ _ _ _ _ _ ht =>
      obtain ⟨hrf, hcalls⟩ := (hb.peer el.candidate).countVote ht
      exact ((hb.setRaft hrf).elections _).spawn hcalls
  | sendAppend hc _ _ _ | callFails hc _ =>
      exact hb.setCall ⟨(hb.callOk hc).carries, (hb.callOk hc).other⟩
  | @dropAppend _ c hc _ | @unwind _ c hc _ =>
      exact (hb.setRaft (hb.peer c.leader).persist).setCall
        ⟨(hb.callOk hc).carries, (hb.callOk hc).other⟩
  | @appendEntries _ c _ _ hc _ ht =>
      have hcall := hb.callOk hc
      exact (hb.setRaft ((hb.peer c.server).appendEntries hcall.carries ht).1).setCall
        ⟨hcall.carries, hcall.other⟩
  | @appendReply _ c _ _ _ hc _ _ ht =>
      have hcall := hb.callOk hc
      have hset := hb.setRaft ((hb.peer c.leader).respAppendEntries ht).1
      refine spawn (hset.setCall ?_) ((hb.peer c.leader).respAppendEntries_calls hcall.other ht)
      exact ⟨hcall.carries, hcall.other⟩
  | @applyLock i _ _ ht => exact hb.setRaft ((hb.peer i).applyLock ht)
  | @applyReceive i _ | @kill i =>
      exact hb.setRaft ((hb.peer i).congr rfl rfl rfl id)
  | @applySend i entries _ => exact hb.setRaft ((hb.peer i).applySend entries)
  | @restart i =>
      have hmake : Raft.Bounded i (Raft.make (s.rafts i).persister) :=
        Raft.Bounded.make (hb.peer i).stored
      have hset := hb.setRaft hmake
      exact ⟨hset.peer, hset.call⟩

end Bounds

end RaftLab
