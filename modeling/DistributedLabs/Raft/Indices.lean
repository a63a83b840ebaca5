import DistributedLabs.Raft.Delivery
import DistributedLabs.Library.TermLogCompleteness

/-!
The indices a peer keeps about its log. `commitIndex` lies inside the log and
what lies up to it is committed; a leader's `nextIndex` and `matchIndex` stay
inside its log, and a `matchIndex` that reaches an entry of the leader's own term
was acknowledged in it. Under these bounds no handler panics, and each handler
keeps them, except that a candidate which wins keeps the `matchIndex` of an earlier
leadership.
-/

namespace RaftLab

open TermLog

variable {n : Nat} {α : Type} {K K' : List (Abstract n α)}

/-- Peer `j` was in the term of `rf` with a log that has all of `rf`'s up to `m`. -/
def Acked (K : List (Abstract n α)) (rf : Raft n α) (j : Fin n) (m : Nat) : Prop :=
  ∃ b ∈ K, (b.node j).term = rf.currentTerm ∧ rf.log.take (m + 1) <+: (b.node j).log

/-- The entries of `rf` up to `m` are older than its term, so that `advanceCommit`
never commits at one of them. -/
def Outdated (rf : Raft n α) (m : Nat) : Prop :=
  ∀ e ∈ rf.log.take (m + 1), e.term < rf.currentTerm

/-- What peer `me` may rely on when it uses its indices. -/
structure Indexed (K : List (Abstract n α)) (me : Fin n) (rf : Raft n α) : Prop where
  commit : ∃ c : Nat, rf.commitIndex = c ∧ c < rf.log.length ∧
    Committed genesis K rf.currentTerm (rf.log.take (c + 1))
  applied : 0 ≤ rf.lastApplied ∧ rf.lastApplied ≤ rf.commitIndex
  matched : ∀ j, 0 ≤ rf.matchIndex j
  next : rf.state = .leader → ∀ j, j ≠ me →
    1 ≤ rf.nextIndex j ∧ rf.nextIndex j ≤ rf.log.length
  acked : rf.state = .leader → ∀ j, j ≠ me → ∃ m : Nat, rf.matchIndex j = m ∧
    m < rf.log.length ∧ (Outdated rf m ∨ Acked K rf j m)

/-- The leader's `commitIndex` that a call carries is committed in the log the call
was made from. -/
def CommitOk (K : List (Abstract n α)) (c : AppendCall n α) : Prop :=
  ∃ (l : List (LogEntry α)) (m : Nat), Led K c.leader c.args.term l ∧
    (l.length : Int) = c.expectedNextIndex ∧ c.args.leaderCommit = m ∧ m < l.length ∧
    Committed genesis K c.args.term (l.take (m + 1))

theorem Acked.mono (hK : ∀ b ∈ K, b ∈ K') {rf : Raft n α} {j : Fin n} {m : Nat}
    (h : Acked K rf j m) : Acked K' rf j m := by
  obtain ⟨b, hb, hfact⟩ := h
  exact ⟨b, hK b hb, hfact⟩

theorem CommitOk.mono (hK : ∀ b ∈ K, b ∈ K') {c : AppendCall n α} (h : CommitOk K c) :
    CommitOk K' c := by
  obtain ⟨l, m, hled, hlen, hm, hlt, hc⟩ := h
  exact ⟨l, m, hled.mono hK, hlen, hm, hlt, hc.mono hK (Int.le_refl _)⟩

/-- A call that moves on carries what it carried. -/
theorem CommitOk.set {calls : List (AppendCall n α)} (h : ∀ c ∈ calls, CommitOk K c)
    {k : Nat} {c c' : AppendCall n α} (hc : calls[k]? = some c)
    (hleader : c'.leader = c.leader) (hargs : c'.args = c.args)
    (hexp : c'.expectedNextIndex = c.expectedNextIndex) :
    ∀ d ∈ calls.set k c', CommitOk K d := by
  intro d hd
  rcases List.mem_or_eq_of_mem_set hd with hd | rfl
  · exact h d hd
  · unfold CommitOk
    rw [hleader, hargs, hexp]
    exact h c (List.mem_of_getElem? hc)

namespace Indexed

variable {me : Fin n} {rf rf' : Raft n α}

theorem mono (hK : ∀ b ∈ K, b ∈ K') (h : Indexed K me rf) : Indexed K' me rf where
  commit := by
    obtain ⟨c, hc, hlt, hcom⟩ := h.commit
    exact ⟨c, hc, hlt, hcom.mono hK (Int.le_refl _)⟩
  applied := h.applied
  matched := h.matched
  next := h.next
  acked := by
    intro hl j hj
    obtain ⟨m, hm, hlt, hack⟩ := h.acked hl j hj
    exact ⟨m, hm, hlt, hack.imp_right (Acked.mono hK)⟩

theorem make : Indexed K me (Raft.make none) where
  commit := ⟨0, rfl, Nat.one_pos, Or.inl List.prefix_rfl⟩
  applied := ⟨Int.le_refl _, Int.le_refl _⟩
  matched := fun _ => Int.le_refl _
  next := by
    intro hl
    cases hl
  acked := by
    intro hl
    cases hl

/-- Neither the log nor an index changed, and the peer still leads its term or does
not lead. -/
theorem carry (h : Indexed K me rf) (hlog : rf'.log = rf.log)
    (hcommit : rf'.commitIndex = rf.commitIndex)
    (happlied : rf'.lastApplied = rf.lastApplied)
    (hmatch : rf'.matchIndex = rf.matchIndex) (hterm : rf.currentTerm ≤ rf'.currentTerm)
    (hlead : rf'.state = .leader → rf.state = .leader ∧
      rf'.currentTerm = rf.currentTerm ∧ rf'.nextIndex = rf.nextIndex) :
    Indexed K me rf' where
  commit := by
    rw [hlog, hcommit]
    obtain ⟨c, hc, hlt, hcom⟩ := h.commit
    exact ⟨c, hc, hlt, hcom.mono (fun _ hb => hb) hterm⟩
  applied := by
    rw [happlied, hcommit]
    exact h.applied
  matched := by
    rw [hmatch]
    exact h.matched
  next := by
    intro hl
    rw [(hlead hl).2.2, hlog]
    exact h.next (hlead hl).1
  acked := by
    intro hl
    simp only [Outdated, Acked, hmatch, hlog, (hlead hl).2.1]
    exact h.acked (hlead hl).1

/-- Nor did the term or the role. -/
theorem still (h : Indexed K me rf) (hlog : rf'.log = rf.log)
    (hcommit : rf'.commitIndex = rf.commitIndex)
    (happlied : rf'.lastApplied = rf.lastApplied)
    (hmatch : rf'.matchIndex = rf.matchIndex) (hnext : rf'.nextIndex = rf.nextIndex)
    (hterm : rf'.currentTerm = rf.currentTerm) (hstate : rf'.state = rf.state) :
    Indexed K me rf' :=
  h.carry hlog hcommit happlied hmatch (Int.le_of_eq hterm.symm)
    (fun hl => ⟨hstate ▸ hl, hterm, hnext⟩)

theorem commitIndex_nonneg (h : Indexed K me rf) : 0 ≤ rf.commitIndex := by
  obtain ⟨c, hc, _⟩ := h.commit
  omega

theorem commitIndex_lt (h : Indexed K me rf) : rf.commitIndex < rf.log.length := by
  obtain ⟨c, hc, hlt, _⟩ := h.commit
  omega

theorem matchIndex_lt (h : Indexed K me rf) (hl : rf.state = .leader) {j : Fin n}
    (hj : j ≠ me) : rf.matchIndex j < rf.log.length := by
  obtain ⟨m, hm, hlt, _⟩ := h.acked hl j hj
  omega

/-- The calls a leader sends carry its commit index. -/
theorem commitOk_of_snapshot (h : Indexed K me rf)
    (hled : Led K me rf.currentTerm rf.log) {c : AppendCall n α} (hme : c.leader = me)
    (hterm : c.args.term = rf.currentTerm) (hcommit : c.args.leaderCommit = rf.commitIndex)
    (hsnap : Snapshot rf.log c) : CommitOk K c := by
  obtain ⟨m, hm, hlt, hcom⟩ := h.commit
  refine ⟨rf.log, m, ?_, hsnap.expected.symm, hcommit.trans hm, hlt, ?_⟩
  · rw [hme, hterm]
    exact hled
  · rw [hterm]
    exact hcom

theorem sendHeartbeats_commitOk (h : Indexed K me rf) (hlog : LogOk rf.log)
    (hled : Led K me rf.currentTerm rf.log) {inc : Nat} {calls : List (AppendCall n α)}
    (hcalls : Raft.sendHeartbeats me inc rf = some calls) : ∀ c ∈ calls, CommitOk K c := by
  intro c hc
  obtain ⟨hme, _, hterm, hcommit, _, hsnap⟩ :=
    Raft.sendHeartbeats_spec hlog hcalls c hc
  exact h.commitOk_of_snapshot hled hme hterm hcommit hsnap

theorem start (h : Indexed K me rf) (e : LogEntry α) :
    Indexed K me { rf.persist with log := rf.log ++ [e] } where
  commit := by
    obtain ⟨c, hc, hlt, hcom⟩ := h.commit
    refine ⟨c, hc, by simp only [List.length_append]; omega, ?_⟩
    rw [List.take_append_of_le_length (by omega)]
    exact hcom
  applied := h.applied
  matched := h.matched
  next := by
    intro hl j hj
    obtain ⟨hlo, hhi⟩ := h.next hl j hj
    refine ⟨hlo, ?_⟩
    simp only [Raft.persist, List.length_append]
    omega
  acked := by
    intro hl j hj
    obtain ⟨m, hm, hlt, hack⟩ := h.acked hl j hj
    refine ⟨m, hm, by simp only [List.length_append]; omega, ?_⟩
    simp only [Outdated, Acked, List.take_append_of_le_length (Nat.succ_le_of_lt hlt)]
    exact hack

/-- A candidate wins. Its `matchIndex` is what an earlier leadership left, so that
the bound has to be asked for here. -/
theorem elected (h : Indexed K me rf) (hold : ∀ e ∈ rf.log, e.term < rf.currentTerm)
    (hfresh : ∀ j, j ≠ me → rf.matchIndex j < rf.log.length) :
    Indexed K me rf.elected where
  commit := h.commit
  applied := h.applied
  matched := h.matched
  next := by
    intro _ j _
    have h0 := h.commitIndex_nonneg
    have h1 := h.commitIndex_lt
    simp only [Raft.elected]
    omega
  acked := by
    intro _ j hj
    obtain ⟨m, hm⟩ := Int.eq_ofNat_of_zero_le (h.matched j)
    have hlt := hfresh j hj
    refine ⟨m, hm, by simp only [Raft.elected]; omega, Or.inl ?_⟩
    intro e he
    exact hold e (List.mem_of_mem_take he)

theorem locked (h : Indexed K me rf) (hl : rf.applyLock = some rf') :
    Indexed K me rf' := by
  rcases Raft.applyLock_cases hl with ⟨_, rfl⟩ | ⟨_, _, _, _, _, rfl⟩
  · exact ⟨h.commit, h.applied, h.matched, h.next, h.acked⟩
  · exact ⟨h.commit, ⟨h.commitIndex_nonneg, Int.le_refl _⟩, h.matched, h.next, h.acked⟩

theorem retry (h : Indexed K me rf) (hpos : 0 < rf.log.length) (server : Fin n) :
    Indexed K me { rf with nextIndex := Function.update rf.nextIndex server 1 } where
  commit := h.commit
  applied := h.applied
  matched := h.matched
  next := by
    intro hl j hj
    by_cases hs : j = server
    · subst hs
      simp only [Function.update_self]
      omega
    · simpa [hs] using h.next hl j hj
  acked := h.acked

/-- A successful reply to a call made from `l`. -/
theorem acknowledge (h : Indexed K me rf) {server : Fin n} {expected : Int}
    {args : AppendEntriesArgs n α} {l : List (LogEntry α)} (hexp : expected = l.length)
    (hpos : 0 < l.length) (hpre : l <+: rf.log)
    (hack : ∃ b ∈ K, (b.node server).term = rf.currentTerm ∧ l <+: (b.node server).log) :
    Indexed K me (rf.acknowledge server expected args) := by
  have hlen := hpre.length_le
  rcases Raft.acknowledge_cases rf server expected args with ⟨_, hrf⟩ | hrf
  · rw [hrf]
    refine ⟨h.commit, h.applied, ?_, ?_, ?_⟩
    · intro j
      by_cases hs : j = server
      · subst hs
        simp only [Function.update_self]
        omega
      · simpa [hs] using h.matched j
    · intro hl j hj
      by_cases hs : j = server
      · subst hs
        simp only [Function.update_self]
        omega
      · simpa [hs] using h.next hl j hj
    · intro hl j hj
      by_cases hs : j = server
      · subst hs
        obtain ⟨b, hb, hterm, hbl⟩ := hack
        refine ⟨l.length - 1, ?_, by simp only; omega, Or.inr ⟨b, hb, hterm, ?_⟩⟩
        · simp only [Function.update_self]
          omega
        · have htake : rf.log.take (l.length - 1 + 1) = l := by
            rw [Nat.sub_add_cancel hpos]
            exact (List.prefix_iff_eq_take.mp hpre).symm
          simp only
          rw [htake]
          exact hbl
      · simp only [Function.update_of_ne hs]
        exact h.acked hl j hj
  · rw [hrf]
    exact h

end Indexed

/-- The peers `advanceCommit` counts, the leader among them. -/
def agreeing (me : Fin n) (rf : Raft n α) (server : Fin n) : Finset (Fin n) :=
  insert me (Finset.univ.filter fun i => i ≠ me ∧ rf.matchIndex i ≥ rf.matchIndex server)

theorem card_agreeing (me : Fin n) (rf : Raft n α) (server : Fin n) :
    (agreeing me rf server).card = Raft.numAgreesToCommit me rf server := by
  unfold agreeing Raft.numAgreesToCommit
  rw [Finset.card_insert_of_notMem (by simp), List.countP_eq_length_filter, Nat.add_comm]
  rfl

namespace Indexed

variable {me : Fin n} {rf rf' : Raft n α}

/-- A counted peer held the leader's entry at `server`'s match index, in the
leader's term, if the entry is of that term. -/
theorem agreeing_held (h : Indexed K me rf) (hl : rf.state = .leader)
    (hled : Led K me rf.currentTerm rf.log) {server : Fin n} {k : Nat}
    (hk : rf.matchIndex server = k) {entry : LogEntry α} (he : rf.log[k]? = some entry)
    (hterm : entry.term = rf.currentTerm) {v : Fin n} (hv : v ∈ agreeing me rf server) :
    Held K v rf.currentTerm k entry := by
  rcases Finset.mem_insert.mp hv with rfl | hv
  · obtain ⟨b, hb, _, hterm, hlog⟩ := hled
    exact ⟨b, hb, hterm, by rw [hlog]; exact he⟩
  · obtain ⟨hne, hge⟩ := (Finset.mem_filter.mp hv).2
    obtain ⟨m, hm, _, hcase⟩ := h.acked hl v hne
    have hget : (rf.log.take (m + 1))[k]? = some entry := by
      rw [List.getElem?_take, if_pos (by omega)]
      exact he
    rcases hcase with hold | ⟨b, hb, hbt, hpre⟩
    · have := hold entry (List.mem_of_getElem? hget)
      omega
    · exact ⟨b, hb, hbt, getElem?_of_isPrefix hpre hget⟩

theorem advanceCommit (h : Indexed K me rf) (hlog : LogOk rf.log)
    (hl : rf.state = .leader) (hled : Led K me rf.currentTerm rf.log) {server : Fin n}
    (hadv : Raft.advanceCommit me rf server = some rf') : Indexed K me rf' := by
  obtain ⟨base, entry, hb, hget, hcase⟩ := Raft.advanceCommit_cases hadv
  rw [hlog.zero] at hb
  obtain rfl := Option.some.inj hb
  obtain ⟨k, hk, he⟩ := GoSlice.get_eq_some hget
  simp only [sentinel, Int.sub_zero] at hk
  rcases hcase with rfl | ⟨hmajority, hterm, rfl⟩
  · exact h
  have hkl := (List.getElem?_eq_some_iff.mp he).1
  have h0 := h.commitIndex_nonneg
  refine ⟨?_, ⟨h.applied.1, Int.le_trans h.applied.2 (Int.le_max_left _ _)⟩, h.matched,
    h.next, h.acked⟩
  · by_cases hle : rf.matchIndex server ≤ rf.commitIndex
    · simp only [Int.max_eq_left hle]
      exact h.commit
    · refine ⟨k, by simp only; omega, hkl, Or.inr ⟨k, entry, me, rf.log, ?_,
        Int.le_of_eq hterm, ⟨agreeing me rf server, ?_, ?_⟩, ?_, he, List.prefix_rfl⟩⟩
      · simp only [genesis, List.length_singleton]
        omega
      · rw [Majority.IsMajority, Fintype.card_fin, card_agreeing]
        omega
      · intro v hv
        have hheld := h.agreeing_held hl hled hk he hterm hv
        rwa [← hterm] at hheld
      · change Led K me entry.term rf.log
        rw [hterm]
        exact hled

end Indexed

section Followers

variable {a : Abstract n α} {H : List (Abstract n α)} (run : Run genesis (a :: H))
include run

/-- The log a call was made from is the only one of that leader, term and length. -/
theorem CommitOk.of_led {c : AppendCall n α} (hc : CommitOk (a :: H) c)
    {l : List (LogEntry α)} (hled : Led (a :: H) c.leader c.args.term l)
    (hlen : c.expectedNextIndex = l.length) :
    ∃ m : Nat, c.args.leaderCommit = m ∧ m < l.length ∧
      Committed genesis (a :: H) c.args.term (l.take (m + 1)) := by
  obtain ⟨l', m, hled', hlen', hm, hlt, hcom⟩ := hc
  have hsame : l' = l := by
    have hll : l'.length = l.length := by omega
    rcases run.led_chain hled' hled with hp | hp
    · exact hp.eq_of_length hll
    · exact (hp.eq_of_length hll.symm).symm
  subst hsame
  exact ⟨m, hm, hlt, hcom⟩

/-- What a peer has committed survives the merge with a log of a leader of no older
term. -/
theorem committed_survives {me : Fin n} {rf : Raft n α} (h : Indexed (a :: H) me rf)
    {u : Fin n} {T : Int} (hT : rf.currentTerm ≤ T) {l log : List (LogEntry α)}
    (hled : Led (a :: H) u T l)
    (hlog : (l <+: rf.log ∧ log = rf.log) ∨ (¬ l <+: rf.log ∧ log = l)) :
    ∃ c : Nat, rf.commitIndex = c ∧ c < log.length ∧
      Committed genesis (a :: H) T (log.take (c + 1)) := by
  obtain ⟨c, hc, hlt, hcom⟩ := h.commit
  have hpre : rf.log.take (c + 1) <+: log := by
    rcases hlog with ⟨_, rfl⟩ | ⟨hno, rfl⟩
    · exact List.take_prefix _ _
    · rcases run.committed_led hcom hT hled with hp | hp
      · exact hp
      · exact absurd (hp.trans (List.take_prefix _ _)) hno
  have hlen : (rf.log.take (c + 1)).length = c + 1 := by
    simp only [List.length_take]
    omega
  have htake : log.take (c + 1) = rf.log.take (c + 1) := by
    have := List.prefix_iff_eq_take.mp hpre
    rw [hlen] at this
    exact this.symm
  refine ⟨c, hc, ?_, ?_⟩
  · have := hpre.length_le
    omega
  · rw [htake]
    exact hcom.mono (fun _ hb => hb) hT

theorem Indexed.appendEntries {rf rf' : Raft n α} {c : AppendCall n α}
    {response : AppendEntriesReply} {l : List (LogEntry α)}
    (h : Indexed (a :: H) c.server rf) (hf : LogOk rf.log) (hl : LogOk l)
    (hm : Matches rf.log l) (hled : Led (a :: H) c.leader c.args.term l)
    (hsnap : Snapshot l c) (hcommit : CommitOk (a :: H) c)
    (hres : rf.appendEntries c.args = some (rf', response)) :
    Indexed (a :: H) c.server rf' := by
  rcases Raft.appendEntries_cases hres with ⟨_, rfl, _⟩ | ⟨hle, rf₁, hacc, rfl⟩
  · exact h.carry rfl rfl rfl rfl (Int.le_refl _) (fun hl => ⟨hl, rfl, rfl⟩)
  rw [Raft.followLeader_of_le hle] at hacc
  obtain ⟨rf₂, response₂, hspec, hcase⟩ := Raft.acceptEntries_spec { rf with
    currentTerm := c.args.term
    votedFor := if rf.currentTerm < c.args.term then none else rf.votedFor
    state := .follower
    electionTime := true } hf hl hm hsnap
  rw [hacc] at hspec
  obtain ⟨rfl, rfl⟩ := Prod.mk.inj (Option.some.inj hspec)
  rcases hcase with ⟨_, rfl⟩ | ⟨_, log, chan, hlog, rfl⟩
  · refine h.carry rfl rfl rfl rfl hle ?_
    intro hl
    cases hl
  obtain ⟨k, hk, hkl, hkcom⟩ := committed_survives run h hle hled hlog
  obtain ⟨m, hm, hml, hmcom⟩ := hcommit.of_led run hled hsnap.expected
  have hpre : l <+: log := by
    rcases hlog with ⟨hp, rfl⟩ | ⟨_, rfl⟩
    · exact hp
    · exact List.prefix_rfl
  have hlen := hpre.length_le
  refine ⟨?_, ?_, h.matched, ?_, ?_⟩
  · by_cases hlt : c.args.leaderCommit > rf.commitIndex
    · refine ⟨m, ?_, by simp only [Raft.persist]; omega, ?_⟩
      · simp only [Raft.persist, Raft.followerCommit, if_pos hlt]
        omega
      · have htake : log.take (m + 1) = l.take (m + 1) := by
          obtain ⟨t, rfl⟩ := hpre
          exact List.take_append_of_le_length (by omega)
        simp only [Raft.persist]
        rw [htake]
        exact hmcom
    · refine ⟨k, ?_, hkl, hkcom⟩
      simp only [Raft.persist, Raft.followerCommit, if_neg hlt]
      exact hk
  · refine ⟨h.applied.1, ?_⟩
    have := h.applied.2
    simp only [Raft.persist, Raft.followerCommit]
    split <;> omega
  · intro hl
    cases hl
  · intro hl
    cases hl

end Followers
end RaftLab
