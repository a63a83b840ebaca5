import DistributedLabs.Raft.Effects
import DistributedLabs.Raft.Logs

/-!
What `AppendEntries` makes of a follower's log. The log is any list whose position `j` holds
index `j`, so that a missing, a conflicting and a known entry are all possible at every
index of the request. A request that was handled once is handled again without effect, and
so is, in any order, what is left of older and shorter requests of the same leader.
-/

namespace RaftLab

open TermLog

variable {n : Nat} {α : Type}

/-- The request carries the tail of `l` after an index that it describes. -/
def AppendEntriesArgs.Carries (request : AppendEntriesArgs n α) (l : List (LogEntry α)) :
    Prop :=
  ∃ (p : Nat) (x : LogEntry α), request.prevLogIndex = p ∧ l[p]? = some x ∧
    request.prevLogTerm = x.term ∧ request.entries = l.drop (p + 1)

def AppendEntriesArgs.merge (request : AppendEntriesArgs n α) (log : List (LogEntry α)) :
    List (LogEntry α) :=
  splice LogEntry.term log (request.prevLogIndex.toNat + 1) request.entries

/-- `log'` is `log` if it holds all the entries; otherwise it is `log` up to the first of
them that is missing there or has another term, and the entries from that one on. -/
structure Merged (log entries log' : List (LogEntry α)) : Prop where
  known : (∀ e ∈ entries, Holds log e.index e.term) → log' = log
  cut : ∀ held e rest, entries = held ++ e :: rest →
    (∀ x ∈ held, Holds log x.index x.term) → ¬ Holds log e.index e.term →
    log' = log.take e.index.toNat ++ e :: rest

/-- A follower and a request of a leader of no older term. -/
structure Fits (rf : Raft n α) (request : AppendEntriesArgs n α) : Prop where
  log : Consecutive 0 rf.log
  prev : 0 ≤ request.prevLogIndex
  entries : Consecutive (request.prevLogIndex + 1) request.entries
  term : rf.currentTerm ≤ request.term

section Logs

variable {log entries : List (LogEntry α)} {k : Nat}

theorem hasTerms_iff (hlog : Consecutive 0 log) (hentries : Consecutive (k : Int) entries) :
    HasTerms LogEntry.term log k entries ↔ ∀ e ∈ entries, Holds log e.index e.term := by
  have hcast : ∀ (j : Nat) (e : LogEntry α), entries[j]? = some e →
      e.index = ((k + j : Nat) : Int) := by
    intro j e he
    rw [hentries j e he]
    omega
  constructor
  · intro h e he
    obtain ⟨j, hj⟩ := List.mem_iff_getElem?.mp he
    rw [hcast j e hj, holds_iff hlog]
    exact h j e hj
  · intro h j e hj
    have hheld := h e (List.mem_of_getElem? hj)
    rwa [hcast j e hj, holds_iff hlog] at hheld

theorem splice_merged (hlog : Consecutive 0 log) (hentries : Consecutive (k : Int) entries) :
    Merged log entries (splice LogEntry.term log k entries) where
  known := by
    intro h
    exact splice_of_hasTerms ((hasTerms_iff hlog hentries).mpr h)
  cut := by
    intro held e rest hsplit hheld he
    have hfirst : Consecutive (k : Int) held := by
      intro j x hx
      refine hentries j x ?_
      rw [hsplit, List.getElem?_append_left (List.getElem?_eq_some_iff.mp hx).1, hx]
    have hindex : e.index = ((k + held.length : Nat) : Int) := by
      rw [hentries held.length e (by rw [hsplit]; simp)]
      omega
    have hterms := (hasTerms_iff hlog hfirst).mpr hheld
    rw [hindex, holds_iff hlog] at he
    rw [hsplit, splice_cut hterms he rest, hindex, Int.toNat_natCast]

theorem Consecutive.of_isPrefix {first : Int} {l m : List (LogEntry α)}
    (h : Consecutive first m) (hlm : l <+: m) : Consecutive first l := by
  intro j e he
  exact h j e (getElem?_of_isPrefix hlm he)

end Logs

namespace Raft

variable {rf rf' : Raft n α} {request : AppendEntriesArgs n α} {response : AppendEntriesReply}

theorem followLeader_self (hterm : rf.currentTerm = request.term)
    (hstate : rf.state = .follower) (htimer : rf.electionTime = true) :
    rf.followLeader request.term = rf := by
  rw [followLeader_of_le hterm.le, ← hterm, if_neg (lt_irrefl _), ← hstate, ← htimer]

/-- A peer without any entry panics at `rf.log[0]`. -/
theorem appendEntries_empty (h : Fits rf request) (hlog : rf.log = []) :
    rf.appendEntries request = none := by
  have hget : GoSlice.get (rf.followLeader request.term).log 0 = none := by
    rw [followLeader_of_le h.term]
    simp [hlog]
  rw [appendEntries, if_neg (Int.not_lt.mpr h.term), acceptEntries, hget]
  rfl

theorem appendEntries_eq (h : Fits rf request) (hlog : rf.log ≠ []) :
    rf.appendEntries request =
      if Holds rf.log request.prevLogIndex request.prevLogTerm then
        some (((rf.followLeader request.term).accepted request (request.merge rf.log)).persist,
          ⟨request.term, true⟩)
      else some ((rf.followLeader request.term).persist, ⟨request.term, false⟩) := by
  have hfollow := followLeader_of_le h.term
  have hsame : (rf.followLeader request.term).log = rf.log := by rw [hfollow]
  have hterm : (rf.followLeader request.term).currentTerm = request.term := by rw [hfollow]
  rw [appendEntries, if_neg (Int.not_lt.mpr h.term),
    acceptEntries_eq (p := request.prevLogIndex.toNat) _ (by rw [hsame]; exact h.log)
      (by rw [hsame]; exact List.length_pos_of_ne_nil hlog)
      (Int.toNat_of_nonneg h.prev).symm h.entries, hsame, hterm]
  split <;> rfl

theorem log_ne_nil (h : Fits rf request)
    (hr : rf.appendEntries request = some (rf', response)) : rf.log ≠ [] := by
  intro hlog
  rw [appendEntries_empty h hlog] at hr
  cases hr

theorem appendEntries_outcome (h : Fits rf request)
    (hr : rf.appendEntries request = some (rf', response)) :
    (¬ Holds rf.log request.prevLogIndex request.prevLogTerm ∧
        response = ⟨request.term, false⟩ ∧ rf' = (rf.followLeader request.term).persist) ∨
      (Holds rf.log request.prevLogIndex request.prevLogTerm ∧
        response = ⟨request.term, true⟩ ∧
        rf' = ((rf.followLeader request.term).accepted request
          (request.merge rf.log)).persist) := by
  rw [appendEntries_eq h (log_ne_nil h hr)] at hr
  split at hr
  · rename_i hheld
    obtain ⟨rfl, rfl⟩ := Prod.mk.inj (Option.some.inj hr)
    exact Or.inr ⟨hheld, rfl, rfl⟩
  · rename_i hheld
    obtain ⟨rfl, rfl⟩ := Prod.mk.inj (Option.some.inj hr)
    exact Or.inl ⟨hheld, rfl, rfl⟩

theorem followerCommit_followerCommit (commitIndex leaderCommit : Int) (length : Nat) :
    followerCommit (followerCommit commitIndex leaderCommit length) leaderCommit length =
      followerCommit commitIndex leaderCommit length := by
  unfold followerCommit
  by_cases h : leaderCommit > commitIndex
  · rw [if_pos h]
    split
    · rfl
    · rfl
  · rw [if_neg h, if_neg h]

/-- Taking a request a second time may only send another notification. -/
theorem accepted_persist_again (rf : Raft n α) (request : AppendEntriesArgs n α)
    (log : List (LogEntry α)) :
    ((rf.accepted request log).persist.accepted request log).persist =
      { (rf.accepted request log).persist with
        hasCommittedChan :=
          if request.leaderCommit > (rf.accepted request log).commitIndex then
            (rf.accepted request log).hasCommittedChan + 1
          else (rf.accepted request log).hasCommittedChan } := by
  simp only [accepted, persist, followerCommit_followerCommit]
  rfl

end Raft

namespace Fits

variable {rf rf' : Raft n α} {request : AppendEntriesArgs n α} {response : AppendEntriesReply}

theorem holds_prev_iff (h : Fits rf request) {log : List (LogEntry α)}
    (hlog : Consecutive 0 log) :
    Holds log request.prevLogIndex request.prevLogTerm ↔
      log[request.prevLogIndex.toNat]?.map LogEntry.term = some request.prevLogTerm := by
  rw [← holds_iff hlog, Int.toNat_of_nonneg h.prev]

theorem lt_length (h : Fits rf request)
    (hheld : Holds rf.log request.prevLogIndex request.prevLogTerm) :
    request.prevLogIndex.toNat + 1 ≤ rf.log.length := by
  obtain ⟨x, hx, _⟩ := Option.map_eq_some_iff.mp ((h.holds_prev_iff h.log).mp hheld)
  exact (List.getElem?_eq_some_iff.mp hx).1

theorem entries_natCast (h : Fits rf request) :
    Consecutive ((request.prevLogIndex.toNat + 1 : Nat) : Int) request.entries := by
  have hcast := Int.toNat_of_nonneg h.prev
  have hentries := h.entries
  rwa [← hcast] at hentries

theorem merge_consecutive (h : Fits rf request)
    (hheld : Holds rf.log request.prevLogIndex request.prevLogTerm) :
    Consecutive 0 (request.merge rf.log) := by
  refine splice_rule h.log ?_ (h.lt_length hheld)
  intro j e he
  rw [h.entries_natCast j e he]
  omega

theorem merge_holds_prev (h : Fits rf request)
    (hheld : Holds rf.log request.prevLogIndex request.prevLogTerm) :
    Holds (request.merge rf.log) request.prevLogIndex request.prevLogTerm := by
  rw [h.holds_prev_iff (h.merge_consecutive hheld), AppendEntriesArgs.merge,
    getElem?_splice_of_lt LogEntry.term request.entries (h.lt_length hheld)
      (Nat.lt_succ_self _)]
  exact (h.holds_prev_iff h.log).mp hheld

theorem follows (h : Fits rf request) (hr : rf.appendEntries request = some (rf', response)) :
    rf'.currentTerm = request.term ∧ rf'.state = .follower ∧ rf'.electionTime = true := by
  have hfollow := Raft.followLeader_of_le h.term
  rcases Raft.appendEntries_outcome h hr with ⟨_, _, rfl⟩ | ⟨_, _, rfl⟩
  · rw [hfollow]
    exact ⟨rfl, rfl, rfl⟩
  · rw [hfollow]
    exact ⟨rfl, rfl, rfl⟩

theorem log_cases (h : Fits rf request) (hr : rf.appendEntries request = some (rf', response)) :
    (¬ Holds rf.log request.prevLogIndex request.prevLogTerm ∧
        response = ⟨request.term, false⟩ ∧ rf'.log = rf.log ∧
        rf'.commitIndex = rf.commitIndex) ∨
      (Holds rf.log request.prevLogIndex request.prevLogTerm ∧
        response = ⟨request.term, true⟩ ∧ rf'.log = request.merge rf.log ∧
        rf'.commitIndex =
          Raft.followerCommit rf.commitIndex request.leaderCommit rf'.log.length) := by
  have hfollow := Raft.followLeader_of_le h.term
  rcases Raft.appendEntries_outcome h hr with ⟨hheld, hresponse, rfl⟩ | ⟨hheld, hresponse, rfl⟩
  · rw [hfollow]
    exact Or.inl ⟨hheld, hresponse, rfl, rfl⟩
  · rw [hfollow]
    exact Or.inr ⟨hheld, hresponse, rfl, rfl⟩

theorem handled (h : Fits rf request) (hr : rf.appendEntries request = some (rf', response)) :
    Fits rf' request where
  log := by
    rcases h.log_cases hr with ⟨_, _, hlog, _⟩ | ⟨hheld, _, hlog, _⟩
    · rw [hlog]
      exact h.log
    · rw [hlog]
      exact h.merge_consecutive hheld
  prev := h.prev
  entries := h.entries
  term := (h.follows hr).1.le

theorem handled_log_ne_nil (h : Fits rf request)
    (hr : rf.appendEntries request = some (rf', response)) : rf'.log ≠ [] := by
  rcases h.log_cases hr with ⟨_, _, hlog, _⟩ | ⟨hheld, _, hlog, _⟩
  · rw [hlog]
    exact Raft.log_ne_nil h hr
  · rw [hlog]
    obtain ⟨e, he, _⟩ := h.merge_holds_prev hheld
    exact List.ne_nil_of_mem he

/-- A request that was answered is answered the same way again; all that can be added is a
notification, if the leader has committed beyond the follower's log. -/
theorem appendEntries_again (h : Fits rf request)
    (hr : rf.appendEntries request = some (rf', response)) :
    rf'.appendEntries request =
      some ({ rf' with
        hasCommittedChan :=
          if response.success = true ∧ request.leaderCommit > rf'.commitIndex then
            rf'.hasCommittedChan + 1
          else rf'.hasCommittedChan }, response) := by
  obtain ⟨hterm, hstate, htimer⟩ := h.follows hr
  rw [Raft.appendEntries_eq (h.handled hr) (h.handled_log_ne_nil hr),
    Raft.followLeader_self hterm hstate htimer]
  rcases Raft.appendEntries_outcome h hr with ⟨hheld, hresponse, hrf⟩ | ⟨hheld, hresponse, hrf⟩
  · have hno : ¬ Holds rf'.log request.prevLogIndex request.prevLogTerm := by
      rw [hrf, Raft.followLeader_of_le h.term]
      exact hheld
    rw [if_neg hno, hresponse, hrf]
    simp only [Bool.false_eq_true, false_and, if_false]
    rfl
  · have hlog : rf'.log = request.merge rf.log := by rw [hrf]; rfl
    have hyes : Holds rf'.log request.prevLogIndex request.prevLogTerm := by
      rw [hlog]
      exact h.merge_holds_prev hheld
    have hagain : request.merge rf'.log = request.merge rf.log := by
      rw [hlog]
      exact splice_splice (h.lt_length hheld)
    rw [if_pos hyes, hagain, hresponse, hrf, Raft.accepted_persist_again]
    simp only [true_and]
    rfl

/-- An accepted request whose commit index the log reaches has nothing left to notify. -/
theorem leaderCommit_le (h : Fits rf request)
    (hr : rf.appendEntries request = some (rf', response)) (hs : response.success = true)
    (hcommit : request.leaderCommit < rf'.log.length) :
    ¬ request.leaderCommit > rf'.commitIndex := by
  rcases h.log_cases hr with ⟨_, rfl, _⟩ | ⟨_, _, _, hindex⟩
  · cases hs
  · rw [hindex, Raft.followerCommit]
    split <;> omega

end Fits

section Tails

variable {rf rf' : Raft n α} {request : AppendEntriesArgs n α} {response : AppendEntriesReply}
variable {l m : List (LogEntry α)}

theorem AppendEntriesArgs.Carries.fits (hc : request.Carries l) (hl : Consecutive 0 l)
    (hlog : Consecutive 0 rf.log) (hterm : rf.currentTerm ≤ request.term) :
    Fits rf request where
  log := hlog
  prev := by
    obtain ⟨p, x, hp, _⟩ := hc
    omega
  entries := by
    obtain ⟨p, x, hp, _, _, he⟩ := hc
    rw [hp, he]
    exact hl.drop_succ p
  term := hterm

/-- A peer whose log matches the leader's and that accepts a tail of it has all of it. -/
theorem AppendEntriesArgs.Carries.isPrefix_merge (hc : request.Carries l)
    (hlog : Consecutive 0 rf.log) (hm : Matches rf.log l)
    (hheld : Holds rf.log request.prevLogIndex request.prevLogTerm) :
    l <+: request.merge rf.log := by
  obtain ⟨p, x, hp, hx, hterm, he⟩ := hc
  rw [hp, hterm, holds_iff hlog] at hheld
  obtain ⟨y, hy, hyx⟩ := Option.map_eq_some_iff.mp hheld
  have hlt : p < l.length := (List.getElem?_eq_some_iff.mp hx).1
  rw [AppendEntriesArgs.merge, hp, he, Int.toNat_natCast]
  rcases splice_drop hm hlt (hm p y x hy hx hyx) with ⟨hpre, h⟩ | ⟨_, h⟩
  · rw [h]
    exact hpre
  · rw [h]

theorem Fits.isPrefix_handled (h : Fits rf request)
    (hr : rf.appendEntries request = some (rf', response)) (hs : response.success = true)
    (hm : Matches rf.log l) (hc : request.Carries l) : l <+: rf'.log := by
  rcases h.log_cases hr with ⟨_, rfl, _⟩ | ⟨hheld, _, hlog, _⟩
  · cases hs
  · rw [hlog]
    exact hc.isPrefix_merge h.log hm hheld

/-- A tail of what the peer has already is accepted and changes no entry; a request of an
older term is refused and changes no entry either. -/
theorem AppendEntriesArgs.Carries.appendEntries_known (hc : request.Carries l)
    (hlog : Consecutive 0 rf.log) (hl : l <+: rf.log) :
    ∃ rf' response, rf.appendEntries request = some (rf', response) ∧ rf'.log = rf.log ∧
      (rf.currentTerm ≤ request.term → response = ⟨request.term, true⟩) := by
  rcases Int.lt_or_le request.term rf.currentTerm with hlt | hle
  · refine ⟨rf.persist, ⟨rf.currentTerm, false⟩, if_pos hlt, rfl, ?_⟩
    intro hle
    omega
  · have hfits := hc.fits (hlog.of_isPrefix hl) hlog hle
    obtain ⟨p, x, hp, hx, hterm, he⟩ := hc
    have hheld : Holds rf.log request.prevLogIndex request.prevLogTerm := by
      rw [hp, hterm, holds_iff hlog, getElem?_of_isPrefix hl hx]
      rfl
    have hmerge : request.merge rf.log = rf.log := by
      rw [AppendEntriesArgs.merge, hp, he, Int.toNat_natCast]
      exact splice_of_hasTerms (hasTerms_drop_of_isPrefix hl (p + 1))
    have hne : rf.log ≠ [] := List.ne_nil_of_mem hheld.choose_spec.1
    have hr := Raft.appendEntries_eq hfits hne
    rw [if_pos hheld, hmerge] at hr
    exact ⟨_, _, hr, rfl, fun _ => rfl⟩

def Raft.appendAll (rf : Raft n α) (requests : List (AppendEntriesArgs n α)) :
    Option (Raft n α) :=
  requests.foldlM (fun rf request => (rf.appendEntries request).map Prod.fst) rf

/-- Tails of what the peer has already, in any number, order and term, change no entry. -/
theorem appendAll_known (hlog : Consecutive 0 rf.log)
    {requests : List (AppendEntriesArgs n α)}
    (hknown : ∀ request ∈ requests, ∃ l, l <+: rf.log ∧ request.Carries l) :
    ∃ rf', rf.appendAll requests = some rf' ∧ rf'.log = rf.log := by
  induction requests generalizing rf with
  | nil => exact ⟨rf, rfl, rfl⟩
  | cons request requests ih =>
      obtain ⟨l, hl, hc⟩ := hknown request List.mem_cons_self
      obtain ⟨rf₁, response, hr, hsame, _⟩ := hc.appendEntries_known hlog hl
      have hlog₁ : Consecutive 0 rf₁.log := by
        rw [hsame]
        exact hlog
      have hknown₁ : ∀ r ∈ requests, ∃ l, l <+: rf₁.log ∧ r.Carries l := by
        rw [hsame]
        exact fun r hr => hknown r (List.mem_cons_of_mem _ hr)
      obtain ⟨rf', hrest, hlog'⟩ := ih hlog₁ hknown₁
      refine ⟨rf', ?_, hlog'.trans hsame⟩
      rw [Raft.appendAll, List.foldlM_cons, hr]
      exact hrest

end Tails

/-- `AppendEntries` of a leader of no older term on a log indexed by position. It answers
unless the log is empty, and accepts exactly when the previous entry is there. A refusal
leaves log and commit index alone, an acceptance merges the entries. The same request again
changes nothing, except that a leader committed beyond the follower's log wakes the applier
again. Once the tail of a matching leader's log was accepted, a request of that term with the
tail of a shorter log of that leader is accepted and leaves the log as it is, and so does any
sequence of such requests, of whatever terms. -/
theorem appendEntries_merges (rf : Raft n α) (request : AppendEntriesArgs n α)
    (h : Fits rf request) :
    (rf.log ≠ [] → ∃ rf' response, rf.appendEntries request = some (rf', response)) ∧
    ((∃ rf' response, rf.appendEntries request = some (rf', response) ∧
        response.success = true) ↔
      Holds rf.log request.prevLogIndex request.prevLogTerm) ∧
    ∀ rf' response, rf.appendEntries request = some (rf', response) →
      (response.success = false → rf'.log = rf.log ∧ rf'.commitIndex = rf.commitIndex) ∧
      (response.success = true → Merged rf.log request.entries rf'.log) ∧
      (∃ notifications, rf'.appendEntries request =
        some ({ rf' with hasCommittedChan := notifications }, response)) ∧
      (request.leaderCommit < rf'.log.length →
        rf'.appendEntries request = some (rf', response)) ∧
      (response.success = true → ∀ l₁ l₂ : List (LogEntry α), Matches rf.log l₂ →
        request.Carries l₂ → l₁ <+: l₂ →
        ∀ stale : AppendEntriesArgs n α, stale.Carries l₁ → stale.term = request.term →
          ∃ rf'', rf'.appendEntries stale = some (rf'', ⟨request.term, true⟩) ∧
            rf''.log = rf'.log) ∧
      (response.success = true → ∀ l : List (LogEntry α), Matches rf.log l →
        request.Carries l → ∀ requests : List (AppendEntriesArgs n α),
          (∀ r ∈ requests, ∃ l₁, l₁ <+: l ∧ r.Carries l₁) →
          ∃ rf'', rf'.appendAll requests = some rf'' ∧ rf''.log = rf'.log) := by
  refine ⟨?_, ⟨?_, ?_⟩, ?_⟩
  · intro hlog
    rw [Raft.appendEntries_eq h hlog]
    split
    · exact ⟨_, _, rfl⟩
    · exact ⟨_, _, rfl⟩
  · rintro ⟨rf', response, hr, hs⟩
    rcases h.log_cases hr with ⟨_, rfl, _⟩ | ⟨hheld, _⟩
    · cases hs
    · exact hheld
  · intro hheld
    have hlog : rf.log ≠ [] := List.ne_nil_of_mem hheld.choose_spec.1
    exact ⟨_, _, by rw [Raft.appendEntries_eq h hlog, if_pos hheld], rfl⟩
  · intro rf' response hr
    refine ⟨?_, ?_, ⟨_, h.appendEntries_again hr⟩, ?_, ?_, ?_⟩
    · intro hs
      rcases h.log_cases hr with ⟨_, _, hlog, hcommit⟩ | ⟨_, rfl, _⟩
      · exact ⟨hlog, hcommit⟩
      · cases hs
    · intro hs
      rcases h.log_cases hr with ⟨_, rfl, _⟩ | ⟨_, _, hlog, _⟩
      · cases hs
      · rw [hlog]
        exact splice_merged h.log h.entries_natCast
    · intro hcommit
      have hquiet : ¬ (response.success = true ∧ request.leaderCommit > rf'.commitIndex) :=
        fun hq => h.leaderCommit_le hr hq.1 hcommit hq.2
      rw [h.appendEntries_again hr, if_neg hquiet]
    · intro hs l₁ l₂ hm hc hpre stale hstale hterm
      obtain ⟨rf'', response', hr', hsame, hresponse⟩ := hstale.appendEntries_known
        (h.handled hr).log (hpre.trans (h.isPrefix_handled hr hs hm hc))
      rw [hresponse (by rw [(h.follows hr).1, hterm]), hterm] at hr'
      exact ⟨rf'', hr', hsame⟩
    · intro hs l hm hc requests hknown
      refine appendAll_known (h.handled hr).log fun r hmem => ?_
      obtain ⟨l₁, hpre, hr₁⟩ := hknown r hmem
      exact ⟨l₁, hpre.trans (h.isPrefix_handled hr hs hm hc), hr₁⟩

def lagging : Raft 3 Nat :=
  Raft.make (some ⟨1, none, [sentinel, ⟨1, some 5, 1⟩, ⟨1, some 6, 2⟩, ⟨1, some 7, 3⟩]⟩)

/-- A request of term 2 with one entry that `lagging` has and two that it does not have. -/
def overlapping (leader : Fin 3) : AppendEntriesArgs 3 Nat where
  term := 2
  leaderId := leader
  prevLogIndex := 1
  prevLogTerm := 1
  entries := [⟨1, some 6, 2⟩, ⟨2, some 8, 3⟩, ⟨2, some 9, 4⟩]
  leaderCommit := 2

theorem appendEntries_merges_overlapping :
    Fits lagging (overlapping 0) ∧
      ∃ rf' response, lagging.appendEntries (overlapping 0) = some (rf', response) ∧
        rf'.log = [sentinel, ⟨1, some 5, 1⟩, ⟨1, some 6, 2⟩, ⟨2, some 8, 3⟩,
          ⟨2, some 9, 4⟩] ∧
        rf'.appendEntries (overlapping 0) = some (rf', response) := by
  have hfits : Fits lagging (overlapping 0) :=
    { log := by simp [lagging, Raft.make, Raft.readPersist, sentinel]
      prev := by decide
      entries := by simp [overlapping]
      term := by decide }
  obtain ⟨_, haccept, hall⟩ := appendEntries_merges lagging (overlapping 0) hfits
  obtain ⟨rf', response, hr, hs⟩ := haccept.mpr (by decide)
  obtain ⟨_, hmerged, _, hagain, _⟩ := hall rf' response hr
  have hlog := (hmerged hs).cut [⟨1, some 6, 2⟩] ⟨2, some 8, 3⟩ [⟨2, some 9, 4⟩] rfl
    (by decide) (by decide)
  exact ⟨hfits, rf', response, hr, hlog, hagain (by rw [hlog]; decide)⟩

end RaftLab
