import DistributedLabs.Raft.Handlers
import DistributedLabs.Library.TermLogSplice

/-!
The log operations of raft.go on logs whose position `j` holds index `j`. In
such a log the entry at 0 has index 0, so that Go's `x - rf.log[0].Index` is `x`.
-/

namespace RaftLab

open TermLog

variable {n : Nat} {α : Type}

/-- Position 0 holds the sentinel and position `j` the index `j`. -/
structure LogOk (l : List (LogEntry α)) : Prop where
  zero : l[0]? = some sentinel
  index : ∀ (k : Nat) (e : LogEntry α), l[k]? = some e → e.index = k

theorem LogOk.length_pos {l : List (LogEntry α)} (h : LogOk l) : 0 < l.length :=
  (List.getElem?_eq_some_iff.mp h.zero).1

theorem LogOk.getLast {l : List (LogEntry α)} (h : LogOk l) :
    ∃ x, l.getLast? = some x ∧ x.index = l.length - 1 := by
  have hpos := h.length_pos
  have hlt : l.length - 1 < l.length := by omega
  refine ⟨l[l.length - 1], ?_, ?_⟩
  · rw [List.getLast?_eq_getElem?, List.getElem?_eq_getElem hlt]
  · rw [h.index (l.length - 1) _ (List.getElem?_eq_getElem hlt)]
    omega

theorem LogOk.singleton : LogOk ([sentinel] : List (LogEntry α)) where
  zero := rfl
  index := by
    intro k e hk
    cases k with
    | zero => obtain rfl := Option.some.inj hk; rfl
    | succ k => simp at hk

theorem LogOk.append {l : List (LogEntry α)} (h : LogOk l) {e : LogEntry α}
    (he : e.index = l.length) : LogOk (l ++ [e]) where
  zero := by
    rw [List.getElem?_append_left h.length_pos]
    exact h.zero
  index := by
    intro k x hk
    rcases Nat.lt_or_ge k l.length with hlt | hge
    · rw [List.getElem?_append_left hlt] at hk
      exact h.index k x hk
    · rw [List.getElem?_append_right hge] at hk
      obtain ⟨hk0, rfl⟩ := List.getElem?_eq_some_iff.mp hk
      simp only [List.length_singleton] at hk0
      simp only [List.getElem_singleton]
      omega

/-- The entries have consecutive indices from `first` on. -/
def Consecutive (first : Int) (l : List (LogEntry α)) : Prop :=
  ∀ (j : Nat) (e : LogEntry α), l[j]? = some e → e.index = first + j

@[simp] theorem consecutive_nil (first : Int) :
    Consecutive first ([] : List (LogEntry α)) := by
  intro j e he
  cases he

@[simp] theorem consecutive_cons {first : Int} {e : LogEntry α} {l : List (LogEntry α)} :
    Consecutive first (e :: l) ↔ e.index = first ∧ Consecutive (first + 1) l := by
  constructor
  · intro h
    refine ⟨by simpa using h 0 e rfl, ?_⟩
    intro j x hx
    rw [h (j + 1) x hx]
    omega
  · rintro ⟨h0, h⟩ j x hx
    cases j with
    | zero =>
        obtain rfl := Option.some.inj hx
        simpa using h0
    | succ j =>
        rw [h j x hx]
        omega

theorem LogOk.consecutive {l : List (LogEntry α)} (h : LogOk l) : Consecutive 0 l := by
  intro j e he
  rw [h.index j e he, Int.zero_add]

/-- The entries of a log after position `p`. -/
theorem Consecutive.drop_succ {l : List (LogEntry α)} (h : Consecutive 0 l) (p : Nat) :
    Consecutive ((p : Int) + 1) (l.drop (p + 1)) := by
  intro j e he
  rw [List.getElem?_drop] at he
  rw [h (p + 1 + j) e he]
  omega

/-- An entry of the given term is in the log under the given index. -/
def Holds (log : List (LogEntry α)) (index term : Int) : Prop :=
  ∃ e ∈ log, e.index = index ∧ e.term = term

instance (log : List (LogEntry α)) (index term : Int) : Decidable (Holds log index term) :=
  inferInstanceAs (Decidable (∃ e ∈ log, e.index = index ∧ e.term = term))

/-- Where positions are indices, index `k` is looked up at position `k`. -/
theorem holds_iff {log : List (LogEntry α)} (h : Consecutive 0 log) {k : Nat} {term : Int} :
    Holds log k term ↔ log[k]?.map LogEntry.term = some term := by
  rw [Option.map_eq_some_iff]
  constructor
  · rintro ⟨e, he, hindex, hterm⟩
    obtain ⟨j, hj⟩ := List.mem_iff_getElem?.mp he
    have hjk : j = k := by
      have := h j e hj
      omega
    exact ⟨e, hjk ▸ hj, hterm⟩
  · rintro ⟨e, he, hterm⟩
    refine ⟨e, List.mem_of_getElem? he, ?_, hterm⟩
    rw [h k e he, Int.zero_add]

/-- The call carries the tail of `l` after some position, which it describes. -/
structure Snapshot (l : List (LogEntry α)) (c : AppendCall n α) : Prop where
  prev : ∃ (p : Nat) (x : LogEntry α), c.args.prevLogIndex = p ∧ l[p]? = some x ∧
    c.args.prevLogTerm = x.term ∧ c.args.entries = l.drop (p + 1)
  expected : c.expectedNextIndex = l.length

/-- Any two entries of one term at one position have the same past in `f` and `l`. -/
def Matches (f l : List (LogEntry α)) : Prop :=
  ∀ k x y, f[k]? = some x → l[k]? = some y → x.term = y.term →
    f.take (k + 1) = l.take (k + 1)

namespace Raft

theorem lastLogIndex_of_consecutive (rf : Raft n α) (h : Consecutive 0 rf.log)
    (hpos : 0 < rf.log.length) : rf.lastLogIndex = some ((rf.log.length : Int) - 1) := by
  have hlt : rf.log.length - 1 < rf.log.length := by omega
  have hlast : rf.log[rf.log.length - 1]? = some rf.log[rf.log.length - 1] :=
    List.getElem?_eq_getElem hlt
  rw [lastLogIndex, List.getLast?_eq_getElem?, hlast, Option.map_some, h _ _ hlast]
  congr 1
  omega

theorem lastLogIndex_eq {rf : Raft n α} (h : LogOk rf.log) :
    rf.lastLogIndex = some ((rf.log.length : Int) - 1) :=
  lastLogIndex_of_consecutive rf h.consecutive h.length_pos

theorem lastLogTerm_eq {rf : Raft n α} {x : LogEntry α}
    (hx : rf.log.getLast? = some x) : rf.lastLogTerm = x.term := by
  simp [lastLogTerm, hx]

/-- A goroutine that starts at all carries a snapshot of the leader's log. -/
theorem spawnAppend_spec {me server : Fin n} {inc : Nat} {rf : Raft n α}
    {c : AppendCall n α} (hlog : LogOk rf.log)
    (h : spawnAppend me inc rf server = some c) :
    c.leader = me ∧ c.server = server ∧ c.args.term = rf.currentTerm ∧
      c.args.leaderCommit = rf.commitIndex ∧ c.wire = .unsent ∧
      Snapshot rf.log c := by
  simp only [spawnAppend, GoSlice.get_zero, hlog.zero, Option.bind_eq_bind,
    Option.bind_some, Option.bind_eq_some_iff, sentinel, Int.sub_zero] at h
  obtain ⟨x, hx, entries, he, hc⟩ := h
  obtain rfl := Option.some.inj hc
  obtain ⟨p, hp, hxp⟩ := GoSlice.get_eq_some hx
  obtain ⟨m, hm, hml, rfl⟩ := GoSlice.sliceFrom_eq_some he
  have hpm : m = p + 1 := by omega
  subst hpm
  refine ⟨rfl, rfl, rfl, rfl, rfl, ⟨p, x, hp, hxp, rfl, rfl⟩, ?_⟩
  simp only [List.length_drop]
  omega

theorem spawnAppend_isSome {me server : Fin n} {inc : Nat} {rf : Raft n α}
    (hlog : LogOk rf.log) (hlo : 1 ≤ rf.nextIndex server)
    (hhi : rf.nextIndex server ≤ rf.log.length) :
    ∃ c, spawnAppend me inc rf server = some c := by
  obtain ⟨m, hm⟩ := Int.eq_ofNat_of_zero_le (show 0 ≤ rf.nextIndex server - 1 by omega)
  have hlt : m < rf.log.length := by omega
  have hnext : rf.nextIndex server = ((m + 1 : Nat) : Int) := by omega
  have hget : GoSlice.get rf.log (rf.nextIndex server - 1) = some rf.log[m] := by
    rw [hm, GoSlice.get_natCast, List.getElem?_eq_getElem hlt]
  have hslice := GoSlice.sliceFrom_natCast rf.log (show m + 1 ≤ rf.log.length by omega)
  rw [← hnext] at hslice
  simp [spawnAppend, hlog.zero, sentinel, hget, hslice]

/-- Every heartbeat goes to another peer with a snapshot of the leader's log. -/
theorem sendHeartbeats_spec {me : Fin n} {inc : Nat} {rf : Raft n α}
    {calls : List (AppendCall n α)} (hlog : LogOk rf.log)
    (h : sendHeartbeats me inc rf = some calls) :
    ∀ c ∈ calls, c.leader = me ∧ c.server ≠ me ∧ c.args.term = rf.currentTerm ∧
      c.args.leaderCommit = rf.commitIndex ∧ c.wire = .unsent ∧
      Snapshot rf.log c := by
  intro c hc
  obtain ⟨i, hi, hic⟩ := GoSlice.mapM_mem h c hc
  obtain ⟨h1, rfl, h3⟩ := spawnAppend_spec hlog hic
  exact ⟨h1, by simpa using hi, h3⟩

theorem sendHeartbeats_isSome {me : Fin n} {inc : Nat} {rf : Raft n α}
    (hlog : LogOk rf.log)
    (h : ∀ i, i ≠ me → 1 ≤ rf.nextIndex i ∧ rf.nextIndex i ≤ rf.log.length) :
    ∃ calls, sendHeartbeats me inc rf = some calls := by
  apply GoSlice.mapM_isSome
  intro i hi
  have hne : i ≠ me := by simpa using hi
  exact spawnAppend_isSome hlog (h i hne).1 (h i hne).2

/-- The test of `AppendEntries` for an entry of a term at a position. -/
theorem missesTerm_eq (log : List (LogEntry α)) {outOfBounds : Bool} {k : Nat}
    (hout : outOfBounds = true ↔ log.length ≤ k) (term : Int) :
    missesTerm log outOfBounds k term =
      some (decide (log[k]?.map LogEntry.term ≠ some term)) := by
  unfold missesTerm
  split
  · rename_i h
    rw [List.getElem?_eq_none (hout.mp h)]
    rfl
  · rename_i h
    have hlt : k < log.length := Nat.lt_of_not_le fun hle => h (hout.mpr hle)
    rw [GoSlice.get_natCast, List.getElem?_eq_getElem hlt]
    simp

/-- The merge loop writes the entries over the log from their first index on. -/
theorem mergeEntries_eq_splice {log entries : List (LogEntry α)} (hlog : Consecutive 0 log)
    (hpos : 0 < log.length) {k : Nat} (hk : k ≤ log.length)
    (hentries : Consecutive k entries) :
    mergeEntries log entries = some (splice LogEntry.term log k entries) := by
  induction entries generalizing k with
  | nil => rfl
  | cons e rest ih =>
      have hbase : log[0]? = some log[0] := List.getElem?_eq_getElem hpos
      have hzero : log[0].index = 0 := hlog 0 _ hbase
      have hindex : e.index - log[0].index = (k : Int) := by
        rw [(consecutive_cons.mp hentries).1, hzero, Int.sub_zero]
      have hout : decide ((k : Int) ≥ log.length) = true ↔ log.length ≤ k := by simp
      simp only [mergeEntries, GoSlice.get_zero, hbase, Option.bind_eq_bind, Option.bind_some,
        hindex, missesTerm_eq log hout, decide_eq_true_eq]
      rw [splice]
      split
      · rename_i h
        have hterm : ¬ HasTerm LogEntry.term log k e := h
        rw [if_neg hterm, GoSlice.sliceTo_natCast log hk]
        rfl
      · rename_i h
        have hterm : HasTerm LogEntry.term log k e := Decidable.not_not.mp h
        rw [if_pos hterm]
        exact ih hterm.lt_length (consecutive_cons.mp hentries).2

/-- Where `AppendEntries` moves `commitIndex`, given the merged log's length. -/
def followerCommit (commitIndex leaderCommit : Int) (length : Nat) : Int :=
  if leaderCommit > commitIndex then min leaderCommit (length - 1) else commitIndex

/-- A peer that has taken the entries of a request, its log then being `log`. -/
def accepted (rf : Raft n α) (request : AppendEntriesArgs n α) (log : List (LogEntry α)) :
    Raft n α :=
  { rf with
    log := log
    commitIndex := followerCommit rf.commitIndex request.leaderCommit log.length
    hasCommittedChan :=
      if request.leaderCommit > rf.commitIndex then rf.hasCommittedChan + 1
      else rf.hasCommittedChan }

/-- The whole of `acceptEntries` on a request that continues at an index of its log: the
peer refuses it as it stands or takes the entries from that index on. -/
theorem acceptEntries_eq (rf : Raft n α) {request : AppendEntriesArgs n α} {p : Nat}
    (hlog : Consecutive 0 rf.log) (hpos : 0 < rf.log.length)
    (hp : request.prevLogIndex = p)
    (hentries : Consecutive (request.prevLogIndex + 1) request.entries) :
    rf.acceptEntries request =
      if Holds rf.log request.prevLogIndex request.prevLogTerm then
        some (rf.accepted request (splice LogEntry.term rf.log (p + 1) request.entries),
          ⟨rf.currentTerm, true⟩)
      else some (rf, ⟨rf.currentTerm, false⟩) := by
  have hbase : rf.log[0]? = some rf.log[0] := List.getElem?_eq_getElem hpos
  have hzero : rf.log[0].index = 0 := hlog 0 _ hbase
  have hout : decide ((p : Int) > (rf.log.length : Int) - 1) = true ↔ rf.log.length ≤ p := by
    rw [decide_eq_true_eq]
    omega
  have hstart : ¬ ((p : Int) < 0 - 1) := by omega
  simp only [acceptEntries, GoSlice.get_zero, hbase, hzero, Option.bind_eq_bind,
    Option.bind_some, hp, hstart, if_false, Int.sub_zero,
    lastLogIndex_of_consecutive rf hlog hpos, missesTerm_eq rf.log hout, holds_iff hlog,
    decide_eq_true_eq]
  by_cases hterm : rf.log[p]?.map LogEntry.term = some request.prevLogTerm
  · obtain ⟨x, hx, _⟩ := Option.map_eq_some_iff.mp hterm
    have hk : p + 1 ≤ rf.log.length := (List.getElem?_eq_some_iff.mp hx).1
    have hfrom : Consecutive ((p + 1 : Nat) : Int) request.entries := by
      rwa [hp] at hentries
    have hlog' : Consecutive 0 (splice LogEntry.term rf.log (p + 1) request.entries) :=
      splice_rule hlog (fun j e he => by rw [hfrom j e he]; omega) hk
    have hpos' : 0 < (splice LogEntry.term rf.log (p + 1) request.entries).length := by
      have := getElem?_splice_of_lt LogEntry.term request.entries hk (Nat.succ_pos p)
      rw [hbase] at this
      exact (List.getElem?_eq_some_iff.mp this).1
    have hlast := lastLogIndex_of_consecutive
      { rf with log := splice LogEntry.term rf.log (p + 1) request.entries } hlog' hpos'
    by_cases hcommit : request.leaderCommit > rf.commitIndex
    · simp [hterm, mergeEntries_eq_splice hlog hpos hk hfrom, hcommit, hlast, accepted,
        followerCommit, min_def_lt]
    · simp [hterm, mergeEntries_eq_splice hlog hpos hk hfrom, hcommit, accepted,
        followerCommit]
  · simp [hterm]

/-- On a snapshot of a log that matches its own, a peer refuses and changes
nothing, or ends with a log that starts with the snapshot's log. -/
theorem acceptEntries_spec (rf : Raft n α) {c : AppendCall n α} {l : List (LogEntry α)}
    (hf : LogOk rf.log) (hl : LogOk l) (hm : Matches rf.log l) (hc : Snapshot l c) :
    ∃ rf' response, rf.acceptEntries c.args = some (rf', response) ∧
      ((response.success = false ∧ rf' = rf) ∨
        (response.success = true ∧ ∃ log chan,
          ((l <+: rf.log ∧ log = rf.log) ∨ (¬ l <+: rf.log ∧ log = l)) ∧
            rf' = { rf with
              log := log, hasCommittedChan := chan
              commitIndex :=
                followerCommit rf.commitIndex c.args.leaderCommit log.length })) := by
  obtain ⟨p, x, hp, hx, ht, he⟩ := hc.prev
  have hpl : p < l.length := (List.getElem?_eq_some_iff.mp hx).1
  have hentries : Consecutive (c.args.prevLogIndex + 1) c.args.entries := by
    rw [hp, he]
    exact hl.consecutive.drop_succ p
  rw [acceptEntries_eq rf hf.consecutive hf.length_pos hp hentries, he]
  split
  · rename_i hheld
    rw [hp, ht, holds_iff hf.consecutive] at hheld
    obtain ⟨y, hy, hterm⟩ := Option.map_eq_some_iff.mp hheld
    exact ⟨_, _, rfl, Or.inr ⟨rfl, _, _, splice_drop hm hpl (hm p y x hy hx hterm), rfl⟩⟩
  · exact ⟨rf, _, rfl, Or.inl ⟨rfl, rfl⟩⟩

end Raft
end RaftLab
