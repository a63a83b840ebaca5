import DistributedLabs.Raft.Acknowledgement
import DistributedLabs.Raft.LogSafety
import DistributedLabs.Raft.Merge

/-!
Requests that arrive late, twice or out of order. The requests of a term carry tails of one
leader's log at different times, which are prefixes of one another, and every log of a run
matches them; so the merge never takes back what a peer has of them.
-/

namespace RaftLab

open TermLog

variable {n : Nat} {α : Type} {h : List (System n α)} {s t : System n α}

/-- The log holds everything that the request carries. -/
structure AppendEntriesArgs.Absorbed (request : AppendEntriesArgs n α)
    (log : List (LogEntry α)) : Prop where
  prev : Holds log request.prevLogIndex request.prevLogTerm
  entries : ∀ e ∈ request.entries, Holds log e.index e.term

/-- A log that matches the leader's and holds what a tail of it carries starts with it. -/
theorem AppendEntriesArgs.Absorbed.isPrefix {request : AppendEntriesArgs n α}
    {rf : Raft n α} {l : List (LogEntry α)} (habs : request.Absorbed rf.log)
    (hfits : Fits rf request) (hc : request.Carries l) (hm : Matches rf.log l) :
    l <+: rf.log := by
  have hmerge : request.merge rf.log = rf.log :=
    (splice_merged hfits.log hfits.entries_natCast).known habs.entries
  have hpre := hc.isPrefix_merge hfits.log hm habs.prev
  rwa [hmerge] at hpre

/-- What a peer has absorbed of a request, at any point of a run and by whatever requests,
it keeps while it stays in the request's term: whenever the request is delivered, it is
accepted and the log stays as it is. -/
theorem absorbed_request_changes_nothing (run : (cluster n α).Run NoRestart (s :: h))
    (ht : t ∈ s :: h) {c : AppendCall n α} (hc : c ∈ s.appends)
    (hpast : (t.rafts c.server).currentTerm = c.args.term)
    (hnow : (s.rafts c.server).currentTerm = c.args.term)
    (habs : c.args.Absorbed (t.rafts c.server).log) :
    ∃ rf', (s.rafts c.server).appendEntries c.args = some (rf', ⟨c.args.term, true⟩) ∧
      rf'.log = (s.rafts c.server).log := by
  obtain ⟨a, H, sim, hpoints⟩ := run_refines run
  obtain ⟨l, ok⟩ := sim.appends c hc
  have hcarries : c.args.Carries l := ok.snapshot.prev
  have hseen := seen_of_point hpoints ht c.server
  -- the log of `t` starts with the leader's log of the request …
  have hlogs := (sim.logs _ hseen).1.consecutive
  have hfits : Fits (t.rafts c.server) c.args :=
    hcarries.fits (sim.logs l ok.led.seen).1.consecutive hlogs hpast.le
  have hthen : l <+: (t.rafts c.server).log :=
    habs.isPrefix hfits hcarries (sim.matches_seen hseen ok.led.seen)
  -- … and so does every later log of the same term
  have hstill : l <+: (s.rafts c.server).log := by
    obtain ⟨b, hb, hnode⟩ := hpoints t ht
    refine sim.led_kept ok.led ⟨b, hb, ?_⟩ hnow
    rw [hnode]
    exact ⟨hpast, hthen⟩
  obtain ⟨rf', response, hr, hsame, hresponse⟩ :=
    hcarries.appendEntries_known (sim.logOk c.server).consecutive hstill
  rw [hresponse hnow.le] at hr
  exact ⟨rf', hr, hsame⟩

end RaftLab
