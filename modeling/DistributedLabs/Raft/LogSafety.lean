import DistributedLabs.Raft.Refinement
import DistributedLabs.Library.TermLogCompleteness

/-!
Election safety, log matching and leader completeness of the cluster. Each is
the abstract property, read at the views of the states of a run.
-/

namespace RaftLab

open TermLog

variable {n : Nat} {α : Type} {h : List (System n α)} {s t : System n α}

/-- An abstract history through the views of all states of a run. -/
theorem exists_history (run : (cluster n α).Run NoRestart h) :
    ∃ a H, Run genesis (a :: H) ∧
      (∀ l, Seen (a :: H) l → LogOk l) ∧
      ∀ t ∈ h, ∃ b ∈ a :: H, ∀ i, b.node i = view (t.rafts i) := by
  obtain ⟨s, h, rfl⟩ := run.exists_head
  obtain ⟨a, H, sim, hpoints⟩ := run_refines run
  exact ⟨a, H, sim.run, fun l hl => (sim.logs l hl).1, hpoints⟩

section Points

variable {K : List (Abstract n α)}
  (hpoints : ∀ t ∈ h, ∃ b ∈ K, ∀ i, b.node i = view (t.rafts i))
include hpoints

theorem led_of_point (hs : s ∈ h) {i : Fin n} (hi : (s.rafts i).state = .leader) :
    Led K i (s.rafts i).currentTerm (s.rafts i).log := by
  obtain ⟨b, hb, hnode⟩ := hpoints s hs
  exact ⟨b, hb, by simp [hnode, view, hi]⟩

theorem seen_of_point (hs : s ∈ h) (i : Fin n) : Seen K (s.rafts i).log := by
  obtain ⟨b, hb, hnode⟩ := hpoints s hs
  exact ⟨b, hb, i, by simp [hnode, view]⟩

theorem held_of_point (hs : s ∈ h) {i : Fin n} {k : Nat} {e : LogEntry α}
    (he : (s.rafts i).log[k]? = some e) : Held K i (s.rafts i).currentTerm k e := by
  obtain ⟨b, hb, hnode⟩ := hpoints s hs
  exact ⟨b, hb, by simp [hnode, view, he]⟩

end Points

/-- Two leaders of one term, at any two points of a run, are the same peer. -/
theorem election_safety (run : (cluster n α).Run NoRestart h) (hs : s ∈ h) (ht : t ∈ h)
    {i j : Fin n} (hi : (s.rafts i).state = .leader) (hj : (t.rafts j).state = .leader)
    (hterm : (s.rafts i).currentTerm = (t.rafts j).currentTerm) : i = j := by
  obtain ⟨a, H, hrun, _, hpoints⟩ := exists_history run
  have hled := led_of_point hpoints hs hi
  rw [hterm] at hled
  exact hrun.led_unique hled (led_of_point hpoints ht hj)

theorem election_safety_first_term :
    ∃ h, (cluster 3 Nat).Run NoRestart h ∧ ∃ s ∈ h, (s.rafts 0).state = .leader ∧
      (s.rafts 0).currentTerm = 1 ∧
      ∀ t ∈ h, ∀ j, (t.rafts j).state = .leader → (t.rafts j).currentTerm = 1 → j = 0 := by
  obtain ⟨h, run, s, hs, hl, hterm⟩ :=
    (cluster 3 Nat).exists_run_of_replay NoRestart firstElection
      (fun h => ∃ s ∈ h, (s.rafts 0).state = .leader ∧ (s.rafts 0).currentTerm = 1)
      (by decide +kernel)
  refine ⟨h, run, s, hs, hl, hterm, ?_⟩
  intro t ht j hj htj
  exact election_safety run ht hs hj hl (by rw [htj, hterm])

/-- In every state of a run, logs with entries of one term at one position agree up
to it; each log starts with the sentinel, holds index `k` at position `k`, and its
terms never decrease and never exceed the peer's term. -/
theorem logs_match (run : (cluster n α).Run NoRestart h) (hs : s ∈ h) :
    (∀ (i j : Fin n) (k : Nat) (x y : LogEntry α),
      (s.rafts i).log[k]? = some x → (s.rafts j).log[k]? = some y → x.term = y.term →
      (s.rafts i).log.take (k + 1) = (s.rafts j).log.take (k + 1)) ∧
    ∀ i, (s.rafts i).log[0]? = some sentinel ∧
      (∀ (k : Nat) (e : LogEntry α), (s.rafts i).log[k]? = some e → e.index = k) ∧
      (s.rafts i).log.Pairwise (fun x y => x.term ≤ y.term) ∧
      ∀ e ∈ (s.rafts i).log, e.term ≤ (s.rafts i).currentTerm := by
  obtain ⟨a, H, hrun, hlogs, hpoints⟩ := exists_history run
  refine ⟨?_, ?_⟩
  · intro i j k x y hx hy hxy
    exact hrun.log_matching (seen_of_point hpoints hs i) (seen_of_point hpoints hs j)
      hx hy hxy
  · intro i
    have hok := hlogs _ (seen_of_point hpoints hs i)
    obtain ⟨b, hb, hnode⟩ := hpoints s hs
    have hsorted := hrun.sorted hb i
    rw [hnode] at hsorted
    exact ⟨hok.zero, hok.index, hsorted⟩

theorem logs_match_first_term :
    ∃ h, (cluster 3 Nat).Run NoRestart h ∧ ∃ s ∈ h,
      (s.rafts 0).log[1]? = some ⟨1, some 7, 1⟩ ∧
      (s.rafts 1).log[1]? = some ⟨1, some 7, 1⟩ ∧
      (s.rafts 0).log.take 2 = (s.rafts 1).log.take 2 := by
  obtain ⟨h, run, s, hs, h0, h1⟩ :=
    (cluster 3 Nat).exists_run_of_replay NoRestart
      (firstElection ++ [.start 0 (some 7), .handleAppend 2, .appendEntries 2])
      (fun h => ∃ s ∈ h, (s.rafts 0).log[1]? = some ⟨1, some 7, 1⟩ ∧
        (s.rafts 1).log[1]? = some ⟨1, some 7, 1⟩)
      (by decide +kernel)
  exact ⟨h, run, s, hs, h0, h1, (logs_match run hs).1 0 1 1 _ _ h0 h1 rfl⟩

/-- An entry that each peer of a majority held in the entry's term, at whatever
time, is in the log of every leader of a later term. -/
theorem leaders_hold_replicated (run : (cluster n α).Run NoRestart h)
    {Q : Finset (Fin n)} (hQ : n < 2 * Q.card) {e : LogEntry α} {k : Nat}
    (held : ∀ v ∈ Q, ∃ s ∈ h, (s.rafts v).currentTerm = e.term ∧
      (s.rafts v).log[k]? = some e)
    (ht : t ∈ h) {u : Fin n} (hu : (t.rafts u).state = .leader)
    (hlater : e.term < (t.rafts u).currentTerm) :
    (t.rafts u).log[k]? = some e := by
  obtain ⟨a, H, hrun, _, hpoints⟩ := exists_history run
  have hchosen : Chosen genesis (a :: H) k e := by
    refine ⟨Q, by rwa [Majority.IsMajority, Fintype.card_fin], ?_⟩
    intro v hv
    obtain ⟨s, hs, hterm, he⟩ := held v hv
    have hheld := held_of_point hpoints hs he
    rwa [hterm] at hheld
  exact hrun.leader_completeness hchosen hlater (led_of_point hpoints ht hu)

theorem leaders_hold_replicated_second_term :
    ∃ h, (cluster 3 Nat).Run NoRestart h ∧ ∃ t ∈ h, (t.rafts 1).state = .leader ∧
      (t.rafts 1).currentTerm = 2 ∧
      (t.rafts 1).log[1]? = some ⟨1, some 7, 1⟩ := by
  obtain ⟨h, run, held, t, ht, hl, hterm⟩ :=
    (cluster 3 Nat).exists_run_of_replay NoRestart
      (firstElection ++ [.start 0 (some 7), .handleAppend 2, .appendEntries 2,
        .electionTick 1, .requestVote 1 2, .voteReply 1 2])
      (fun h => (∀ v ∈ ({0, 1} : Finset (Fin 3)), ∃ s ∈ h,
          (s.rafts v).currentTerm = 1 ∧ (s.rafts v).log[1]? = some ⟨1, some 7, 1⟩) ∧
        ∃ t ∈ h, (t.rafts 1).state = .leader ∧ (t.rafts 1).currentTerm = 2)
      (by decide +kernel)
  refine ⟨h, run, t, ht, hl, hterm, ?_⟩
  exact leaders_hold_replicated run (Q := {0, 1}) (by decide) held ht hl
    (by rw [hterm]; decide)

end RaftLab
