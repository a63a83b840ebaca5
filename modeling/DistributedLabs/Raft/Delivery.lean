import DistributedLabs.Raft.Applier
import DistributedLabs.Raft.Refinement

/-!
What the applier loop delivers. An entry reaches `applyCh` only by way of the
slice that `applyEntries` takes of the log, so a property of the entries in that
slice is one of every message. Here the property is that a call of `Start`
returned the entry's index and term; no two calls return the same pair.
-/

namespace RaftLab

open TermLog

variable {n : Nat} {α : Type}

/-- One event, as the applier of a peer sees it. -/
inductive ApplierStep (rf rf' : Raft n α) : Prop
  | idle : rf'.applier = rf.applier → rf'.applyCh = rf.applyCh →
      rf'.lastApplied = rf.lastApplied → ApplierStep rf rf'
  | lock : rf.applyLock = some rf' → ApplierStep rf rf'
  | receive : rf'.applier = .top → rf'.applyCh = rf.applyCh →
      rf'.lastApplied = rf.lastApplied → ApplierStep rf rf'
  | send (entries : List (LogEntry α)) : rf.applier = .sending entries →
      rf' = rf.applySend entries → ApplierStep rf rf'

theorem effect_applier {s s' : System n α} {e : Event n α} (h : s.Effect e s')
    (hr : NoRestart s e) (i : Fin n) : ApplierStep (s.rafts i) (s'.rafts i) := by
  have hne : e ≠ .restart i := by
    intro he
    subst he
    exact hr
  have hstep := effect_indexStep h hne
  generalize s'.rafts i = rf' at hstep ⊢
  cases hstep with
  | silent h => exact .idle h.applier h.applyCh h.lastApplied
  | appendEntries _ _ h =>
      have hstep := Raft.appendEntries_handlerStep h
      exact .idle hstep.applier hstep.applyCh hstep.lastApplied
  | appendReply _ _ h =>
      have hstep := Raft.respAppendEntries_handlerStep h
      exact .idle hstep.applier hstep.applyCh hstep.lastApplied
  | lock _ h => exact .lock h
  | receive _ => exact .receive rfl rfl rfl
  | send hs => exact .send _ hs rfl

/-- Everything the peer has delivered or is about to is an entry with `P`. -/
structure Delivers (P : LogEntry α → Prop) (rf : Raft n α) : Prop where
  pending : ∀ entries, rf.applier = .sending entries → ∀ e ∈ entries, P e
  applied : ∀ m ∈ rf.applyCh, ∃ e, P e ∧ m = ⟨true, e.command, e.index, e.term⟩

theorem Delivers.make {P : LogEntry α → Prop} : Delivers P (Raft.make (n := n) none) where
  pending := by
    intro entries h
    cases h
  applied := by
    intro m hm
    cases hm

theorem Delivers.mono {P P' : LogEntry α → Prop} {rf : Raft n α} (h : Delivers P rf)
    (hP : ∀ e, P e → P' e) : Delivers P' rf where
  pending := fun entries hs e he => hP e (h.pending entries hs e he)
  applied := by
    intro m hm
    obtain ⟨e, he, hme⟩ := h.applied m hm
    exact ⟨e, hP e he, hme⟩

theorem Delivers.step {P P' : LogEntry α → Prop} {rf rf' : Raft n α}
    (h : Delivers P rf) (hP : ∀ e, P e → P' e) (hstep : ApplierStep rf rf')
    (hlock : rf.applyLock = some rf' → ∀ entries, rf'.applier = .sending entries →
      ∀ e ∈ entries, P' e) : Delivers P' rf' := by
  have applied := (h.mono hP).applied
  cases hstep with
  | idle happlier hch _ =>
      refine ⟨?_, by rwa [hch]⟩
      intro entries hs e he
      rw [happlier] at hs
      exact hP e (h.pending entries hs e he)
  | lock hl =>
      refine ⟨hlock hl, ?_⟩
      rcases Raft.applyLock_cases hl with ⟨_, rfl⟩ | ⟨_, _, _, _, _, rfl⟩ <;> exact applied
  | receive htop hch _ =>
      refine ⟨?_, by rwa [hch]⟩
      intro entries hs
      rw [htop] at hs
      cases hs
  | send entries hs hsend =>
      subst hsend
      have hpending := h.pending entries hs
      cases entries with
      | nil =>
          refine ⟨?_, applied⟩
          intro entries hs
          cases hs
      | cons e rest =>
          refine ⟨?_, ?_⟩
          · intro entries hs x hx
            cases hs
            exact hP x (hpending x (List.mem_cons_of_mem _ hx))
          · intro m hm
            rcases List.mem_append.mp hm with hm | hm
            · exact applied m hm
            · exact ⟨e, hP e (hpending e List.mem_cons_self), List.mem_singleton.mp hm⟩

/-- The entries `applyEntries` takes lie behind `lastApplied` and up to
`commitIndex`. -/
theorem applyLock_entries {rf rf' : Raft n α} (hlog : LogOk rf.log)
    (h : rf.applyLock = some rf') {entries : List (LogEntry α)}
    (hs : rf'.applier = .sending entries) {e : LogEntry α} (he : e ∈ entries) :
    ∃ k : Nat, rf.lastApplied < k ∧ (k : Int) ≤ rf.commitIndex ∧ rf.log[k]? = some e := by
  rcases Raft.applyLock_cases h with ⟨_, rfl⟩ | ⟨_, base, es, hb, hslice, rfl⟩
  · cases hs
  · cases hs
    rw [hlog.zero] at hb
    obtain rfl := Option.some.inj hb
    obtain ⟨j, hj⟩ := List.mem_iff_getElem?.mp he
    obtain ⟨k, hk, hlt, hke⟩ := GoSlice.slice_getElem hslice hj
    simp only [sentinel] at hk hlt
    exact ⟨k, by omega, by omega, hke⟩

theorem lastApplied_nonneg_step {rf rf' : Raft n α} (hstep : ApplierStep rf rf')
    (h : 0 ≤ rf.lastApplied) : 0 ≤ rf'.lastApplied := by
  cases hstep with
  | idle _ _ hl | receive _ _ hl => rwa [hl]
  | lock hl =>
      rcases Raft.applyLock_cases hl with ⟨_, rfl⟩ | ⟨hlt, _, _, _, _, rfl⟩
      · exact h
      · exact Int.le_of_lt (Int.lt_of_le_of_lt h hlt)
  | send entries _ hsend =>
      subst hsend
      cases entries <;> exact h

/-- A call of `Start` put the entry into a log. -/
def Started (s : System n α) (e : LogEntry α) : Prop := ∃ r ∈ s.starts, r.Made e

theorem effect_starts {s s' : System n α} {e : Event n α} (h : s.Effect e s') :
    ∀ r ∈ s.starts, r ∈ s'.starts := by
  intro r hr
  cases h <;> first | exact hr | exact List.mem_append_left _ hr

theorem lastApplied_nonneg {h : List (System n α)} (run : (cluster n α).Run NoRestart h)
    {s : System n α} (hs : s ∈ h) (i : Fin n) : 0 ≤ (s.rafts i).lastApplied := by
  refine Machine.Run.invariant
    (I := fun s : System n α => ∀ i, 0 ≤ (s.rafts i).lastApplied) ?_ ?_ run s hs i
  · exact fun _ => Int.le_refl 0
  · intro s e s' hs hr hstep i
    exact lastApplied_nonneg_step (effect_applier (System.step_effect hstep) hr i) (hs i)

/-- Every peer delivers only entries that a call of `Start` made. -/
theorem delivers_started {s : System n α} {h : List (System n α)}
    (run : (cluster n α).Run NoRestart (s :: h)) :
    ∀ i, Delivers (Started s) (s.rafts i) := by
  refine History.head_induction
    (P := fun s _ => ∀ i, Delivers (Started s) (s.rafts i)) ?_ ?_ run
  · exact fun i => Delivers.make
  · intro s s' h run ih hnext i
    obtain ⟨e, hr, hstep⟩ := (cluster n α).next_cons.mp hnext
    obtain ⟨a, H, sim, _⟩ := run_refines run
    have heffect := System.step_effect hstep
    have hkept : ∀ x, Started s x → Started s' x := by
      rintro x ⟨r, hr, hm⟩
      exact ⟨r, effect_starts heffect r hr, hm⟩
    refine (ih i).step hkept (effect_applier heffect hr i) ?_
    intro hl entries hs x hx
    obtain ⟨k, hk, _, hkx⟩ := applyLock_entries (sim.logOk i) hl hs hx
    have hpos := lastApplied_nonneg run List.mem_cons_self i
    rcases (sim.logs _ (sim.seen i)).2 k x hkx with h0 | hborn
    · omega
    · exact hkept x hborn

/-- No two calls of `Start` that found a leader return the same index and term, and
every message on an `applyCh` has the command of the one call that returned its
index and term. -/
theorem start_integrity {h : List (System n α)} (run : (cluster n α).Run NoRestart h)
    {s : System n α} (hs : s ∈ h) :
    (∀ (j k : Nat) (r q : StartReturn n α),
      s.starts[j]? = some r → s.starts[k]? = some q →
      r.isLeader = true → q.isLeader = true → r.index = q.index → r.term = q.term →
      j = k) ∧
    ∀ i, ∀ m ∈ (s.rafts i).applyCh, ∃ (k : Nat) (r : StartReturn n α),
      s.starts[k]? = some r ∧ r.isLeader = true ∧ r.index = m.commandIndex ∧
      r.term = m.commandTerm ∧ r.command = m.command := by
  obtain ⟨h', run', _⟩ := run.exists_upTo hs
  obtain ⟨a, H, sim, _⟩ := run_refines run'
  refine ⟨?_, ?_⟩
  · intro j k r q hj hk hr hq hindex hterm
    have apart : ∀ {j k : Nat} {r q : StartReturn n α}, j < k →
        s.starts[j]? = some r → s.starts[k]? = some q → r.Apart q := by
      intro j k r q hjk hj hk
      obtain ⟨hj', rfl⟩ := List.getElem?_eq_some_iff.mp hj
      obtain ⟨hk', rfl⟩ := List.getElem?_eq_some_iff.mp hk
      exact List.pairwise_iff_getElem.mp sim.apart j k hj' hk' hjk
    rcases Nat.lt_trichotomy j k with hlt | heq | hgt
    · exact absurd ⟨hindex, hterm⟩ (apart hlt hj hk hr hq)
    · exact heq
    · exact absurd ⟨hindex.symm, hterm.symm⟩ (apart hgt hk hj hq hr)
  · intro i m hm
    obtain ⟨e, ⟨r, hr, hleader, hcommand, hindex, hterm⟩, rfl⟩ :=
      (delivers_started run' i).applied m hm
    obtain ⟨k, hk⟩ := List.mem_iff_getElem?.mp hr
    exact ⟨k, r, hk, hleader, hindex, hterm, hcommand⟩

theorem start_integrity_first_command :
    ∃ h, (cluster 3 Nat).Run NoRestart h ∧ ∃ s ∈ h,
      ⟨true, some 7, 1, 1⟩ ∈ (s.rafts 0).applyCh ∧
      ∃ (k : Nat) (r : StartReturn 3 Nat), s.starts[k]? = some r ∧ r.isLeader = true ∧
        r.index = 1 ∧ r.term = 1 ∧ r.command = some 7 := by
  obtain ⟨h, run, s, hs, hm⟩ :=
    (cluster 3 Nat).exists_run_of_replay NoRestart
      (firstElection ++ [.start 0 (some 7), .handleAppend 2, .appendEntries 2,
        .appendReply 2, .applyLock 0, .applySend 0])
      (fun h => ∃ s ∈ h, ⟨true, some 7, 1, 1⟩ ∈ (s.rafts 0).applyCh)
      (by decide +kernel)
  exact ⟨h, run, s, hs, hm, (start_integrity run hs).2 0 _ hm⟩

end RaftLab
