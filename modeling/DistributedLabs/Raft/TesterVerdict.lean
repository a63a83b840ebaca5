import DistributedLabs.Raft.Tester
import DistributedLabs.Raft.Commitment

/-!
What the appliers report. They stop the process if and only if two of the messages that
they have taken have one index and different commands, across restarts and in any
interleaving; the order of the messages never is the reason, since every channel carries
the indices 1, 2, 3, ... from the start of its incarnation on.
-/

namespace RaftLab

variable {n : Nat} {α : Type}

/-- The messages carry the indices 1, 2, 3, ... -/
def Numbered (l : List (ApplyMsg α)) : Prop :=
  ∀ (j : Nat) (m : ApplyMsg α), l[j]? = some m → m.commandValid = true ∧ m.commandIndex = j + 1

theorem Numbered.of_isPrefix {l l' : List (ApplyMsg α)} (h : Numbered l') (hp : l <+: l') :
    Numbered l := by
  intro j m hj
  apply h
  exact TermLog.getElem?_of_isPrefix hp hj

theorem IndexStep.applyCh_cases {s : System n α} {i : Fin n} {e : Event n α} {rf' : Raft n α}
    (h : IndexStep s i e rf') : rf'.applyCh = (s.rafts i).applyCh ∨
      ∃ entry : LogEntry α, rf'.applyCh = (s.rafts i).applyCh ++ [entry.message] := by
  cases h with
  | silent h => exact Or.inl h.applyCh
  | appendEntries _ _ h => exact Or.inl (Raft.appendEntries_handlerStep h).applyCh
  | appendReply _ _ h => exact Or.inl (Raft.respAppendEntries_handlerStep h).applyCh
  | lock _ h =>
      rcases Raft.applyLock_cases h with ⟨_, rfl⟩ | ⟨_, _, _, _, _, rfl⟩
      · exact Or.inl rfl
      · exact Or.inl rfl
  | receive _ => exact Or.inl rfl
  | @send entries _ =>
      cases entries with
      | nil => exact Or.inl rfl
      | cons entry rest => exact Or.inr ⟨entry, rfl⟩

/-- An event takes a step of the peer or puts a new incarnation in its place. -/
theorem effect_peer {s s' : System n α} {e : Event n α} (h : s.Effect e s') (i : Fin n) :
    (e ≠ .restart i ∧ IndexStep s i e (s'.rafts i)) ∨
      (e = .restart i ∧ ∃ p, s'.rafts i = Raft.make p) := by
  by_cases hr : e = .restart i
  · subst hr
    refine Or.inr ⟨rfl, ?_⟩
    cases h with
    | panic hp => cases hp
    | restart => exact ⟨_, Function.update_self _ _ _⟩
  · exact Or.inl ⟨hr, effect_indexStep h hr⟩

theorem Raft.make_applyCh (p : Option (Persisted n α)) : (Raft.make p).applyCh = [] := by
  cases p <;> rfl

theorem prefix_of_step {s s' : System n α} {e : Event n α} {i : Fin n}
    (hs : s.step e = some s') (hr : e ≠ .restart i) :
    (s.rafts i).applyCh <+: (s'.rafts i).applyCh := by
  cases (effect_indexStep (System.step_effect hs) hr).applyCh_cases with
  | inl heq => rw [heq]
  | inr happend =>
      obtain ⟨entry, happend⟩ := happend
      rw [happend]
      exact List.prefix_append _ _

/-- What the applier loops of the peers have put on their channels is in order. -/
structure Fed (sys : System n α) : Prop where
  bounds : Bounds sys
  paced : ∀ i, (sys.rafts i).Paced
  valid : ∀ i, ∀ m ∈ (sys.rafts i).applyCh, m.commandValid = true

namespace Fed

variable {sys sys' : System n α}

theorem init : Fed (System.init : System n α) where
  bounds := Bounds.init
  paced := fun _ => Raft.Paced.make none
  valid := by
    intro i m hm
    cases hm

theorem step (h : Fed sys) {e : Event n α} (hs : sys.step e = some sys') : Fed sys' := by
  have heffect := System.step_effect hs
  refine ⟨h.bounds.effect heffect, ?_, ?_⟩
  · intro i
    cases effect_peer heffect i with
    | inl hstep => exact hstep.2.paced h.bounds (h.paced i)
    | inr hnew =>
        obtain ⟨_, p, hp⟩ := hnew
        rw [hp]
        exact Raft.Paced.make p
  · intro i m hm
    cases effect_peer heffect i with
    | inl hstep =>
        cases hstep.2.applyCh_cases with
        | inl heq =>
            rw [heq] at hm
            exact h.valid i m hm
        | inr happend =>
            obtain ⟨entry, happend⟩ := happend
            rw [happend] at hm
            cases List.mem_append.mp hm with
            | inl hold => exact h.valid i m hold
            | inr hnew =>
                obtain rfl := List.mem_singleton.mp hnew
                rfl
    | inr hnew =>
        obtain ⟨_, p, hp⟩ := hnew
        rw [hp, Raft.make_applyCh] at hm
        cases hm

theorem numbered_outbox (h : Fed sys) (i : Fin n) : Numbered (sys.rafts i).outbox := by
  intro j m hj
  rw [Raft.outbox] at hj
  by_cases hlt : j < (sys.rafts i).applyCh.length
  · rw [List.getElem?_append_left hlt] at hj
    exact ⟨h.valid i m (List.mem_of_getElem? hj), (h.paced i).sent j m hj⟩
  · rw [List.getElem?_append_right (Nat.le_of_not_lt hlt), List.getElem?_map] at hj
    obtain ⟨entry, hentry, rfl⟩ := Option.map_eq_some_iff.mp hj
    refine ⟨rfl, ?_⟩
    have hindex := (h.paced i).next _ entry hentry
    change entry.index = j + 1
    omega

theorem numbered_applyCh (h : Fed sys) (i : Fin n) : Numbered (sys.rafts i).applyCh :=
  (h.numbered_outbox i).of_isPrefix (List.prefix_append _ _)

end Fed

/-- Messages with one index carry one command. -/
def Agree (received : List (Fin n × ApplyMsg α)) : Prop :=
  ∀ x ∈ received, ∀ y ∈ received,
    x.2.commandIndex = y.2.commandIndex → x.2.command = y.2.command

theorem Agree.cons {received : List (Fin n × ApplyMsg α)} (h : Agree received)
    {i : Fin n} {m : ApplyMsg α}
    (hold : ∀ x ∈ received, x.2.commandIndex = m.commandIndex → x.2.command = m.command) :
    Agree ((i, m) :: received) := by
  intro x hx y hy hindex
  cases hx with
  | head =>
      cases hy with
      | head => rfl
      | tail _ hy => exact (hold y hy hindex.symm).symm
  | tail _ hx =>
      cases hy with
      | head => exact hold x hx hindex
      | tail _ hy => exact h x hx y hy hindex

/-- The error reports two of the messages, which have one index and different commands. -/
inductive Names (received : List (Fin n × ApplyMsg α)) : ApplyErr n α → Prop
  | commit {i j : Fin n} {m m' : ApplyMsg α} : (i, m) ∈ received → (j, m') ∈ received →
      m'.commandIndex = m.commandIndex → m'.command ≠ m.command →
      Names received (.commit m.commandIndex i m.command j m'.command)

theorem Names.mono {received received' : List (Fin n × ApplyMsg α)} {e : ApplyErr n α}
    (h : Names received e) (hsub : ∀ x ∈ received, x ∈ received') : Names received' e := by
  cases h with
  | commit hm hm' hindex hne => exact .commit (hsub _ hm) (hsub _ hm') hindex hne

theorem Names.not_agree {received : List (Fin n × ApplyMsg α)} {e : ApplyErr n α}
    (h : Names received e) : ¬ Agree received := by
  cases h with
  | commit hm hm' hindex hne =>
      intro hagree
      exact hne (hagree _ hm' _ hm hindex)

namespace Tester

theorem record_apply (logs : Fin n → Int → Option (Option α)) (i j : Fin n) (m : ApplyMsg α)
    (index : Int) : record logs i m j index =
      if j = i ∧ index = m.commandIndex then some m.command else logs j index := by
  unfold record
  by_cases hj : j = i
  · subst hj
    by_cases hi : index = m.commandIndex
    · simp [hi]
    · simp [hi]
  · simp [hj]

variable [DecidableEq α] {cfg : Tester n α} {i : Fin n} {m : ApplyMsg α}

theorem foldl_compare_none {l : List (Fin n)} {err : Option (ApplyErr n α)}
    (h : l.foldl (cfg.compare i m) err = none) : err = none ∧
      ∀ j ∈ l, ∀ old, cfg.logs j m.commandIndex = some old → old = m.command := by
  induction l generalizing err with
  | nil => exact ⟨h, by simp⟩
  | cons j l ih =>
      obtain ⟨herr, hl⟩ := ih h
      unfold compare at herr
      cases hj : cfg.logs j m.commandIndex with
      | none =>
          rw [hj] at herr
          refine ⟨herr, ?_⟩
          intro j' hj' old hold
          cases hj' with
          | head => rw [hj] at hold; cases hold
          | tail _ hj' => exact hl j' hj' old hold
      | some old =>
          rw [hj] at herr
          simp only [ne_eq, ite_not] at herr
          split at herr
          · rename_i heq
            refine ⟨herr, ?_⟩
            intro j' hj' old' hold
            cases hj' with
            | head =>
                rw [hj] at hold
                cases hold
                exact heq
            | tail _ hj' => exact hl j' hj' old' hold
          · cases herr

theorem foldl_compare_some {l : List (Fin n)} {err : Option (ApplyErr n α)}
    {e : ApplyErr n α} (h : l.foldl (cfg.compare i m) err = some e) : err = some e ∨
      ∃ j old, cfg.logs j m.commandIndex = some old ∧ old ≠ m.command ∧
        e = .commit m.commandIndex i m.command j old := by
  induction l generalizing err with
  | nil => exact Or.inl h
  | cons j l ih =>
      cases ih h with
      | inr hlater => exact Or.inr hlater
      | inl herr =>
          unfold compare at herr
          cases hj : cfg.logs j m.commandIndex with
          | none =>
              rw [hj] at herr
              exact Or.inl herr
          | some old =>
              rw [hj] at herr
              simp only at herr
              split at herr
              · rename_i hne
                cases herr
                exact Or.inr ⟨j, old, hj, hne, rfl⟩
              · exact Or.inl herr

/-- A message whose predecessor has been recorded is only compared with the copies. -/
theorem applier_eq (hvalid : m.commandValid = true)
    (hprev : m.commandIndex > 1 → (cfg.logs i (m.commandIndex - 1)).isSome = true) :
    (cfg.applier i m).1.logs = record cfg.logs i m ∧
      (cfg.applier i m).2 = (List.finRange n).foldl (cfg.compare i m) none := by
  unfold applier
  rw [if_neg (by simp [hvalid])]
  refine ⟨rfl, if_neg ?_⟩
  rintro ⟨hindex, hfalse⟩
  rw [checkLogs, hprev hindex] at hfalse
  cases hfalse

end Tester

/-- An applier has taken the messages of its channel in their order. -/
structure Reader.Ok (chan : List (ApplyMsg α)) (received : List (Fin n × ApplyMsg α))
    (r : Reader n α) : Prop where
  numbered : Numbered chan
  taken : ∀ j < r.taken, ∃ m, chan[j]? = some m ∧ (r.server, m) ∈ received
  named : ∀ e, r.err_msg = some e → Names received e

theorem Reader.Ok.grow {chan chan' : List (ApplyMsg α)}
    {received received' : List (Fin n × ApplyMsg α)} {r : Reader n α}
    (h : r.Ok chan received) (hnumbered : Numbered chan') (hchan : chan <+: chan')
    (hsub : ∀ x ∈ received, x ∈ received') : r.Ok chan' received' where
  numbered := hnumbered
  taken := by
    intro j hj
    obtain ⟨m, hm, hmem⟩ := h.taken j hj
    exact ⟨m, TermLog.getElem?_of_isPrefix hchan hm, hsub _ hmem⟩
  named := fun e he => (h.named e he).mono hsub

/-- The copies of the logs hold what the appliers have taken. -/
structure Copied (logs : Fin n → Int → Option (Option α))
    (received : List (Fin n × ApplyMsg α)) : Prop where
  logged : ∀ i index c, logs i index = some c →
    ∃ m, (i, m) ∈ received ∧ m.commandIndex = index ∧ m.command = c
  present : ∀ i m, (i, m) ∈ received → ∃ c, logs i m.commandIndex = some c

namespace Copied

variable {logs : Fin n → Int → Option (Option α)} {received : List (Fin n × ApplyMsg α)}

theorem init : Copied (fun (_ : Fin n) _ => none) ([] : List (Fin n × ApplyMsg α)) where
  logged := by
    intro i index c hc
    cases hc
  present := by
    intro i m hm
    cases hm

/-- Without a disagreement the copy holds the command of every message. -/
theorem agreed (h : Copied logs received) (hagree : Agree received) {i : Fin n}
    {m : ApplyMsg α} (hm : (i, m) ∈ received) : logs i m.commandIndex = some m.command := by
  obtain ⟨c, hc⟩ := h.present i m hm
  obtain ⟨m', hm', hindex, rfl⟩ := h.logged i _ c hc
  rw [hc, hagree _ hm' _ hm hindex]

theorem record (h : Copied logs received) (i : Fin n) (m : ApplyMsg α) :
    Copied (Tester.record logs i m) ((i, m) :: received) where
  logged := by
    intro j index c hc
    rw [Tester.record_apply] at hc
    split at hc
    · rename_i heq
      obtain ⟨rfl, rfl⟩ := heq
      cases hc
      exact ⟨m, List.mem_cons_self, rfl, rfl⟩
    · obtain ⟨m', hm', hindex, hcommand⟩ := h.logged j index c hc
      exact ⟨m', List.mem_cons_of_mem _ hm', hindex, hcommand⟩
  present := by
    intro j m' hm'
    rw [Tester.record_apply]
    split
    · exact ⟨_, rfl⟩
    · rename_i hne
      cases hm' with
      | head => exact absurd ⟨rfl, rfl⟩ hne
      | tail _ hm' => exact h.present j m' hm'

end Copied

/-- The predecessor of the next message of an applier has been recorded. -/
theorem Reader.Ok.prev_recorded {chan : List (ApplyMsg α)}
    {received : List (Fin n × ApplyMsg α)} {logs : Fin n → Int → Option (Option α)}
    {r : Reader n α} (hr : r.Ok chan received) (hcopied : Copied logs received)
    {m : ApplyMsg α} (hm : chan[r.taken]? = some m) (hindex : m.commandIndex > 1) :
    (logs r.server (m.commandIndex - 1)).isSome = true := by
  have hnext := (hr.numbered _ m hm).2
  obtain ⟨m', hm', hmem⟩ := hr.taken (r.taken - 1) (by omega)
  have hprev := (hr.numbered _ m' hm').2
  obtain ⟨c, hc⟩ := hcopied.present r.server m' hmem
  have heq : m.commandIndex - 1 = m'.commandIndex := by omega
  rw [heq, hc, Option.isSome_some]

/-- What an applier knows after one more message. -/
theorem Reader.Ok.take [DecidableEq α] {cfg : Tester n α} {chan : List (ApplyMsg α)}
    {received : List (Fin n × ApplyMsg α)} {r : Reader n α} {m : ApplyMsg α}
    (hr : r.Ok chan received) (hcopied : Copied cfg.logs received)
    (hm : chan[r.taken]? = some m) {err : Option (ApplyErr n α)}
    (hmsg : err = (List.finRange n).foldl (cfg.compare r.server m) none) :
    Reader.Ok chan ((r.server, m) :: received)
      { r with taken := r.taken + 1, err_msg := err } := by
  refine ⟨hr.numbered, ?_, ?_⟩
  · intro j hj
    by_cases hlast : j = r.taken
    · subst hlast
      exact ⟨m, hm, List.mem_cons_self⟩
    · obtain ⟨m', hm', hmem⟩ := hr.taken j (by simp only at hj; omega)
      exact ⟨m', hm', List.mem_cons_of_mem _ hmem⟩
  · intro e he
    simp only [hmsg] at he
    cases Tester.foldl_compare_some he with
    | inl hnone => cases hnone
    | inr hcommit =>
        obtain ⟨j, old, hold, hne, rfl⟩ := hcommit
        obtain ⟨m', hmem, hindex, rfl⟩ := hcopied.logged j _ old hold
        exact .commit List.mem_cons_self (List.mem_cons_of_mem _ hmem) hindex hne

namespace Harness

/-- The appliers have reported a disagreement if there is one. -/
structure Verdict (s : Harness n α) : Prop where
  fed : Fed s.sys
  copied : Copied s.cfg.logs s.received
  readers : ∀ r ∈ s.readers, r.Ok (s.chan r) s.received
  found : (∀ r ∈ s.readers, r.err_msg = none) → Agree s.received
  exited : ∀ e, s.exited = some e → ∃ r ∈ s.readers, r.err_msg = some e

variable {s s' : Harness n α}

theorem Verdict.init : Verdict (Harness.init : Harness n α) where
  fed := Fed.init
  copied := Copied.init
  readers := by
    intro r hr
    obtain ⟨i, _, rfl⟩ := List.mem_map.mp hr
    refine ⟨?_, ?_, ?_⟩
    · exact Fed.init.numbered_applyCh i
    · intro j hj
      cases hj
    · intro e he
      cases he
  found := by
    intro _ x hx
    cases hx
  exited := by
    intro e he
    cases he

theorem chan_of_live {r : Reader n α} (h : r.old = none) :
    s.chan r = (s.sys.rafts r.server).applyCh := by
  rw [chan, h, Option.getD_none]

theorem chan_of_old {r : Reader n α} {l : List (ApplyMsg α)} (h : r.old = some l) :
    s.chan r = l := by
  rw [chan, h, Option.getD_some]

theorem Verdict.cluster (h : s.Verdict) {e : Event n α} {sys' : System n α}
    (hs : s.sys.step e = some sys') (hr : ∀ i, e ≠ .restart i) (test : Option (TestCall n α)) :
    Verdict { s with sys := sys', test } := by
  have hfed := h.fed.step hs
  refine ⟨hfed, h.copied, ?_, h.found, h.exited⟩
  intro r hmem
  have hok := h.readers r hmem
  cases hold : r.old with
  | some l =>
      refine hok.grow ?_ ?_ (fun _ hx => hx)
      · rw [chan_of_old hold, ← chan_of_old (s := s) hold]
        exact hok.numbered
      · rw [chan_of_old hold, chan_of_old hold]
  | none =>
      refine hok.grow ?_ ?_ (fun _ hx => hx)
      · rw [chan_of_live hold]
        exact hfed.numbered_applyCh r.server
      · rw [chan_of_live hold, chan_of_live hold]
        exact prefix_of_step hs (hr r.server)

/-- A restart of another server leaves the applier alone; on its own server it ends up with
the whole batch of the incarnation that is replaced. -/
theorem Verdict.start1 (h : s.Verdict) {i : Fin n} {sys' : System n α}
    (hs : s.sys.step (.restart i) = some sys') : Verdict (s.start1 i sys') := by
  have hfed := h.fed.step hs
  have hok : ∀ r ∈ (s.start1 i sys').readers,
      r.Ok ((s.start1 i sys').chan r) s.received := by
    intro r hr
    cases List.mem_append.mp hr with
    | inl hr =>
        obtain ⟨q, hq, rfl⟩ := List.mem_map.mp hr
        have hold := h.readers q hq
        split
        · rename_i hi
          obtain ⟨rfl, hlive⟩ := hi
          refine ⟨h.fed.numbered_outbox q.server, ?_, hold.named⟩
          intro j hj
          obtain ⟨m, hm, hmem⟩ := hold.taken j hj
          rw [chan_of_live hlive] at hm
          exact ⟨m, TermLog.getElem?_of_isPrefix (List.prefix_append _ _) hm, hmem⟩
        · rename_i hi
          cases hq' : q.old with
          | some l =>
              refine hold.grow ?_ ?_ (fun _ hx => hx)
              · rw [chan_of_old hq', ← chan_of_old (s := s) hq']
                exact hold.numbered
              · rw [chan_of_old hq', chan_of_old hq']
          | none =>
              have hne : q.server ≠ i := fun heq => hi ⟨heq, hq'⟩
              refine hold.grow ?_ ?_ (fun _ hx => hx)
              · rw [chan_of_live hq']
                exact hfed.numbered_applyCh q.server
              · rw [chan_of_live hq', chan_of_live hq']
                exact prefix_of_step hs (by simpa using hne.symm)
    | inr hr =>
        obtain rfl := List.mem_singleton.mp hr
        refine ⟨hfed.numbered_applyCh i, ?_, ?_⟩
        · intro j hj
          cases hj
        · intro e he
          cases he
  have herr : ∀ q ∈ s.readers, ∃ r ∈ (s.start1 i sys').readers, r.err_msg = q.err_msg := by
    intro q hq
    refine ⟨_, List.mem_append_left _ (List.mem_map.mpr ⟨q, hq, rfl⟩), ?_⟩
    split <;> rfl
  refine ⟨hfed, h.copied, hok, ?_, ?_⟩
  · intro hnone
    apply h.found
    intro q hq
    obtain ⟨r, hr, heq⟩ := herr q hq
    rw [← heq]
    exact hnone r hr
  · intro e he
    obtain ⟨q, hq, heq⟩ := h.exited e he
    obtain ⟨r, hr, hr'⟩ := herr q hq
    exact ⟨r, hr, hr'.trans heq⟩

variable [DecidableEq α]

theorem Verdict.take (h : s.Verdict) {k : Nat} {r : Reader n α} {m : ApplyMsg α}
    (hk : s.readers[k]? = some r) (herr : r.err_msg = none)
    (hm : (s.chan r)[r.taken]? = some m) :
    Verdict { s with
      cfg := (s.cfg.applier r.server m).1
      readers := s.readers.set k
        { r with taken := r.taken + 1, err_msg := (s.cfg.applier r.server m).2 }
      received := (r.server, m) :: s.received } := by
  have hr := h.readers r (List.mem_of_getElem? hk)
  obtain ⟨hlogs, hmsg⟩ := Tester.applier_eq (hr.numbered _ m hm).1
    (hr.prev_recorded h.copied hm)
  refine ⟨h.fed, ?_, ?_, ?_, ?_⟩
  · change Copied (s.cfg.applier r.server m).1.logs _
    rw [hlogs]
    exact h.copied.record r.server m
  · intro q hq
    cases List.mem_or_eq_of_mem_set hq with
    | inl hq =>
        have hold := h.readers q hq
        exact hold.grow hold.numbered (List.prefix_refl _) fun _ => List.mem_cons_of_mem _
    | inr hq =>
        subst hq
        exact hr.take h.copied hm hmsg
  · intro hnone
    have hagree : Agree s.received := by
      apply h.found
      intro q hq
      obtain ⟨j, hj⟩ := List.mem_iff_getElem?.mp hq
      by_cases hjk : j = k
      · subst hjk
        rw [hk] at hj
        cases hj
        exact herr
      · apply hnone
        apply List.mem_of_getElem? (i := j)
        rw [List.getElem?_set_ne (Ne.symm hjk)]
        exact hj
    have hnew : (s.cfg.applier r.server m).2 = none :=
      hnone { r with taken := r.taken + 1, err_msg := (s.cfg.applier r.server m).2 }
        (List.mem_set (List.getElem?_eq_some_iff.mp hk).1 _)
    rw [hmsg] at hnew
    have hsame := (Tester.foldl_compare_none hnew).2
    refine hagree.cons fun x hx hindex => ?_
    apply hsame x.1 (List.mem_finRange x.1)
    rw [← hindex]
    exact h.copied.agreed hagree hx
  · intro e he
    obtain ⟨q, hq, hqe⟩ := h.exited e he
    obtain ⟨j, hj⟩ := List.mem_iff_getElem?.mp hq
    refine ⟨q, List.mem_of_getElem? (i := j) ?_, hqe⟩
    rw [List.getElem?_set_ne, hj]
    intro hjk
    subst hjk
    rw [hk] at hj
    cases hj
    rw [herr] at hqe
    cases hqe

theorem Verdict.step (h : s.Verdict) {e : HarnessEvent n α} (hs : s.Step e s') :
    s'.Verdict := by
  cases hs with
  | cluster hs hr => exact h.cluster hs hr s.test
  | start1 hs => exact h.start1 hs
  | take hk herr hm => exact h.take hk herr hm
  | @fatal k r err hk herr =>
      refine ⟨h.fed, h.copied, h.readers, h.found, ?_⟩
      intro e he
      cases he
      exact ⟨r, List.mem_of_getElem? hk, herr⟩
  | start _ hs _ => exact h.cluster hs (by simp) _
  | connect _ | callOne _ _ _ | callLeader | one _ _ | leader _ _ =>
      exact ⟨h.fed, h.copied, h.readers, h.found, h.exited⟩

end Harness

variable [DecidableEq α] {h : List (Harness n α)} {s : Harness n α}

/-- In every state of a run of the harness, with any restarts, an applier has found an
error if and only if two of the messages that the appliers have taken have one index and
different commands. Every error, and so what the process exits with, names two such
messages. -/
theorem applier_verdict (run : (harness n α).Run (fun _ _ => True) h) (hs : s ∈ h) :
    ((∃ r ∈ s.readers, r.err_msg ≠ none) ↔ ¬ Agree s.received) ∧
      (∀ r ∈ s.readers, ∀ e, r.err_msg = some e → Names s.received e) ∧
      ∀ e, s.exited = some e → Names s.received e := by
  have hv : s.Verdict := Machine.Run.invariant (I := Harness.Verdict) Harness.Verdict.init
    (fun _ _ _ hs _ hstep => hs.step (Harness.step_cases hstep)) run s hs
  refine ⟨⟨?_, ?_⟩, ?_, ?_⟩
  · rintro ⟨r, hr, herr⟩
    obtain ⟨e, he⟩ := Option.ne_none_iff_exists'.mp herr
    exact ((hv.readers r hr).named e he).not_agree
  · intro hdis
    apply Decidable.byContradiction
    intro hnone
    apply hdis
    apply hv.found
    intro r hr
    apply Decidable.byContradiction
    intro hne
    exact hnone ⟨r, hr, hne⟩
  · exact fun r hr => (hv.readers r hr).named
  · intro e he
    obtain ⟨r, hr, herr⟩ := hv.exited e he
    exact (hv.readers r hr).named e herr

/-- Peers 0 and 1 apply different commands at index 3 after a stale `matchIndex` has been
counted, and the applier of peer 1 ends the process. -/
theorem applier_verdict_stale_match :
    ∃ h, (harness 3 Nat).Run (fun _ _ => True) h ∧ ∃ s ∈ h,
      s.exited = some (.commit 3 1 (some 7) 0 (some 6)) ∧
      Names s.received (.commit 3 1 (some 7) 0 (some 6)) := by
  obtain ⟨h, run, s, hs, hexit⟩ :=
    (harness 3 Nat).exists_run_of_replay (fun _ _ => True)
      ((staleMatch 0 1 2 ++ [Event.start 0 (some 6), .handleAppend 22, .appendEntries 22,
        .appendReply 22, .applyLock 0, .applySend 0, .applySend 0, .applySend 0,
        .electionTick 1, .requestVote 6 2, .voteReply 6 2, .start 1 (some 7),
        .handleAppend 30, .appendEntries 30, .appendReply 30, .applyLock 1, .applySend 1,
        .applySend 1, .applySend 1]).map .cluster ++
        [.take 0, .take 0, .take 0, .take 1, .take 1, .take 1, .fatal 1])
      (fun h => ∃ s ∈ h, s.exited = some (.commit 3 1 (some 7) 0 (some 6)))
      (by decide +kernel)
  exact ⟨h, run, s, hs, hexit, (applier_verdict run hs).2.2 _ hexit⟩

end RaftLab
