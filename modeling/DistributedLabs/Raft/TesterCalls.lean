import DistributedLabs.Raft.TesterVerdict
import DistributedLabs.Raft.LogSafety
import DistributedLabs.Library.Refinement

/-!
The calls of the test's goroutine. Both look at one server after the other, so what they
return is justified by states of the run and not by the newest one. When `one` returns an
index, a leader took the command there during the call and every server that it counted
has applied it by now. When `checkOneLeader` returns a server, the server led when it was
read in the last round; without restarts it never finds two leaders of one term.
-/

namespace RaftLab

variable {n : Nat} {α : Type}

theorem effect_starts_isPrefix {s s' : System n α} {e : Event n α} (h : s.Effect e s') :
    s.starts <+: s'.starts := by
  cases h with
  | start _ => exact List.prefix_append _ _
  | panic _ | heartbeatTick _ | lead _ | stand _ | requestVote _ _ _ | voteReply _ _ _
  | sendAppend _ _ _ _ | dropAppend _ _ | appendEntries _ _ _ | appendReply _ _ _ _
  | callFails _ _ | unwind _ _ | applyLock _ _ | applyReceive _ | applySend _ | kill
  | restart => exact List.prefix_refl _

/-- The server has applied the command at the index. -/
def AppliedBy (received : List (Fin n × ApplyMsg α)) (index : Int) (cmd : Option α)
    (j : Fin n) : Prop :=
  ∃ m, (j, m) ∈ received ∧ m.commandIndex = index ∧ m.command = cmd

/-- A leader took the command at the index during the call. -/
def OneCall.TakenAt (c : OneCall α) (starts : List (StartReturn n α)) (index : Int) : Prop :=
  ∃ r ∈ starts.drop c.began, r.command = c.cmd ∧ r.index = index ∧ r.isLeader = true

/-- What a position of `one` says about the servers. -/
inductive OneCall.PosOk (c : OneCall α) (starts : List (StartReturn n α))
    (received : List (Fin n × ApplyMsg α)) : OnePos α → Prop
  | free {pos : OnePos α} (h : pos.Free) : PosOk c starts received pos
  | polling {k : Nat} {index : Int} (htaken : c.TakenAt starts index) :
      PosOk c starts received (.polling k index)
  | counting {k : Nat} {index : Int} {i count : Nat} {cmd : Option α}
      (htaken : c.TakenAt starts index) (servers : Finset (Fin n))
      (hcard : servers.card = count)
      (happlied : ∀ j ∈ servers, j.val < i ∧ AppliedBy received index cmd j) :
      PosOk c starts received (.counting k index i count cmd)
  | returned {index : Int} (htaken : c.TakenAt starts index) (servers : Finset (Fin n))
      (hpos : 0 < servers.card) (hexpected : c.expectedServers ≤ servers.card)
      (happlied : ∀ j ∈ servers, AppliedBy received index c.cmd j) :
      PosOk c starts received (.returned index)

theorem AppliedBy.mono {received received' : List (Fin n × ApplyMsg α)} {index : Int}
    {cmd : Option α} {j : Fin n} (h : AppliedBy received index cmd j)
    (hsub : ∀ x ∈ received, x ∈ received') : AppliedBy received' index cmd j := by
  obtain ⟨m, hm, hindex, hcommand⟩ := h
  exact ⟨m, hsub _ hm, hindex, hcommand⟩

namespace OneCall

variable {c : OneCall α} {starts starts' : List (StartReturn n α)}
  {received received' : List (Fin n × ApplyMsg α)}

theorem TakenAt.mono {index : Int} (h : c.TakenAt starts index)
    (hp : starts <+: starts') : c.TakenAt starts' index := by
  obtain ⟨r, hr, hrest⟩ := h
  obtain ⟨more, rfl⟩ := hp
  refine ⟨r, ?_, hrest⟩
  rw [List.drop_append]
  exact List.mem_append_left _ hr

theorem PosOk.mono {pos : OnePos α} (h : c.PosOk starts received pos)
    (hp : starts <+: starts') (hsub : ∀ x ∈ received, x ∈ received') :
    c.PosOk starts' received' pos := by
  cases h with
  | free h => exact .free h
  | polling htaken => exact .polling (htaken.mono hp)
  | counting htaken servers hcard happlied =>
      refine .counting (htaken.mono hp) servers hcard ?_
      intro j hj
      exact ⟨(happlied j hj).1, (happlied j hj).2.mono hsub⟩
  | returned htaken servers hpos hexpected happlied =>
      exact .returned (htaken.mono hp) servers hpos hexpected
        (fun j hj => (happlied j hj).mono hsub)

theorem PosOk.withPos {pos pos' : OnePos α} (h : c.PosOk starts received pos) :
    ({ c with pos := pos' } : OneCall α).PosOk starts received pos := by
  cases h with
  | free h => exact .free h
  | polling htaken => exact .polling htaken
  | counting htaken servers hcard happlied => exact .counting htaken servers hcard happlied
  | returned htaken servers hpos hexpected happlied =>
      exact .returned htaken servers hpos hexpected happlied

theorem PosOk.move {s : Harness n α} {pos : OnePos α}
    (h : c.PosOk s.sys.starts s.received c.pos) (hcopied : Copied s.cfg.logs s.received)
    (hm : s.OneMove c pos) : c.PosOk s.sys.starts s.received pos := by
  cases hm with
  | free h => exact .free h
  | poll hpos =>
      rw [hpos] at h
      cases h with
      | free h => exact absurd h id
      | polling htaken => exact .counting htaken ∅ rfl (by simp)
  | skip hpos =>
      rw [hpos] at h
      cases h with
      | free h => exact absurd h id
      | counting htaken servers hcard happlied =>
          refine .counting htaken servers hcard ?_
          intro j hj
          exact ⟨Nat.lt_succ_of_lt (happlied j hj).1, (happlied j hj).2⟩
  | @count k index i count cmd cmd1 hi hpos hlog hcmd =>
      rw [hpos] at h
      cases h with
      | free h => exact absurd h id
      | counting htaken servers hcard happlied =>
          have hnew : (⟨i, hi⟩ : Fin n) ∉ servers := by
            intro hmem
            exact Nat.lt_irrefl i (happlied _ hmem).1
          refine .counting htaken (insert ⟨i, hi⟩ servers) ?_ ?_
          · rw [Finset.card_insert_of_notMem hnew, hcard]
          · intro j hj
            cases Finset.mem_insert.mp hj with
            | inl heq =>
                subst heq
                exact ⟨Nat.lt_succ_self i, hcopied.logged _ _ _ hlog⟩
            | inr hold =>
                have hcount : count > 0 := by
                  rw [← hcard]
                  exact Finset.card_pos.mpr ⟨j, hold⟩
                rw [← hcmd hcount]
                exact ⟨Nat.lt_succ_of_lt (happlied j hold).1, (happlied j hold).2⟩
  | again hpos =>
      rw [hpos] at h
      cases h with
      | free h => exact absurd h id
      | counting htaken _ _ _ => exact .polling htaken
  | finish hpos hcount hexpected =>
      rw [hpos] at h
      cases h with
      | free h => exact absurd h id
      | counting htaken servers hcard happlied =>
          subst hcard
          exact .returned htaken servers hcount hexpected (fun j hj => (happlied j hj).2)

end OneCall

namespace Harness

/-- A call of `one` has seen what its position says. -/
def OneOk (s : Harness n α) : Prop :=
  ∀ c, s.test = some (.one c) →
    c.began ≤ s.sys.starts.length ∧ c.PosOk s.sys.starts s.received c.pos

variable {s s' : Harness n α}

theorem OneOk.mono (h : s.OneOk) (htest : s'.test = s.test)
    (hp : s.sys.starts <+: s'.sys.starts) (hsub : ∀ x ∈ s.received, x ∈ s'.received) :
    s'.OneOk := by
  intro c hc
  rw [htest] at hc
  obtain ⟨hbegan, hpos⟩ := h c hc
  exact ⟨Nat.le_trans hbegan hp.length_le, hpos.mono hp hsub⟩

/-- The call of `Start` that has just returned is one of the call of `one`. -/
theorem taken_of_start {c : OneCall α} {i : Fin n} {sys' : System n α} {r : StartReturn n α}
    (hbegan : c.began ≤ s.sys.starts.length) (hs : s.sys.step (.start i c.cmd) = some sys')
    (hr : sys'.starts[s.sys.starts.length]? = some r) (hleader : r.isLeader = true) :
    c.TakenAt sys'.starts r.index := by
  refine ⟨r, ?_, ?_, rfl, hleader⟩
  · obtain ⟨d, hd⟩ := Nat.exists_eq_add_of_le hbegan
    apply List.mem_of_getElem? (i := d)
    rw [List.getElem?_drop, ← hd]
    exact hr
  · cases System.step_effect hs with
    | panic _ =>
        rw [show (s.sys.panic _).starts = s.sys.starts from rfl] at hr
        simp at hr
    | start _ =>
        rw [List.getElem?_append_right (Nat.le_refl _), Nat.sub_self] at hr
        cases hr
        rfl

variable [DecidableEq α]

theorem OneOk.step (h : s.OneOk) (hv : s.Verdict) {e : HarnessEvent n α}
    (hs : s.Step e s') : s'.OneOk := by
  cases hs with
  | cluster hs _ | start1 hs =>
      exact h.mono rfl (effect_starts_isPrefix (System.step_effect hs)) (fun _ hx => hx)
  | take _ _ _ =>
      exact h.mono rfl (List.prefix_refl _) (fun _ hx => List.mem_cons_of_mem _ hx)
  | connect _ | fatal _ _ => exact h.mono rfl (List.prefix_refl _) (fun _ hx => hx)
  | callOne cmd expectedServers retry =>
      intro c hc
      cases hc
      exact ⟨Nat.le_refl _, .free trivial⟩
  | callLeader =>
      intro c hc
      cases hc
  | leader _ _ =>
      intro c hc
      cases hc
  | one hc hm =>
      intro c' hc'
      cases hc'
      obtain ⟨hbegan, hpos⟩ := h _ hc
      exact ⟨hbegan, (hpos.move hv.copied hm).withPos⟩
  | start hc hs hm =>
      obtain ⟨hbegan, hpos⟩ := h _ hc
      have hp := effect_starts_isPrefix (System.step_effect hs)
      have hbegan' := Nat.le_trans hbegan hp.length_le
      intro c' hc'
      cases hm with
      | panic =>
          cases hc'
          exact ⟨hbegan', hpos.mono hp (fun _ hx => hx)⟩
      | free hfree =>
          cases hc'
          exact ⟨hbegan', .free hfree⟩
      | poll hr hleader =>
          cases hc'
          exact ⟨hbegan', .polling (taken_of_start hbegan hs hr hleader)⟩

end Harness

section One

variable [DecidableEq α] {h : List (Harness n α)} {s : Harness n α}

/-- When `one` returns an index, a call of `Start` that it made has put the command there,
and at least the expected number of servers have applied the command at the index. As long
as no applier has found an error, no server has applied another command there. -/
theorem one_reaches_agreement (run : (harness n α).Run (fun _ _ => True) h) (hs : s ∈ h)
    {c : OneCall α} (hc : s.test = some (.one c)) {index : Int}
    (hpos : c.pos = .returned index) :
    (∃ r ∈ s.sys.starts.drop c.began,
      r.command = c.cmd ∧ r.index = index ∧ r.isLeader = true) ∧
      (∃ servers : Finset (Fin n), 0 < servers.card ∧ c.expectedServers ≤ servers.card ∧
        ∀ j ∈ servers, ∃ m, (j, m) ∈ s.received ∧ m.commandIndex = index ∧
          m.command = c.cmd) ∧
      ((∀ r ∈ s.readers, r.err_msg = none) → ∀ x ∈ s.received,
        x.2.commandIndex = index → x.2.command = c.cmd) := by
  have hok : s.Verdict ∧ s.OneOk := by
    refine Machine.Run.invariant (I := fun s : Harness n α => s.Verdict ∧ s.OneOk) ?_ ?_ run s hs
    · refine ⟨Harness.Verdict.init, ?_⟩
      intro c hc
      cases hc
    · intro s e t hs _ hstep
      have hcases := Harness.step_cases hstep
      exact ⟨hs.1.step hcases, hs.2.step hs.1 hcases⟩
  have hposok := (hok.2 c hc).2
  rw [hpos] at hposok
  cases hposok with
  | free hfree => exact absurd hfree id
  | returned htaken servers hcard hexpected happlied =>
      refine ⟨htaken, ⟨servers, hcard, hexpected, happlied⟩, ?_⟩
      intro hnone x hx hindex
      obtain ⟨j, hj⟩ := Finset.card_pos.mp hcard
      obtain ⟨m, hm, hmindex, hcommand⟩ := happlied j hj
      rw [← hcommand]
      exact hok.1.found hnone x hx _ hm (hindex.trans hmindex.symm)

/-- The second and the third server refuse the command; two servers apply it. -/
theorem one_reaches_agreement_first_command :
    ∃ h, (harness 3 Nat).Run (fun _ _ => True) h ∧ ∃ s ∈ h,
      s.test = some (.one ⟨some 7, 2, true, 0, .returned 1⟩) ∧
      ∃ servers : Finset (Fin 3), (2 : Int) ≤ servers.card ∧
        ∀ j ∈ servers, ∃ m, (j, m) ∈ s.received ∧ m.commandIndex = 1 ∧
          m.command = some 7 := by
  obtain ⟨h, run, s, hs, htest⟩ :=
    (harness 3 Nat).exists_run_of_replay (fun _ _ => True)
      (firstElection.map .cluster ++
        [.one (some 7) 2 true, .test false [], .test false [], .test false [], .test false [],
          .cluster (.handleAppend 2), .cluster (.appendEntries 2), .cluster (.appendReply 2),
          .cluster (.applyLock 0), .cluster (.applySend 0), .cluster (.heartbeatTick 0),
          .cluster (.handleAppend 4), .cluster (.appendEntries 4), .cluster (.applyLock 1),
          .cluster (.applySend 1), .take 0, .take 1,
          .test false [], .test false [], .test false [], .test false [], .test false []])
      (fun h => ∃ s ∈ h, s.test = some (.one ⟨some 7, 2, true, 0, .returned 1⟩))
      (by decide +kernel)
  obtain ⟨_, ⟨servers, _, hexpected, happlied⟩, _⟩ := one_reaches_agreement run hs htest rfl
  exact ⟨h, run, s, hs, htest, servers, hexpected, happlied⟩

end One

/-- No server is restarted. -/
def Unrestarted (_ : Harness n α) : HarnessEvent n α → Prop
  | .cluster (.restart _) => False
  | _ => True

instance (s : Harness n α) (e : HarnessEvent n α) : Decidable (Unrestarted s e) :=
  match e with
  | .cluster (.restart _) => isFalse id
  | .cluster (.heartbeatTick _) | .cluster (.electionTick _) | .cluster (.start _ _)
  | .cluster (.requestVote _ _) | .cluster (.voteReply _ _) | .cluster (.handleAppend _)
  | .cluster (.appendEntries _) | .cluster (.appendReply _) | .cluster (.callFails _)
  | .cluster (.unwind _) | .cluster (.applyLock _) | .cluster (.applyReceive _)
  | .cluster (.applySend _) | .cluster (.kill _) | .connect _ | .disconnect _ | .take _
  | .fatal _ | .one _ _ _ | .checkOneLeader | .test _ _ => isTrue trivial

/-- The test is in this round of `checkOneLeader`, or has returned from one. -/
def InRound (iters : Nat) (s : Harness n α) : Prop :=
  (∃ i leaders, s.test = some (.checkOneLeader (.reading iters i leaders))) ∨
    ∃ leader leaders, s.test = some (.checkOneLeader (.returned leader leaders))

/-- In the round that the run is in the server was read, and it was connected and led the
term when it was. -/
def ReadIn (h : List (Harness n α)) (iters : Nat) (j : Fin n) (term : Int) : Prop :=
  ∃ newer t older leaders, h = newer ++ t :: older ∧ (∀ u ∈ newer, InRound iters u) ∧
    t.test = some (.checkOneLeader (.reading iters j leaders)) ∧ t.connected j = true ∧
    (t.sys.rafts j).state = .leader ∧ (t.sys.rafts j).currentTerm = term

theorem ReadIn.cons {h : List (Harness n α)} {iters : Nat} {j : Fin n} {term : Int}
    (hr : ReadIn h iters j term) {t : Harness n α} (ht : InRound iters t) :
    ReadIn (t :: h) iters j term := by
  obtain ⟨newer, u, older, leaders, rfl, hround, hread⟩ := hr
  refine ⟨t :: newer, u, older, leaders, rfl, ?_, hread⟩
  intro v hv
  cases hv with
  | head => exact ht
  | tail _ hv => exact hround v hv

/-- The leaders that a round has found among the servers below `i`. -/
structure Found (h : List (Harness n α)) (iters i : Nat)
    (leaders : GoMap Int (List (Fin n))) : Prop where
  nonempty : ∀ term l, leaders.lookup term = some l → l ≠ []
  nodup : ∀ term l, leaders.lookup term = some l → l.Nodup
  led : ∀ term l, leaders.lookup term = some l → ∀ j ∈ l, j.val < i ∧ ReadIn h iters j term

namespace Found

variable {h : List (Harness n α)} {iters i : Nat} {leaders : GoMap Int (List (Fin n))}

theorem empty : Found h iters i (∅ : GoMap Int (List (Fin n))) where
  nonempty := by simp
  nodup := by simp
  led := by simp

theorem cons (hf : Found h iters i leaders) {t : Harness n α} (ht : InRound iters t) :
    Found (t :: h) iters i leaders where
  nonempty := hf.nonempty
  nodup := hf.nodup
  led := fun term l hl j hj => ⟨(hf.led term l hl j hj).1, (hf.led term l hl j hj).2.cons ht⟩

theorem skip (hf : Found h iters i leaders) : Found h iters (i + 1) leaders where
  nonempty := hf.nonempty
  nodup := hf.nodup
  led := fun term l hl j hj =>
    ⟨Nat.lt_succ_of_lt (hf.led term l hl j hj).1, (hf.led term l hl j hj).2⟩

theorem insert (hf : Found h iters i leaders) (hi : i < n) {term : Int}
    (hled : ReadIn h iters ⟨i, hi⟩ term) :
    Found h iters (i + 1) (leaders.insert term ((leaders.lookup term).getD [] ++ [⟨i, hi⟩])) where
  nonempty := by
    intro T l hl
    rcases GoMap.lookup_insert_iff.mp hl with ⟨rfl, rfl⟩ | ⟨_, hl⟩
    · simp
    · exact hf.nonempty T l hl
  nodup := by
    intro T l hl
    rcases GoMap.lookup_insert_iff.mp hl with ⟨rfl, rfl⟩ | ⟨_, hl⟩
    · cases hold : leaders.lookup T with
      | none => simp
      | some l =>
          rw [Option.getD_some, List.nodup_append]
          refine ⟨hf.nodup T l hold, List.nodup_singleton _, ?_⟩
          rintro a ha b hb rfl
          obtain rfl := List.mem_singleton.mp hb
          exact Nat.lt_irrefl i (hf.led T l hold _ ha).1
    · exact hf.nodup T l hl
  led := by
    intro T l hl j hj
    rcases GoMap.lookup_insert_iff.mp hl with ⟨rfl, rfl⟩ | ⟨_, hl⟩
    · cases List.mem_append.mp hj with
      | inl hj =>
          cases hold : leaders.lookup T with
          | none =>
              rw [hold] at hj
              cases hj
          | some l =>
              rw [hold] at hj
              exact hf.skip.led T l hold j hj
      | inr hj =>
          obtain rfl := List.mem_singleton.mp hj
          exact ⟨Nat.lt_succ_self i, hled⟩
    · exact hf.skip.led T l hl j hj

end Found

/-- If no term has two leaders, the loop ends with the highest term, or with the one it
began with. -/
theorem lastTermWithLeader_ok {order : List (Int × List (Fin n))} (last : Int)
    (hone : ∀ e ∈ order, e.2.length ≤ 1) : ∃ top, lastTermWithLeader last order = .ok top ∧
      last ≤ top ∧ (∀ e ∈ order, e.1 ≤ top) ∧ (top = last ∨ ∃ e ∈ order, e.1 = top) := by
  induction order generalizing last with
  | nil => exact ⟨last, rfl, Int.le_refl _, by simp, Or.inl rfl⟩
  | cons e order ih =>
      obtain ⟨term, l⟩ := e
      have hlen := hone (term, l) List.mem_cons_self
      obtain ⟨top, hok, hle, hall, htop⟩ := ih (if term > last then term else last)
        (fun e he => hone e (List.mem_cons_of_mem _ he))
      refine ⟨top, ?_, ?_, ?_, ?_⟩
      · rw [lastTermWithLeader, if_neg (Nat.not_lt.mpr hlen)]
        exact hok
      · split at hle <;> omega
      · intro e he
        cases he with
        | head => split at hle <;> omega
        | tail _ he => exact hall e he
      · cases htop with
        | inr hmem =>
            obtain ⟨e, he, heq⟩ := hmem
            exact Or.inr ⟨e, List.mem_cons_of_mem _ he, heq⟩
        | inl heq =>
            split at heq
            · exact Or.inr ⟨_, List.mem_cons_self, heq.symm⟩
            · exact Or.inl heq

/-- What a position of `checkOneLeader` says about the run. -/
inductive LeaderPos.Ok (h : List (Harness n α)) : LeaderPos n → Prop
  | top (iters : Nat) : Ok h (.top iters)
  | reading {iters i : Nat} {leaders : GoMap Int (List (Fin n))}
      (hf : Found h iters i leaders) : Ok h (.reading iters i leaders)
  | returned {leader : Fin n} {leaders : GoMap Int (List (Fin n))} {term : Int} {iters : Nat}
      (hlast : leaders.lookup term = some [leader])
      (hmax : ∀ T l, leaders.lookup T = some l → T ≤ term)
      (hread : ReadIn h iters leader term) : Ok h (.returned leader leaders)
  | noLeader : Ok h .noLeader

theorem LeaderPos.Ok.cons {h : List (Harness n α)} {pos : LeaderPos n} (hp : pos.Ok h)
    {t : Harness n α} (ht : t.test = some (.checkOneLeader pos)) : pos.Ok (t :: h) := by
  cases hp with
  | top iters => exact .top iters
  | reading hf => exact .reading (hf.cons (Or.inl ⟨_, _, ht⟩))
  | returned hlast hmax hread => exact .returned hlast hmax (hread.cons (Or.inr ⟨_, _, ht⟩))
  | noLeader => exact .noLeader

section Leaders

variable [DecidableEq α] {h : List (Harness n α)} {s : Harness n α}

/-- The harness drives a cluster in which no server restarts. -/
theorem cluster_run (run : (harness n α).Run Unrestarted (s :: h)) :
    ∃ h', (cluster n α).Run NoRestart (s.sys :: h') ∧
      ∀ t ∈ s :: h, t.sys ∈ s.sys :: h' := by
  obtain ⟨h', run', hmem⟩ := Machine.Run.refines (A := cluster n α) (f := Harness.sys)
    (Q := NoRestart) (I := fun _ => True) trivial rfl (fun _ _ _ _ _ _ => trivial) (by
      intro s e t _ hallowed hstep
      cases Harness.step_cases hstep with
      | @cluster e _ hs hr =>
          refine Or.inr ⟨e, ?_, hs⟩
          cases e with
          | restart i => exact absurd rfl (hr i)
          | heartbeatTick _ | electionTick _ | start _ _ | requestVote _ _ | voteReply _ _
          | handleAppend _ | appendEntries _ | appendReply _ | callFails _ | unwind _
          | applyLock _ | applyReceive _ | applySend _ | kill _ => trivial
      | start1 _ => exact absurd hallowed id
      | start _ hs _ => exact Or.inr ⟨.start _ _, trivial, hs⟩
      | connect _ | take _ _ _ | fatal _ _ | callOne _ _ _ | callLeader | one _ _
      | leader _ _ => exact Or.inl rfl) run
  exact ⟨h', run', fun t ht => (hmem t.sys).mpr ⟨t, ht, rfl⟩⟩

theorem readIn_unique (run : (harness n α).Run Unrestarted (s :: h)) {iters : Nat}
    {i j : Fin n} {term : Int} (hi : ReadIn (s :: h) iters i term)
    (hj : ReadIn (s :: h) iters j term) : i = j ∧ 0 < term := by
  obtain ⟨h', run', hmem⟩ := cluster_run run
  obtain ⟨a, H, hrun, _, hpoints⟩ := exists_history run'
  have hled {k : Fin n} (hk : ReadIn (s :: h) iters k term) :
      ∃ l, TermLog.Led (a :: H) k term l := by
    obtain ⟨newer, t, older, _, heq, _, _, _, hstate, rfl⟩ := hk
    have ht : t ∈ s :: h := by
      rw [heq]
      simp
    exact ⟨_, led_of_point hpoints (hmem t ht) hstate⟩
  obtain ⟨_, hi⟩ := hled hi
  obtain ⟨_, hj⟩ := hled hj
  exact ⟨hrun.led_unique hi hj, hrun.led_epoch hi⟩

/-- Every term that a round has found has one leader. -/
theorem Found.single (run : (harness n α).Run Unrestarted (s :: h)) {iters i : Nat}
    {leaders : GoMap Int (List (Fin n))} (hf : Found (s :: h) iters i leaders) {term : Int}
    {l : List (Fin n)} (hl : leaders.lookup term = some l) :
    0 < term ∧ ∃ leader, l = [leader] ∧ ReadIn (s :: h) iters leader term := by
  cases l with
  | nil => exact absurd rfl (hf.nonempty term [] hl)
  | cons leader l =>
      have hread := (hf.led term _ hl leader List.mem_cons_self).2
      refine ⟨(readIn_unique run hread hread).2, leader, ?_, hread⟩
      cases l with
      | nil => rfl
      | cons other l =>
          have hother := (hf.led term _ hl other
            (List.mem_cons_of_mem _ List.mem_cons_self)).2
          have hnodup := hf.nodup term _ hl
          rw [(readIn_unique run hread hother).1] at hnodup
          exact absurd List.mem_cons_self (List.nodup_cons.mp hnodup).1

theorem Found.judge (run : (harness n α).Run Unrestarted (s :: h)) {iters i : Nat}
    {leaders : GoMap Int (List (Fin n))} (hf : Found (s :: h) iters i leaders)
    {order : List (Int × List (Fin n))} (hperm : order.Perm (GoMap.items leaders)) :
    (Harness.judge iters leaders order).Ok (s :: h) := by
  have hlookup : ∀ e ∈ order, leaders.lookup e.1 = some e.2 := fun e he =>
    GoMap.mem_items.mp (hperm.mem_iff.mp he)
  have hone : ∀ e ∈ order, e.2.length ≤ 1 := by
    intro e he
    obtain ⟨_, leader, hl, _⟩ := hf.single run (hlookup e he)
    rw [hl]
    exact Nat.le_refl _
  obtain ⟨last, hok, _, hall, hlast⟩ := lastTermWithLeader_ok (-1) hone
  unfold Harness.judge
  rw [hok]
  simp only
  split
  · rename_i hkeys
    -- some term has a leader, and terms with leaders are positive
    have hne : order ≠ [] := by
      intro hnil
      rw [hnil] at hperm
      have hitems := hperm.nil_eq
      apply hkeys
      rw [← GoMap.items_keys, ← hitems]
      rfl
    obtain ⟨e, he⟩ := List.exists_mem_of_ne_nil order hne
    have hpos := (hf.single run (hlookup e he)).1
    have hle := hall e he
    rcases hlast with hlast | ⟨top, htop, rfl⟩
    · omega
    · obtain ⟨_, leader, hl, hread⟩ := hf.single run (hlookup top htop)
      have hlast := hlookup top htop
      rw [hl] at hlast
      rw [hlast]
      refine .returned hlast ?_ hread
      intro T l hT
      exact hall (T, l) (hperm.mem_iff.mpr (GoMap.mem_items.mpr hT))
  · exact .top _

theorem LeaderPos.Ok.stepLeader (run : (harness n α).Run Unrestarted (s :: h))
    {pos pos' : LeaderPos n} (hp : pos.Ok (s :: h)) {order : List (Int × List (Fin n))}
    (hc : s.test = some (.checkOneLeader pos)) (hm : s.stepLeader order pos = some pos') :
    pos'.Ok (s :: h) := by
  cases hp with
  | top iters =>
      cases hm
      split
      · exact .reading .empty
      · exact .noLeader
  | @reading iters i leaders hf =>
      simp only [Harness.stepLeader] at hm
      split at hm
      · rename_i hi
        cases hm
        refine .reading ?_
        split
        · rename_i hread
          have hstate : (s.sys.rafts ⟨i, hi⟩).state = .leader := by
            simpa [Raft.getState] using hread.2
          exact hf.insert hi ⟨[], s, h, leaders, rfl, by simp, hc, hread.1, hstate, rfl⟩
        · exact hf.skip
      · split at hm
        · rename_i hperm
          cases hm
          exact hf.judge run hperm
        · cases hm
  | returned _ _ _ => cases hm
  | noLeader => cases hm

/-- In a run without restarts `checkOneLeader` never finds two leaders of one term and never
panics, whatever happens while it reads the servers. When it has returned a server, it read
that server in its last round, and the server was connected and led then, alone in its term;
no server that the round found to lead was in a later term. -/
theorem checkOneLeader_sound (run : (harness n α).Run Unrestarted (s :: h))
    {pos : LeaderPos n} (hpos : s.test = some (.checkOneLeader pos)) :
    (∀ term count, pos ≠ .tooMany term count) ∧ pos ≠ .panicked ∧
      ∀ leader leaders, pos = .returned leader leaders → ∃ term,
        leaders.lookup term = some [leader] ∧
        (∀ T l, leaders.lookup T = some l → T ≤ term) ∧
        ∃ iters newer t older leaders', s :: h = newer ++ t :: older ∧
          (∀ u ∈ newer, InRound iters u) ∧
          t.test = some (.checkOneLeader (.reading iters leader leaders')) ∧
          t.connected leader = true ∧ (t.sys.rafts leader).state = .leader ∧
          (t.sys.rafts leader).currentTerm = term := by
  have hok : pos.Ok (s :: h) := by
    refine History.head_induction (P := fun (s : Harness n α) h =>
      ∀ pos, s.test = some (.checkOneLeader pos) → pos.Ok (s :: h)) ?_ ?_ run pos hpos
    · intro pos hpos
      cases hpos
    · intro s t h run ih hn pos hpos
      obtain ⟨e, _, hstep⟩ := (harness n α).next_cons.mp hn
      cases Harness.step_cases hstep with
      | cluster _ _ | start1 _ | connect _ | take _ _ _ | fatal _ _ =>
          exact (ih pos hpos).cons hpos
      | callOne _ _ _ | one _ _ => cases hpos
      | start _ _ hm => cases hm <;> cases hpos
      | callLeader =>
          cases hpos
          exact .top 0
      | leader hc hm =>
          cases hpos
          exact ((ih _ hc).stepLeader run hc hm).cons rfl
  cases hok with
  | top _ | noLeader => exact ⟨by simp, by simp, by simp⟩
  | reading _ => exact ⟨by simp, by simp, by simp⟩
  | @returned _ _ _ iters hlast hmax hread =>
      refine ⟨by simp, by simp, ?_⟩
      intro leader leaders heq
      cases heq
      exact ⟨_, hlast, hmax, iters, hread⟩

/-- The server that a call of `checkOneLeader` has returned. -/
def TestCall.leader : TestCall n α → Option (Fin n)
  | .checkOneLeader (.returned leader _) => some leader
  | _ => none

theorem checkOneLeader_sound_first_term :
    ∃ s h, (harness 3 Nat).Run Unrestarted (s :: h) ∧ ∃ leaders,
      s.test = some (.checkOneLeader (.returned 0 leaders)) ∧
      ∃ term, leaders.lookup term = some [0] ∧
        ∃ t ∈ s :: h, ∃ iters leaders',
          t.test = some (.checkOneLeader (.reading iters 0 leaders')) ∧
          (t.sys.rafts 0).state = .leader ∧ (t.sys.rafts 0).currentTerm = term := by
  obtain ⟨h, run, s, hs, htest⟩ :=
    (harness 3 Nat).exists_run_of_replay Unrestarted
      (firstElection.map .cluster ++
        [.checkOneLeader, .test false [], .test false [], .test false [], .test false [],
          .test false [(1, [0])]])
      (fun h => ∃ s, h.head? = some s ∧ s.test.bind TestCall.leader = some 0)
      (by decide +kernel)
  obtain ⟨s', h, rfl⟩ := run.exists_head
  obtain rfl := Option.some.inj hs
  obtain ⟨call, hcall, hleader⟩ := Option.bind_eq_some_iff.mp htest
  cases call with
  | one c => cases hleader
  | checkOneLeader pos =>
      cases pos with
      | returned leader leaders =>
          cases hleader
          obtain ⟨term, hlast, _, iters, newer, t, older, leaders', heq, _, ht, _, hled⟩ :=
            (checkOneLeader_sound run hcall).2.2 0 leaders rfl
          refine ⟨s', h, run, leaders, hcall, term, hlast, t, ?_, iters, leaders', ht, hled⟩
          rw [heq]
          simp
      | top _ | reading _ _ _ | tooMany _ _ | noLeader | panicked => cases hleader

end Leaders

end RaftLab
