import DistributedLabs.Rpc.Calls

/-!
Where a reply comes from. A call that returns a reply was routed by the tables of the
network, its handler ran after that, and after the handler had returned the tables still
led to the same server.
-/

namespace LabRpc

variable {ε ν β : Type}

namespace State

/-- In this state `processReq` reads the tables for call `k`. -/
def Routes (s : State ε ν β) (k : Nat) (endname : ε) (i : Info ν) : Prop :=
  s.net.readEndnameInfo endname = some i ∧
    ∃ c, s.calls[k]? = some c ∧ c.process = .started

/-- In this state the handler of call `k` runs. -/
def Handles (s : State ε ν β) (k : Nat) : Prop :=
  ∃ c, s.calls[k]? = some c ∧ c.dispatch = .handling

/-- In this state call `k` has the reply and `processReq` finds its server alive. -/
def Checks (s : State ε ν β) (k : Nat) (endname : ε) (i : Info ν) (reply : β) : Prop :=
  s.net.isServerDead endname i = false ∧
    ∃ c, s.calls[k]? = some c ∧ c.process = .answered reply

end State

namespace Call

/-- Where the variables of call `k` come from in the states before. -/
structure Traced (past : List (State ε ν β)) (k : Nat) (c : Call ε ν β) : Prop where
  ok : c.Ok
  routed : ∀ i, c.info = some i → ∃ t ∈ past, t.Routes k c.endname i
  answered : ∀ reply, c.dispatch.answer = some reply → ∃ i, c.info = some i ∧
    ∃ v t, [v, t].Sublist past ∧ t.Routes k c.endname i ∧ v.Handles k
  passed : ∀ reply, c.Passed reply → ∃ i, c.info = some i ∧
    ∃ u v t, [u, v, t].Sublist past ∧ t.Routes k c.endname i ∧ v.Handles k ∧
      u.Checks k c.endname i reply

variable {past : List (State ε ν β)} {s : State ε ν β} {k : Nat} {c c' : Call ε ν β}
  {m : Move β}

theorem make_traced (endname : ε) (svcMeth : List Char) (args : β) :
    (make endname svcMeth args : Call ε ν β).Traced past k where
  ok := make_ok endname svcMeth args
  routed := by
    intro i hi
    cases hi
  answered := by
    intro reply hr
    cases hr
  passed := by
    intro reply hp
    rcases hp with hp | hp | hp <;> cases hp

theorem Traced.mono (h : c.Traced past k) (s : State ε ν β) : c.Traced (s :: past) k where
  ok := h.ok
  routed := by
    intro i hi
    obtain ⟨t, ht, hr⟩ := h.routed i hi
    exact ⟨t, List.mem_cons_of_mem _ ht, hr⟩
  answered := by
    intro reply hr
    obtain ⟨i, hi, v, t, hsub, hrest⟩ := h.answered reply hr
    exact ⟨i, hi, v, t, hsub.cons s, hrest⟩
  passed := by
    intro reply hp
    obtain ⟨i, hi, u, v, t, hsub, hrest⟩ := h.passed reply hp
    exact ⟨i, hi, u, v, t, hsub.cons s, hrest⟩

theorem Traced.move (h : c.Traced past k) (hk : s.calls[k]? = some c)
    (hm : Moves s.net c m c') : c'.Traced (s :: past) k where
  ok := h.ok.move hm
  routed := by
    intro i hi
    rw [hm.request.1]
    rcases hm.info hi with hi | hr
    · exact (h.mono s).routed i hi
    · exact ⟨s, List.mem_cons_self, hr.2, c, hk, hr.1⟩
  answered := by
    intro reply hr
    rw [hm.request.1]
    rcases hm.answer hr with hr | hr
    · obtain ⟨i, hi, hrest⟩ := (h.mono s).answered reply hr
      exact ⟨i, h.ok.info_kept hm hi, hrest⟩
    · obtain ⟨i, hi⟩ := h.ok.info_of_dispatch (by simp [hr])
      obtain ⟨t, ht, hroute⟩ := h.routed i hi
      refine ⟨i, h.ok.info_kept hm hi, s, t, ?_, hroute, c, hk, hr⟩
      exact (List.singleton_sublist.mpr ht).cons_cons s
  passed := by
    intro reply hp
    rw [hm.request.1]
    rcases hm.passed hp with hp | ⟨i, hi, hans, halive⟩
    · obtain ⟨i, hi, hrest⟩ := (h.mono s).passed reply hp
      exact ⟨i, h.ok.info_kept hm hi, hrest⟩
    · have hdone := h.ok.dispatch_of_answered hans
      obtain ⟨j, hj, v, t, hsub, hroute, hrun⟩ := h.answered reply (by rw [hdone]; rfl)
      obtain rfl := Option.some.inj (hi.symm.trans hj)
      exact ⟨i, h.ok.info_kept hm hi, s, v, t, hsub.cons_cons s, hroute, hrun, halive, c, hk, hans⟩

end Call

namespace State

variable [DecidableEq ε] [DecidableEq ν] {size : β → Nat} {s : State ε ν β}
  {h : List (State ε ν β)}

/-- Every call of a run can be traced back. -/
theorem traced_of_run (run : (network ε ν size).Run (fun _ _ => True) (s :: h)) :
    ∀ (k : Nat) (c : Call ε ν β), s.calls[k]? = some c → c.Traced h k := by
  refine History.head_induction (P := fun s h => ∀ (k : Nat) (c : Call ε ν β),
    s.calls[k]? = some c → c.Traced h k) ?_ ?_ run
  · intro k c hk
    cases hk
  · intro s t h _ ih hn k c' hk
    obtain ⟨e, _, ht⟩ := (network ε ν size).next_cons.mp hn
    rcases (stepped ht).calls hk with hk | ⟨endname, svcMeth, args, rfl⟩ | ⟨m, c, hk, hm⟩
    · exact (ih k c' hk).mono s
    · exact Call.make_traced endname svcMeth args
    · exact (ih k c hk).move hk hm

end State

/-- A call that returned a reply was routed, its handler ran, and after that its end was
enabled and its server still the one that the name stood for. The handler has given no
other reply, and it was given the request that was sent. -/
theorem reply_truthful {ε ν β : Type} [DecidableEq ε] [DecidableEq ν] (size : β → Nat)
    {s : State ε ν β} {h : List (State ε ν β)}
    (run : (network ε ν size).Run (fun _ _ => True) (s :: h)) {k : Nat} {c : Call ε ν β}
    (hk : s.calls[k]? = some c) {reply : β}
    (hret : c.caller = .returned ⟨true, some reply⟩) :
    (∃ i u v t, [u, v, t].Sublist h ∧ t.Routes k c.endname i ∧ v.Handles k ∧
        u.Checks k c.endname i reply) ∧
      ∀ t ∈ h, ∀ c', t.calls[k]? = some c' → c'.endname = c.endname ∧
        c'.svcMeth = c.svcMeth ∧ c'.args = c.args ∧
        ∀ r, c'.dispatch.answer = some r → r = reply := by
  have htraced := State.traced_of_run run k c hk
  obtain ⟨i, hi, u, v, t, hsub, hroute, hrun, hcheck⟩ :=
    htraced.passed reply (Or.inr (Or.inr hret))
  refine ⟨⟨i, u, v, t, hsub, hroute, hrun, hcheck⟩, ?_⟩
  intro t ht c' hk'
  have hlater := State.calls_of_run (R := Call.Later) .refl (fun _ _ _ => .trans)
    (fun _ _ _ _ hok hm => hok.later hm) run
  obtain ⟨c'', hk'', hl⟩ := List.rel_of_pairwise_cons hlater ht k c' hk'
  obtain rfl := Option.some.inj (hk.symm.trans hk'')
  refine ⟨hl.endname.symm, hl.svcMeth.symm, hl.args.symm, ?_⟩
  intro r hr
  obtain ⟨_, _, hdone⟩ := htraced.ok.info_of_passed (Or.inr (Or.inr hret))
  have hsame := hl.answer r hr
  rw [hdone] at hsame
  exact (Option.some.inj hsame).symm

/-- A call whose handler returned 7 returned 7. -/
theorem reply_truthful_one_call :
    ∃ s h c, (network Nat Nat id).Run (fun _ _ => True) (s :: h) ∧ s.calls[0]? = some c ∧
      c.caller = .returned ⟨true, some 7⟩ ∧ (∃ t ∈ h, t.Handles 0) ∧
      ∀ t ∈ h, ∀ c', t.calls[0]? = some c' → c'.args = c.args := by
  obtain ⟨h, run, s, hs, c, hk, hret⟩ :=
    (network Nat Nat id).exists_run_of_replay (fun _ _ => True)
      (oneCall ++ [.move 0 (.handlerReturns 7), .move 0 .takeReply, .move 0 (.conclude .send),
        .move 0 .weigh, .move 0 .deliver])
      (fun h => ∃ s, h.head? = some s ∧ ∃ c, s.calls[0]? = some c ∧
        c.caller = .returned ⟨true, some 7⟩)
      (by decide +kernel)
  obtain ⟨s', h, rfl⟩ := run.exists_head
  obtain rfl := Option.some.inj hs
  obtain ⟨⟨i, u, v, t, hsub, _, hv, _⟩, hsame⟩ := reply_truthful id run hk hret
  refine ⟨s', h, c, run, hk, hret, ⟨v, hsub.subset (by simp), hv⟩, ?_⟩
  exact fun t ht c' hk' => (hsame t ht c' hk').2.2.1

end LabRpc
