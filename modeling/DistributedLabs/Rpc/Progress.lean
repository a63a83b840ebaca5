import DistributedLabs.Rpc.Calls

/-!
A call returns unless its handler does not. The rank of a call bounds the steps that its
goroutines still take; a look at the tables that finds the server alive is the only step
that leaves it as it was.
-/

namespace LabRpc

variable {ε ν β : Type}

def Process.rank : Process β → Nat
  | .started => 8
  | .routed => 7
  | .serving => 6
  | .answered _ | .gaveUp => 5
  | .weighing _ => 4
  | .replying _ => 3
  | .idle | .finished => 0

def Dispatch.rank : Dispatch β → Nat
  | .dispatching => 3
  | .handling => 2
  | .returned _ => 1
  | .idle | .done _ => 0

namespace Call

variable {rn : Network ε ν} {c c' : Call ε ν β} {m : Move β}

/-- How many steps the goroutines of the call may still take before it returns. -/
def rank (c : Call ε ν β) : Nat :=
  match c.caller with
  | .sending => 40
  | .waiting => 4 * c.process.rank + c.dispatch.rank
  | .returned _ => 0

theorem Ok.rank_le (hc : c.Ok) (h : Moves rn c m c') : c'.rank ≤ c.rank := by
  obtain ⟨endname, svcMeth, args, info, caller, process, dispatch, draining⟩ := c
  simp only [Ok] at hc
  cases h with
  | fail i fate _ h =>
      rcases h with h | ⟨reply, h⟩ <;> obtain rfl := h <;> cases hc <;> simp [rank, Process.rank]
  | _ =>
      simp_all only
      subst_vars
      cases hc <;> simp [rank, Process.rank, Dispatch.rank]

/-- A call that waits for the handler of a server that is alive. -/
def AwaitsHandler (c : Call ε ν β) (rn : Network ε ν) : Prop :=
  c.process = .serving ∧ c.dispatch = .handling ∧
    ∃ i, c.info = some i ∧ rn.isServerDead c.endname i = false

/-- A step of the network brings the call closer to its return. -/
def Advances (c : Call ε ν β) (rn : Network ε ν) (m : Move β) : Prop :=
  m.byHandler = false ∧ ∃ c', c.move rn m = some c' ∧ c'.rank < c.rank

theorem Ok.progress (hc : c.Ok) (hnet : rn.listening = true ∨ rn.done = true)
    (hret : ∀ rep, c.caller ≠ .returned rep) :
    c.AwaitsHandler rn ∨ ∃ m, c.Advances rn m := by
  obtain ⟨endname, svcMeth, args, info, caller, process, dispatch, draining⟩ := c
  simp only [Ok] at hc
  cases hc with
  | sending =>
      rcases hnet with hl | hd
      · exact Or.inr ⟨.accept, rfl, by simp [Call.move, hl, rank, Process.rank, Dispatch.rank]⟩
      · exact Or.inr ⟨.abort, rfl, by simp [Call.move, hd, rank]⟩
  | aborted | unrouted | failed | succeeded => exact absurd rfl (hret _)
  | started =>
      refine Or.inr ⟨.route, rfl, ?_⟩
      cases hr : rn.readEndnameInfo endname <;> simp [Call.move, hr, rank, Process.rank]
  | routed i =>
      exact Or.inr ⟨.dispatch, rfl, by simp [Call.move, rank, Process.rank, Dispatch.rank]⟩
  | unroutable | failing | replying =>
      refine Or.inr ⟨.deliver, rfl, ?_⟩
      simp only [Call.move, Option.some.injEq, exists_eq_left', rank, Process.rank]
      omega
  | weighing i reply =>
      exact Or.inr ⟨.weigh, rfl, by simp [Call.move, rank, Process.rank]⟩
  | answered i reply =>
      refine Or.inr ⟨.conclude .send, rfl, ?_⟩
      cases hd : rn.isServerDead endname i <;>
        simp [Call.move, Call.conclude, hd, rank, Process.rank]
  | gaveUp i =>
      refine Or.inr ⟨.conclude .send, rfl, ?_⟩
      cases hd : rn.isServerDead endname i <;>
        simp [Call.move, Call.conclude, hd, rank, Process.rank]
  | serving i _ hactive =>
      cases dispatch with
      | idle | done => cases hactive
      | dispatching => exact Or.inr ⟨.lookup, rfl, by simp [Call.move, rank, Dispatch.rank]⟩
      | returned reply =>
          exact Or.inr ⟨.takeReply, rfl, by simp [Call.move, rank, Process.rank, Dispatch.rank]⟩
      | handling =>
          cases hd : rn.isServerDead endname i with
          | true => exact Or.inr ⟨.poll, rfl, by simp [Call.move, hd, rank, Process.rank]⟩
          | false => exact Or.inl ⟨rfl, rfl, i, rfl, hd⟩

end Call

namespace State

variable {size : β → Nat} {s t : State ε ν β} {e : Event ε ν β}

/-- A network that takes no more requests has been cleaned up. -/
def Serves (s : State ε ν β) : Prop := s.net.listening = true ∨ s.net.done = true

theorem Serves.init : (init : State ε ν β).Serves := Or.inl rfl

theorem serves_charge (c : Call ε ν β) (m : Move β) : (s.charge size c m).Serves ↔ s.Serves := by
  unfold charge
  split
  · rfl
  · rfl
  · dsimp only
    split
    · rfl
    · split <;> rfl
  · rfl

variable [DecidableEq ε] [DecidableEq ν]

theorem Serves.setup (hs : s.Serves) (h : s.stepSetup e = some t) : t.Serves := by
  cases e <;> simp only [stepSetup] at h
  case cleanup =>
    split at h <;> cases h
    · exact hs
    · exact Or.inr rfl
  case stopListening =>
    split at h
    · cases h
      exact Or.inr (by simp_all)
    · cases h
  all_goals (repeat' split at h) <;> first | cases h; exact hs | cases h

theorem Serves.step (hs : s.Serves) (h : s.step size e = some t) : t.Serves := by
  unfold State.step at h
  split at h
  · cases h
  · split at h
    · split at h
      · cases h
        exact hs
      · cases h
    · simp only [stepMove] at h
      split at h
      · cases h
      · split at h
        · cases h
        · cases h
          exact (serves_charge _ _).mpr hs
    · exact hs.setup h

/-- What a call can do by itself it can do in the network. -/
theorem step_of_advances (size : β → Nat) {k : Nat} {c : Call ε ν β} {m : Move β}
    (hs : s.exited = false) (hk : s.calls[k]? = some c) (h : c.Advances s.net m) :
    ∃ t c', (network ε ν size).step s (.move k m) = some t ∧ t.calls[k]? = some c' ∧
      c'.rank < c.rank := by
  obtain ⟨_, c', hm, hlt⟩ := h
  refine ⟨{ s.charge size c m with calls := s.calls.set k c' }, c', ?_, ?_, hlt⟩
  · simp only [network, State.step, hs, stepMove, hk, hm]
    rfl
  · exact List.getElem?_set_self (List.getElem?_eq_some_iff.mp hk).1

end State

/-- A call that has not returned waits for the handler of a server that is alive, or one of
its own steps is enabled and brings it closer to its return; and nothing that happens ever
takes it further away. -/
theorem call_returns {ε ν β : Type} [DecidableEq ε] [DecidableEq ν] (size : β → Nat)
    {s : State ε ν β} {h : List (State ε ν β)}
    (run : (network ε ν size).Run (fun _ _ => True) (s :: h)) {k : Nat} {c : Call ε ν β}
    (hk : s.calls[k]? = some c) :
    (∀ t ∈ h, ∀ c', t.calls[k]? = some c' → c.rank ≤ c'.rank) ∧
      (s.exited = false → (∀ rep, c.caller ≠ .returned rep) →
        c.AwaitsHandler s.net ∨
          ∃ m t c', m.byHandler = false ∧
            (network ε ν size).step s (.move k m) = some t ∧
            t.calls[k]? = some c' ∧ c'.rank < c.rank) := by
  refine ⟨?_, ?_⟩
  · intro t ht c' hk'
    have hrank := State.calls_of_run (R := fun c c' => c'.rank ≤ c.rank) (fun _ => Nat.le_refl _)
      (fun _ _ _ h h' => Nat.le_trans h' h) (fun _ _ _ _ hok hm => hok.rank_le hm) run
    obtain ⟨c'', hk'', hle⟩ := List.rel_of_pairwise_cons hrank ht k c' hk'
    obtain rfl := Option.some.inj (hk.symm.trans hk'')
    exact hle
  · intro hs hret
    have hok := State.ok_of_run run s List.mem_cons_self c (List.mem_of_getElem? hk)
    have hserves := run.invariant (I := State.Serves) .init
      (fun _ _ _ hs _ ht => State.Serves.step hs ht) s List.mem_cons_self
    rcases hok.progress hserves hret with hwait | ⟨m, hadv⟩
    · exact Or.inl hwait
    · obtain ⟨t, c', ht, hk', hlt⟩ := State.step_of_advances size hs hk hadv
      exact Or.inr ⟨m, t, c', hadv.1, ht, hk', hlt⟩

/-- A call whose handler runs, and whose server has been deleted, gives up. -/
theorem call_returns_dead_server :
    ∃ s h c, (network Nat Nat id).Run (fun _ _ => True) (s :: h) ∧ s.calls[0]? = some c ∧
      c.dispatch = .handling ∧ s.net.servers 1 = none ∧
      ∃ m t c', m.byHandler = false ∧
        (network Nat Nat id).step s (.move 0 m) = some t ∧
        t.calls[0]? = some c' ∧ c'.rank < c.rank := by
  obtain ⟨h, run, s, hs, c, hk, hd, hw, hi, hnone, hlive⟩ :=
    (network Nat Nat id).exists_run_of_replay (fun _ _ => True) (oneCall ++ [.deleteServer 1])
      (fun h => ∃ s, h.head? = some s ∧ ∃ c, s.calls[0]? = some c ∧ c.dispatch = .handling ∧
        c.caller = .waiting ∧ c.info.map Info.servername = some 1 ∧ s.net.servers 1 = none ∧
        s.exited = false)
      (by decide +kernel)
  obtain ⟨s', h, rfl⟩ := run.exists_head
  obtain rfl := Option.some.inj hs
  refine ⟨s', h, c, run, hk, hd, hnone, ?_⟩
  rcases (call_returns id run hk).2 hlive (by simp [hw]) with ⟨_, _, i, hi', hdead⟩ | hstep
  · rw [hi'] at hi
    simp [Network.isServerDead, Option.some.inj hi, hnone] at hdead
  · exact hstep

end LabRpc
