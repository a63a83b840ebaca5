import DistributedLabs.Raft.Linked
import DistributedLabs.Raft.Effects
import DistributedLabs.Rpc.Calls

/-!
What holds between the goroutines of the peers and their calls. Every call in the network
belongs to one goroutine; it carries that goroutine's request to the server of its peer,
and a goroutine that has gone on has a call that returned.
-/

/-- Tickets below `size` are all held, and each by one holder only. -/
structure Tickets {γ : Type} (size : Nat) (R : Nat → γ → Prop) : Prop where
  held : ∀ k < size, ∃ g, R k g
  bounded : ∀ k g, R k g → k < size
  once : ∀ k g g', R k g → R k g' → g = g'

namespace Tickets

variable {γ : Type} {size : Nat} {R R' : Nat → γ → Prop}

theorem congr (h : Tickets size R) (heq : ∀ k g, R' k g ↔ R k g) : Tickets size R' where
  held := fun k hk => (h.held k hk).imp fun g => (heq k g).mpr
  bounded := fun k g hg => h.bounded k g ((heq k g).mp hg)
  once := fun k g g' hg hg' => h.once k g g' ((heq k g).mp hg) ((heq k g').mp hg')

/-- The next ticket goes to one holder. -/
theorem issue (h : Tickets size R) (g₀ : γ)
    (heq : ∀ k g, R' k g ↔ R k g ∨ k = size ∧ g = g₀) : Tickets (size + 1) R' where
  held := by
    intro k hk
    rcases Nat.lt_succ_iff_lt_or_eq.mp hk with hk | rfl
    · obtain ⟨g, hg⟩ := h.held k hk
      exact ⟨g, (heq k g).mpr (Or.inl hg)⟩
    · exact ⟨g₀, (heq _ g₀).mpr (Or.inr ⟨rfl, rfl⟩)⟩
  bounded := by
    intro k g hg
    rcases (heq k g).mp hg with hg | ⟨rfl, _⟩
    · exact Nat.lt_succ_of_lt (h.bounded k g hg)
    · exact Nat.lt_succ_self _
  once := by
    intro k g g' hg hg'
    rcases (heq k g).mp hg with hg | ⟨rfl, rfl⟩ <;>
      rcases (heq k g').mp hg' with hg' | ⟨hk, rfl⟩
    · exact h.once k g g' hg hg'
    · exact absurd (h.bounded k g hg) (hk ▸ Nat.lt_irrefl _)
    · exact absurd (h.bounded _ g' hg') (Nat.lt_irrefl _)
    · rfl

end Tickets

namespace RaftLab

variable {n : Nat} {α : Type}

/-- The call that the goroutine has entered. -/
def Voter.call : Voter → Option Nat
  | .calling k | .done k => some k
  | .self | .spawned => none

/-- A goroutine that may hold a call: one of `handleAppendEntries`, or one of an election
for a peer. -/
inductive Holder (n : Nat)
  | append (j : Nat)
  | vote (j : Nat) (peer : Fin n)

namespace Linked

/-- Later the network still knows every call. -/
def Later (rpc rpc' : Rpc n α) : Prop :=
  ∀ (k : Nat) c, rpc.calls[k]? = some c → ∃ c', rpc'.calls[k]? = some c' ∧ c.Later c'

/-- The network routes a call of an end only to the server of the end's peer. -/
structure NetOk (rpc : Rpc n α) : Prop where
  ok : rpc.Ok
  connections : ∀ e, rpc.net.connections e = some e.2
  servers : ∀ (name : Fin n) server, rpc.net.servers name = some server → server = name
  info : ∀ c ∈ rpc.calls, ∀ i, c.info = some i → i.server = c.endname.2

/-- The call is the one of a goroutine of `handleAppendEntries`. -/
structure AppendOk (rpc : Rpc n α) (a : LinkedAppend n α) : Prop where
  spawned : a.caller = .spawned → a.call = none
  called : ∀ k, a.call = some k → ∃ c, rpc.calls[k]? = some c ∧
    c.endname = (a.leader, a.server) ∧ c.svcMeth = appendEntriesMethod ∧
    c.args = .appendArgs a.args ∧ (a.caller = .calling ∨ ∃ rep, c.caller = .returned rep)

/-- The call is the one of the goroutine of an election for `peer`. -/
def VoteOk (rpc : Rpc n α) (el : LinkedElection n) (peer : Fin n) : Prop :=
  ∀ k, (el.peers peer).call = some k → ∃ c, rpc.calls[k]? = some c ∧
    c.endname = (el.candidate, peer) ∧ c.svcMeth = requestVoteMethod ∧
    c.args = .voteArgs el.request ∧ (el.peers peer = .calling k ∨ ∃ rep, c.caller = .returned rep)

/-- The goroutine holds the call. -/
def Holds (s : Linked n α) (k : Nat) : Holder n → Prop
  | .append j => ∃ a, s.appends[j]? = some a ∧ a.call = some k
  | .vote j peer => ∃ el, s.elections[j]? = some el ∧ (el.peers peer).call = some k

structure Ok (s : Linked n α) : Prop where
  net : NetOk s.rpc
  append : ∀ a ∈ s.appends, AppendOk s.rpc a
  vote : ∀ el ∈ s.elections, ∀ peer, VoteOk s.rpc el peer
  tickets : Tickets s.rpc.calls.length s.Holds

variable {s t : Linked n α} {rpc rpc' : Rpc n α} {size : Message n α → Nat}
  {e : LabRpc.Event (EndName n) (Fin n) (Message n α)}

theorem AppendOk.later {a : LinkedAppend n α} (h : AppendOk rpc a) (hl : Later rpc rpc') :
    AppendOk rpc' a where
  spawned := h.spawned
  called := by
    intro k hk
    obtain ⟨c, hc, hend, hmeth, hargs, hret⟩ := h.called k hk
    obtain ⟨c', hc', hlater⟩ := hl k c hc
    exact ⟨c', hc', hlater.endname.trans hend, hlater.svcMeth.trans hmeth,
      hlater.args.trans hargs, hret.imp_right fun ⟨rep, hr⟩ => ⟨rep, hlater.returned rep hr⟩⟩

theorem VoteOk.later {el : LinkedElection n} {peer : Fin n} (h : VoteOk rpc el peer)
    (hl : Later rpc rpc') : VoteOk rpc' el peer := by
  intro k hk
  obtain ⟨c, hc, hend, hmeth, hargs, hret⟩ := h k hk
  obtain ⟨c', hc', hlater⟩ := hl k c hc
  exact ⟨c', hc', hlater.endname.trans hend, hlater.svcMeth.trans hmeth,
    hlater.args.trans hargs, hret.imp_right fun ⟨rep, hr⟩ => ⟨rep, hlater.returned rep hr⟩⟩

theorem NetOk.laterOf (h : NetOk rpc) (hs : rpc.Stepped rpc' e) : Later rpc rpc' :=
  h.ok.calls_kept .refl (fun _ _ _ _ _ hc hm => hc.later hm) hs

/-- What `readEndnameInfo` finds is the server of the end's peer. -/
theorem NetOk.server_of_read (h : NetOk rpc) {endname : EndName n} {i : LabRpc.Info (Fin n)}
    (hi : rpc.net.readEndnameInfo endname = some i) : i.server = endname.2 := by
  unfold LabRpc.Network.readEndnameInfo at hi
  split at hi
  · rw [h.connections endname] at hi
    dsimp only at hi
    split at hi
    · cases hi
    · rename_i server hserver
      cases hi
      exact h.servers _ _ hserver
  · cases hi

theorem NetOk.step (h : NetOk rpc) (hs : rpc.Stepped rpc' e) (he : e.builds = false) :
    NetOk rpc' where
  ok := h.ok.step hs
  connections := fun e' => by rw [(hs.settled he).connections, h.connections]
  servers := fun name server hn => h.servers name server ((hs.settled he).servers _ _ hn)
  info := by
    intro c' hc' i hi
    obtain ⟨k, hk⟩ := List.mem_iff_getElem?.mp hc'
    rcases hs.calls hk with hk | ⟨endname, svcMeth, args, rfl⟩ | ⟨m, c, hk, hm⟩
    · exact h.info c' (List.mem_of_getElem? hk) i hi
    · cases hi
    · rw [hm.request.1]
      rcases hm.info hi with hi | ⟨_, hread⟩
      · exact h.info c (List.mem_of_getElem? hk) i hi
      · exact h.server_of_read hread

theorem init_ok (unreliable : Bool) : (init unreliable : Linked n α).Ok where
  net :=
    { ok := fun _ hc => absurd hc List.not_mem_nil
      connections := fun _ => rfl
      servers := by
        intro name server h
        exact (Option.some.inj h).symm
      info := fun _ hc => absurd hc List.not_mem_nil }
  append := fun _ ha => absurd ha List.not_mem_nil
  vote := fun _ hel => absurd hel List.not_mem_nil
  tickets :=
    { held := fun _ hk => absurd hk (Nat.not_lt_zero _)
      bounded := by
        rintro k (j | ⟨j, peer⟩) ⟨_, hj, _⟩ <;> cases hj
      once := by
        rintro k (j | ⟨j, peer⟩) g' ⟨_, hj, _⟩ <;> cases hj }

/-- Steps that leave the goroutines and the network alone. -/
theorem Ok.congr (hs : s.Ok) (hrpc : t.rpc = s.rpc) (happ : t.appends = s.appends)
    (hel : t.elections = s.elections) : t.Ok where
  net := hrpc ▸ hs.net
  append := by rw [hrpc, happ]; exact hs.append
  vote := by rw [hrpc, hel]; exact hs.vote
  tickets := by
    rw [hrpc]
    refine hs.tickets.congr ?_
    rintro k (j | ⟨j, peer⟩) <;> simp only [Holds, happ, hel]

theorem Ok.setRaft (hs : s.Ok) (i : Fin n) (rf : Raft n α) : (s.setRaft i rf).Ok :=
  hs.congr rfl rfl rfl

theorem Ok.panic (hs : s.Ok) (i : Fin n) : (s.panic i).Ok := hs.congr rfl rfl rfl

theorem Ok.spawn (hs : s.Ok) (calls : List (AppendCall n α)) : (s.spawn calls).Ok where
  net := hs.net
  append := by
    intro a ha
    rcases List.mem_append.mp ha with ha | ha
    · exact hs.append a ha
    · obtain ⟨c, _, rfl⟩ := List.mem_map.mp ha
      exact ⟨fun _ => rfl, fun k hk => by cases hk⟩
  vote := hs.vote
  tickets := by
    refine hs.tickets.congr ?_
    rintro k (j | ⟨j, peer⟩)
    · simp only [Holds, Linked.spawn, List.getElem?_append, List.getElem?_map]
      split
      · rfl
      · rename_i hj
        rw [List.getElem?_eq_none (Nat.le_of_not_lt hj)]
        simp [LinkedAppend.of]
    · rfl

theorem Ok.setAppend (hs : s.Ok) {k : Nat} {a : LinkedAppend n α} (hk : s.appends[k]? = some a)
    (a' : LinkedAppend n α) (hcall : a'.call = a.call) (ha' : AppendOk s.rpc a') :
    (s.setAppend k a').Ok where
  net := hs.net
  append := by
    intro b hb
    rcases List.mem_or_eq_of_mem_set hb with hb | rfl
    · exact hs.append b hb
    · exact ha'
  vote := hs.vote
  tickets := by
    refine hs.tickets.congr ?_
    rintro m (j | ⟨j, peer⟩)
    · simp only [Holds, Linked.setAppend, List.getElem?_set]
      split
      · rename_i hkj
        subst hkj
        rw [if_pos (List.getElem?_eq_some_iff.mp hk).1, hk]
        simp [hcall]
      · rfl
    · rfl

theorem Ok.setElection (hs : s.Ok) {k : Nat} {el el' : LinkedElection n}
    (hk : s.elections[k]? = some el) (hcall : ∀ peer, (el'.peers peer).call = (el.peers peer).call)
    (hel' : ∀ peer, VoteOk s.rpc el' peer) : (s.setElection k el').Ok where
  net := hs.net
  append := hs.append
  vote := by
    intro b hb
    rcases List.mem_or_eq_of_mem_set hb with hb | rfl
    · exact hs.vote b hb
    · exact hel'
  tickets := by
    refine hs.tickets.congr ?_
    rintro m (j | ⟨j, peer⟩)
    · rfl
    · simp only [Holds, Linked.setElection, List.getElem?_set]
      split
      · rename_i hkj
        subst hkj
        rw [if_pos (List.getElem?_eq_some_iff.mp hk).1, hk]
        simp [hcall]
      · rfl

/-- An election that nobody has been called for. -/
theorem Ok.addElection (hs : s.Ok) {el : LinkedElection n}
    (hcall : ∀ peer, (el.peers peer).call = none) :
    ({ s with elections := s.elections ++ [el] } : Linked n α).Ok where
  net := hs.net
  append := hs.append
  vote := by
    intro el' hel'
    rcases List.mem_append.mp hel' with hel' | hel'
    · exact hs.vote el' hel'
    · obtain rfl := List.mem_singleton.mp hel'
      intro peer k hk
      rw [hcall] at hk
      cases hk
  tickets := by
    refine hs.tickets.congr ?_
    rintro k (j | ⟨j, peer⟩)
    · rfl
    · simp only [Holds, List.getElem?_append]
      split
      · rfl
      · rename_i hj
        rw [List.getElem?_eq_none (Nat.le_of_not_lt hj)]
        simp only [List.getElem?_singleton]
        split <;> simp [hcall]

/-- A step of the network that is not a new call. -/
theorem Ok.setRpc (hs : s.Ok) (hstep : s.rpc.Stepped rpc' e) (he : e.builds = false)
    (hlen : rpc'.calls.length = s.rpc.calls.length) :
    ({ s with rpc := rpc' } : Linked n α).Ok where
  net := hs.net.step hstep he
  append := fun a ha => (hs.append a ha).later (hs.net.laterOf hstep)
  vote := fun el hel peer => (hs.vote el hel peer).later (hs.net.laterOf hstep)
  tickets := by
    rw [hlen]
    exact hs.tickets.congr fun k g => by cases g <;> rfl

/-- The network after a new call. -/
theorem calls_of_call {endname : EndName n} {svcMeth : List Char} {args : Message n α}
    (h : rpc.step size (.call endname svcMeth args) = some rpc') :
    rpc'.calls = rpc.calls ++ [.make endname svcMeth args] := by
  unfold LabRpc.State.step at h
  split at h
  · cases h
  · dsimp only at h
    split at h
    · cases h
      rfl
    · cases h

theorem getElem?_of_call {endname : EndName n} {svcMeth : List Char} {args : Message n α}
    (h : rpc.step size (.call endname svcMeth args) = some rpc') :
    rpc'.calls[rpc.calls.length]? = some (.make endname svcMeth args) := by
  simp [calls_of_call h]

/-- A goroutine of `handleAppendEntries` enters its call. -/
theorem Ok.callAppend (hs : s.Ok) {k : Nat} {a : LinkedAppend n α}
    (hk : s.appends[k]? = some a) (hspawned : a.caller = .spawned)
    (hstep : s.rpc.step size
      (.call (a.leader, a.server) appendEntriesMethod (.appendArgs a.args)) = some rpc') :
    ({ s.setAppend k { a with caller := .calling, call := some s.rpc.calls.length } with
      rpc := rpc' } : Linked n α).Ok where
  net := hs.net.step (LabRpc.State.stepped hstep) rfl
  append := by
    have hl := hs.net.laterOf (LabRpc.State.stepped hstep)
    intro b hb
    rcases List.mem_or_eq_of_mem_set hb with hb | rfl
    · exact (hs.append b hb).later hl
    · refine ⟨fun h => Caller.noConfusion h, fun j hj => ?_⟩
      obtain rfl := Option.some.inj hj
      exact ⟨_, getElem?_of_call hstep, rfl, rfl, rfl, Or.inl rfl⟩
  vote := fun el hel peer =>
    (hs.vote el hel peer).later (hs.net.laterOf (LabRpc.State.stepped hstep))
  tickets := by
    rw [calls_of_call hstep, List.length_append, List.length_singleton]
    refine hs.tickets.issue (.append k) ?_
    have hnone := (hs.append a (List.mem_of_getElem? hk)).spawned hspawned
    rintro m (j | ⟨j, peer⟩)
    · simp only [Holds, Linked.setAppend, List.getElem?_set]
      by_cases hkj : k = j
      · subst hkj
        rw [if_pos rfl, if_pos (List.getElem?_eq_some_iff.mp hk).1, hk]
        simp [hnone, eq_comm]
      · simp [hkj, Ne.symm hkj]
    · simp [Holds, Linked.setAppend]

/-- A goroutine of an election enters its call. -/
theorem Ok.callVote (hs : s.Ok) {k : Nat} {el : LinkedElection n} {peer : Fin n}
    (hk : s.elections[k]? = some el) (hspawned : el.peers peer = .spawned)
    (hstep : s.rpc.step size
      (.call (el.candidate, peer) requestVoteMethod (.voteArgs el.request)) = some rpc') :
    ({ s.setElection k { el with
        peers := Function.update el.peers peer (.calling s.rpc.calls.length) } with
      rpc := rpc' } : Linked n α).Ok where
  net := hs.net.step (LabRpc.State.stepped hstep) rfl
  append := fun a ha => (hs.append a ha).later (hs.net.laterOf (LabRpc.State.stepped hstep))
  vote := by
    have hl := hs.net.laterOf (LabRpc.State.stepped hstep)
    intro b hb
    rcases List.mem_or_eq_of_mem_set hb with hb | rfl
    · exact fun p => (hs.vote b hb p).later hl
    · intro p
      by_cases hp : p = peer
      · subst hp
        intro j hj
        simp only [Function.update_self, Voter.call, Option.some.injEq] at hj
        subst hj
        exact ⟨_, getElem?_of_call hstep, rfl, rfl, rfl, by simp⟩
      · have h := (hs.vote el (List.mem_of_getElem? hk) p).later hl
        intro j
        simp only [Function.update_of_ne hp]
        exact h j
  tickets := by
    rw [calls_of_call hstep, List.length_append, List.length_singleton]
    refine hs.tickets.issue (.vote k peer) ?_
    rintro m (j | ⟨j, p⟩)
    · simp [Holds, Linked.setElection]
    · simp only [Holds, Linked.setElection, List.getElem?_set]
      by_cases hkj : k = j
      · subst hkj
        rw [if_pos rfl, if_pos (List.getElem?_eq_some_iff.mp hk).1, hk]
        by_cases hp : p = peer
        · subst hp
          simp [hspawned, Voter.call, eq_comm]
        · simp [hp]
      · simp [hkj, Ne.symm hkj]

end Linked

end RaftLab
