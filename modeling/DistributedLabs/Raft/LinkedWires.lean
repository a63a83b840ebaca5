import DistributedLabs.Raft.LinkedInvariant

/-!
The cluster that the peers and their network stand for. The wire of a goroutine is read off
its call: a request until the handler has answered, then the reply, and closed once the
goroutine has gone on with it. A wire changes only with the answer of its own handler.
-/

namespace RaftLab

variable {n : Nat} {α : Type}

/-- A goroutine of the first incarnation that has not run. -/
def AppendCall.Fresh (c : AppendCall n α) : Prop :=
  c.incarnation = 0 ∧ c.caller = .spawned ∧ c.wire = .unsent

namespace Raft

variable {rf rf' : Raft n α} {me server : Fin n} {calls : List (AppendCall n α)}

theorem spawnAppend_fresh {c : AppendCall n α} (h : spawnAppend me 0 rf server = some c) :
    c.Fresh := by
  simp only [spawnAppend, Option.bind_eq_bind, Option.bind_eq_some_iff] at h
  obtain ⟨_, _, _, _, _, _, hc⟩ := h
  cases hc
  exact ⟨rfl, rfl, rfl⟩

theorem sendHeartbeats_fresh (h : sendHeartbeats me 0 rf = some calls) :
    ∀ c ∈ calls, c.Fresh := by
  intro c hc
  obtain ⟨_, _, hspawn⟩ := GoSlice.mapM_mem h c hc
  exact spawnAppend_fresh hspawn

theorem heartbeatTick_fresh (h : heartbeatTick me 0 rf = some (rf', calls)) :
    ∀ c ∈ calls, c.Fresh := by
  rcases heartbeatTick_cases h with ⟨_, _, rfl⟩ | ⟨_, _, hsend⟩
  · exact fun _ hc => absurd hc List.not_mem_nil
  · exact sendHeartbeats_fresh hsend

theorem start_fresh {command : Option α} {index term : Int} {isLeader : Bool}
    (h : start me 0 rf command = some (rf', calls, index, term, isLeader)) :
    ∀ c ∈ calls, c.Fresh := by
  rcases start_cases h with ⟨_, _, rfl, _⟩ | ⟨_, _, _, _, _, hsend⟩
  · exact fun _ hc => absurd hc List.not_mem_nil
  · exact sendHeartbeats_fresh hsend

theorem respAppendEntries_fresh {expected : Int} {args : AppendEntriesArgs n α}
    {reply : AppendEntriesReply}
    (h : respAppendEntries me 0 rf server expected args reply = some (rf', calls)) :
    ∀ c ∈ calls, c.Fresh := by
  rcases respAppendEntries_cases h with
    ⟨_, _, rfl⟩ | ⟨_, _, ⟨_, _, rfl⟩ | ⟨_, _, rfl, _⟩ | ⟨_, _, _, c, hspawn, rfl⟩⟩
  · exact fun _ hc => absurd hc List.not_mem_nil
  · exact fun _ hc => absurd hc List.not_mem_nil
  · exact fun _ hc => absurd hc List.not_mem_nil
  · intro c' hc'
    rw [List.mem_singleton.mp hc']
    exact spawnAppend_fresh hspawn

theorem countVote_fresh {request : RequestVoteArgs n} {totalVotes totalVotes' : Nat}
    {response : RequestVoteReply}
    (h : countVote me 0 rf request totalVotes response = some (rf', totalVotes', calls)) :
    ∀ c ∈ calls, c.Fresh := by
  rcases countVote_cases h with
    ⟨_, _, rfl⟩ | ⟨_, _, _, _, _, rfl⟩ | ⟨_, _, _, _, _, rfl⟩ | ⟨_, _, _, hsend⟩
  · exact fun _ hc => absurd hc List.not_mem_nil
  · exact fun _ hc => absurd hc List.not_mem_nil
  · exact fun _ hc => absurd hc List.not_mem_nil
  · exact sendHeartbeats_fresh hsend

end Raft

namespace Linked

/-- The reply of the handler of a call. -/
def answer (rpc : Rpc n α) (k : Nat) : Option (Message n α) :=
  (rpc.calls[k]?).bind fun c => c.dispatch.answer

/-- The call has returned a reply. -/
def succeeded (rpc : Rpc n α) (k : Nat) : Bool :=
  match (rpc.calls[k]?).map LabRpc.Call.caller with
  | some (.returned rep) => rep.ok
  | _ => false

def appendAnswer : Option (Message n α) → Wire AppendEntriesReply
  | some (.appendReply reply) => .reply reply
  | _ => .request

def voteAnswer : Option (Message n α) → Wire RequestVoteReply
  | some (.voteReply reply) => .reply reply
  | _ => .request

/-- What is under way for a goroutine of `handleAppendEntries`. -/
def appendWire (rpc : Rpc n α) (a : LinkedAppend n α) : Wire AppendEntriesReply :=
  match a.call with
  | none => .unsent
  | some k =>
      if a.caller ≠ .calling ∧ succeeded rpc k = true then .closed
      else appendAnswer (answer rpc k)

/-- What is under way for a goroutine of an election. -/
def voteWire (rpc : Rpc n α) : Voter → Wire RequestVoteReply
  | .self => .closed
  | .spawned => .request
  | .calling k => voteAnswer (answer rpc k)
  | .done k => if succeeded rpc k = true then .closed else voteAnswer (answer rpc k)

def toAppend (rpc : Rpc n α) (a : LinkedAppend n α) : AppendCall n α where
  leader := a.leader
  incarnation := 0
  server := a.server
  expectedNextIndex := a.expectedNextIndex
  args := a.args
  caller := a.caller
  wire := appendWire rpc a

def toElection (rpc : Rpc n α) (el : LinkedElection n) : Election n where
  candidate := el.candidate
  incarnation := 0
  request := el.request
  totalVotes := el.totalVotes
  peers := fun peer => voteWire rpc (el.peers peer)

/-- The cluster that the peers and their network stand for. -/
def toSystem (s : Linked n α) : System n α where
  rafts := s.rafts
  panicked := s.panicked
  incarnation := fun _ => 0
  elections := s.elections.map (toElection s.rpc)
  appends := s.appends.map (toAppend s.rpc)
  starts := s.starts

variable {s t : Linked n α} {rpc rpc' : Rpc n α} {size : Message n α → Nat}
  {e : LabRpc.Event (EndName n) (Fin n) (Message n α)}

theorem toSystem_init (unreliable : Bool) :
    toSystem (init unreliable : Linked n α) = System.init := rfl

/-- One peer of the cluster. -/
theorem toSystem_at (s : Linked n α) (i : Fin n) :
    (toSystem s).rafts i = s.rafts i ∧ (toSystem s).panicked i = s.panicked i ∧
      (toSystem s).incarnation i = 0 :=
  ⟨rfl, rfl, rfl⟩

theorem toSystem_setRaft (i : Fin n) (rf : Raft n α) :
    toSystem (s.setRaft i rf) = (toSystem s).setRaft i rf := rfl

theorem toAppend_of {c : AppendCall n α} (h : c.Fresh) : toAppend rpc (.of c) = c := by
  obtain ⟨leader, incarnation, server, expectedNextIndex, args, caller, wire⟩ := c
  obtain ⟨rfl, rfl, rfl⟩ := h
  rfl

theorem toSystem_spawn {calls : List (AppendCall n α)} (h : ∀ c ∈ calls, c.Fresh) :
    toSystem (s.spawn calls) = (toSystem s).spawn calls := by
  have heq : calls.map (toAppend s.rpc ∘ LinkedAppend.of) = calls := by
    conv_rhs => rw [← List.map_id calls]
    exact List.map_congr_left fun c hc => toAppend_of (h c hc)
  simp only [toSystem, spawn, System.spawn, List.map_append, List.map_map, heq]

theorem toSystem_addElection (i : Fin n) (request : RequestVoteArgs n) :
    toSystem { s with elections := s.elections ++
        [⟨i, request, 1, fun j => if j = i then .self else .spawned⟩] } =
      { toSystem s with elections :=
        (toSystem s).elections ++ [conductElection i 0 request] } := by
  have hpeers : toElection s.rpc ⟨i, request, 1, fun j => if j = i then .self else .spawned⟩ =
      conductElection i 0 request := by
    simp only [toElection, conductElection]
    congr 1
    funext j
    split <;> rfl
  simp only [toSystem, List.map_append, List.map_cons, List.map_nil, hpeers]

theorem toSystem_setAppend (k : Nat) (a : LinkedAppend n α) :
    toSystem (s.setAppend k a) = (toSystem s).setCall k (toAppend s.rpc a) := by
  simp only [toSystem, setAppend, System.setCall, List.map_set]

theorem toSystem_setElection (k : Nat) (el : LinkedElection n) :
    toSystem (s.setElection k el) = (toSystem s).setElection k (toElection s.rpc el) := by
  simp only [toSystem, setElection, System.setElection, List.map_set]

theorem toSystem_appends {k : Nat} {a : LinkedAppend n α} (hk : s.appends[k]? = some a) :
    (toSystem s).appends[k]? = some (toAppend s.rpc a) := by
  simp [toSystem, hk]

theorem toSystem_elections {k : Nat} {el : LinkedElection n} (hk : s.elections[k]? = some el) :
    (toSystem s).elections[k]? = some (toElection s.rpc el) := by
  simp [toSystem, hk]

/-- A call that has returned has succeeded or not, whatever happens later. -/
theorem succeeded_later (hl : Later rpc rpc') {k : Nat} {c}
    (hk : rpc.calls[k]? = some c) {rep} (hret : c.caller = .returned rep) :
    succeeded rpc' k = succeeded rpc k := by
  obtain ⟨c', hk', hlater⟩ := hl k c hk
  simp [succeeded, hk, hk', hret, hlater.returned rep hret]

/-- The wire of a goroutine changes only with the answer of its own handler. -/
theorem appendWire_later {a : LinkedAppend n α} (ha : AppendOk rpc a) (hl : Later rpc rpc')
    (hans : ∀ k, a.call = some k → answer rpc' k = answer rpc k) :
    appendWire rpc' a = appendWire rpc a := by
  unfold appendWire
  cases hcall : a.call with
  | none => rfl
  | some k =>
      obtain ⟨c, hk, _, _, _, hcaller⟩ := ha.called k hcall
      dsimp only
      rw [hans k hcall]
      rcases hcaller with hcalling | ⟨rep, hret⟩
      · simp [hcalling]
      · rw [succeeded_later hl hk hret]

theorem toAppend_later {a : LinkedAppend n α} (ha : AppendOk rpc a) (hl : Later rpc rpc')
    (hans : ∀ k, a.call = some k → answer rpc' k = answer rpc k) :
    toAppend rpc' a = toAppend rpc a := by
  simp only [toAppend, appendWire_later ha hl hans]

theorem voteWire_later {el : LinkedElection n} {peer : Fin n} (hel : VoteOk rpc el peer)
    (hl : Later rpc rpc')
    (hans : ∀ k, (el.peers peer).call = some k → answer rpc' k = answer rpc k) :
    voteWire rpc' (el.peers peer) = voteWire rpc (el.peers peer) := by
  unfold VoteOk at hel
  cases hp : el.peers peer with
  | self | spawned => rfl
  | calling k =>
      rw [hp] at hans
      simp only [voteWire, hans k rfl]
  | done k =>
      rw [hp] at hel hans
      obtain ⟨c, hk, _, _, _, hcaller⟩ := hel k rfl
      rcases hcaller with hcalling | ⟨rep, hret⟩
      · cases hcalling
      · simp only [voteWire, hans k rfl, succeeded_later hl hk hret]

/-- No step but the handler's changes an answer. -/
theorem answer_of_step (hok : rpc.Ok) (h : rpc.Stepped rpc' e)
    (he : ∀ k m, e = .move k m → m.byHandler = false) (k : Nat) :
    answer rpc' k = answer rpc k := by
  cases h with
  | setup _ _ heq _ => rw [answer, answer, heq]
  | call endname svcMeth args _ heq =>
      rw [answer, answer, heq, List.getElem?_append]
      split
      · rfl
      · rename_i hk
        rw [List.getElem?_eq_none (Nat.le_of_not_lt hk), List.getElem?_singleton]
        split <;> rfl
  | move j m c c' hj hm _ heq =>
      rw [answer, answer, heq, List.getElem?_set]
      split
      · rename_i hjk
        subst hjk
        rw [if_pos (List.getElem?_eq_some_iff.mp hj).1, hj]
        exact (hok c (List.mem_of_getElem? hj)).answer_eq hm (he j m rfl)
      · rfl

/-- A new call is not a step of a handler. -/
theorem quiet_of_call {endname : EndName n} {svcMeth : List Char} {args : Message n α}
    (k : Nat) (m : LabRpc.Move (Message n α))
    (h : (.call endname svcMeth args : LabRpc.Event (EndName n) (Fin n) (Message n α)) =
      .move k m) : m.byHandler = false := by
  cases h

/-- The network changes no wire by itself. -/
theorem Ok.toSystem_setRpc (hs : s.Ok) (h : s.rpc.Stepped rpc' e)
    (he : ∀ k m, e = .move k m → m.byHandler = false) :
    toSystem { s with rpc := rpc' } = toSystem s := by
  have hl := hs.net.laterOf h
  have hans := answer_of_step hs.net.ok h he
  have happ : s.appends.map (toAppend rpc') = s.appends.map (toAppend s.rpc) :=
    List.map_congr_left fun a ha => toAppend_later (hs.append a ha) hl fun k _ => hans k
  have hel : s.elections.map (toElection rpc') = s.elections.map (toElection s.rpc) := by
    refine List.map_congr_left fun el hel => ?_
    simp only [toElection]
    congr 1
    funext peer
    exact voteWire_later (hs.vote el hel peer) hl fun k _ => hans k
  simp only [toSystem, happ, hel]

theorem answer_of_call {endname : EndName n} {svcMeth : List Char} {args : Message n α}
    (h : rpc.step size (.call endname svcMeth args) = some rpc') :
    answer rpc' rpc.calls.length = none := by
  rw [answer, getElem?_of_call h]
  rfl

/-- A goroutine of the cluster that goes on, with what is then under way for it. -/
theorem toAppend_wire {a : LinkedAppend n α} {caller : Caller} {call : Option Nat}
    {w : Wire AppendEntriesReply}
    (h : appendWire rpc' { a with caller := caller, call := call } = w) :
    toAppend rpc' { a with caller := caller, call := call } =
      { toAppend rpc a with caller := caller, wire := w } := by
  subst h
  rfl

/-- An election of the cluster in which one goroutine goes on. -/
theorem toElection_update {el : LinkedElection n} {peer : Fin n} {v : Voter}
    (totalVotes : Nat) {w : Wire RequestVoteReply} (h : voteWire rpc v = w) :
    toElection rpc { el with
        totalVotes := totalVotes, peers := Function.update el.peers peer v } =
      { toElection rpc el with
        totalVotes := totalVotes
        peers := Function.update (toElection rpc el).peers peer w } := by
  subst h
  simp only [toElection]
  congr 1
  funext p
  by_cases hp : p = peer
  · subst hp
    simp
  · simp [hp]

/-- What a call returned is what its handler answered. -/
theorem NetOk.answer_of_returned (h : NetOk rpc) {k : Nat} {c} (hk : rpc.calls[k]? = some c)
    {m : Message n α} (hret : c.caller = .returned ⟨true, some m⟩) : answer rpc k = some m := by
  have hc := h.ok c (List.mem_of_getElem? hk)
  obtain ⟨_, _, hdone⟩ := hc.info_of_passed (Or.inr (Or.inr hret))
  simp [answer, hk, hdone, LabRpc.Dispatch.answer]

/-- A call whose handler runs has not returned a reply. -/
theorem succeeded_of_handling (h : NetOk rpc) {k : Nat} {c} (hk : rpc.calls[k]? = some c)
    (hd : c.dispatch.answer = none) : succeeded rpc k = false := by
  have hc := h.ok c (List.mem_of_getElem? hk)
  obtain ⟨endname, svcMeth, args, info, caller, process, dispatch, draining⟩ := c
  simp only [LabRpc.Call.Ok] at hc
  simp only [succeeded, hk, Option.map_some]
  cases hc <;> first | rfl | cases hd

/-- The handler of one call answers. -/
theorem answer_of_handler {k : Nat} {m : Message n α}
    (h : rpc.Stepped rpc' (.move k (.handlerReturns m))) :
    answer rpc' k = some m ∧ (∀ j, j ≠ k → answer rpc' j = answer rpc j) ∧
      rpc'.calls.length = rpc.calls.length := by
  cases h with
  | setup _ hne _ _ => exact absurd rfl (hne k _)
  | move _ _ c c' hk hm _ heq =>
      refine ⟨?_, fun j hj => ?_, by rw [heq, List.length_set]⟩
      · rw [answer, heq, List.getElem?_set, if_pos rfl,
          if_pos (List.getElem?_eq_some_iff.mp hk).1]
        cases hm
        rfl
      · rw [answer, answer, heq, List.getElem?_set_ne hj.symm]

/-- The image of a list under two functions that differ in one place. -/
theorem map_eq_set {β γ : Type} {l : List β} {f f' : β → γ} {j : Nat} {b : β} {x : γ}
    (hj : l[j]? = some b) (hb : f' b = x)
    (hother : ∀ (i : Nat) c, i ≠ j → l[i]? = some c → f' c = f c) :
    l.map f' = (l.map f).set j x := by
  refine List.ext_getElem? fun i => ?_
  rw [List.getElem?_map, List.getElem?_set, List.length_map, List.getElem?_map]
  split
  · rename_i hij
    subst hij
    rw [if_pos (List.getElem?_eq_some_iff.mp hj).1, hj]
    exact congrArg some hb
  · rename_i hij
    cases hi : l[i]? with
    | none => rfl
    | some c => simp [hother i c (Ne.symm hij) hi]

/-- Only the goroutine that holds a call sees the answer of its handler. -/
theorem Ok.toAppend_other (hs : s.Ok) {k : Nat} {m : Message n α}
    (h : s.rpc.Stepped rpc' (.move k (.handlerReturns m))) {j : Nat} {a : LinkedAppend n α}
    (hj : s.appends[j]? = some a) (hne : ∀ g, s.Holds k g → g ≠ .append j) :
    toAppend rpc' a = toAppend s.rpc a := by
  refine toAppend_later (hs.append a (List.mem_of_getElem? hj)) (hs.net.laterOf h) ?_
  intro i hi
  refine (answer_of_handler h).2.1 i ?_
  rintro rfl
  exact hne (.append j) ⟨a, hj, hi⟩ rfl

theorem Ok.voteWire_other (hs : s.Ok) {k : Nat} {m : Message n α}
    (h : s.rpc.Stepped rpc' (.move k (.handlerReturns m))) {j : Nat} {el : LinkedElection n}
    {peer : Fin n} (hj : s.elections[j]? = some el)
    (hne : ∀ g, s.Holds k g → g ≠ .vote j peer) :
    voteWire rpc' (el.peers peer) = voteWire s.rpc (el.peers peer) := by
  refine voteWire_later (hs.vote el (List.mem_of_getElem? hj) peer) (hs.net.laterOf h) ?_
  intro i hi
  refine (answer_of_handler h).2.1 i ?_
  rintro rfl
  exact hne (.vote j peer) ⟨el, hj, hi⟩ rfl

/-- `AppendEntries` has answered. -/
theorem Ok.toSystem_append (hs : s.Ok) {k j : Nat} {reply : AppendEntriesReply}
    (h : s.rpc.Stepped rpc' (.move k (.handlerReturns (.appendReply reply))))
    {a : LinkedAppend n α} (hj : s.appends[j]? = some a) (hcall : a.call = some k)
    (hopen : a.caller = .calling ∨ succeeded rpc' k = false) :
    toSystem { s with rpc := rpc' } =
      (toSystem s).setCall j { toAppend s.rpc a with wire := .reply reply } := by
  have honly : ∀ g, s.Holds k g → g = .append j := fun g hg =>
    hs.tickets.once k g _ hg ⟨a, hj, hcall⟩
  have hwire : appendWire rpc' a = .reply reply := by
    rcases hopen with hopen | hopen <;>
      simp [appendWire, hcall, hopen, (answer_of_handler h).1, appendAnswer]
  have happ : s.appends.map (toAppend rpc') = (s.appends.map (toAppend s.rpc)).set j
      { toAppend s.rpc a with wire := .reply reply } := by
    refine map_eq_set hj (toAppend_wire hwire) fun i b hij hi => ?_
    refine hs.toAppend_other h hi fun g hg => ?_
    rw [honly g hg]
    exact fun heq => hij (Holder.append.inj heq).symm
  have hel : s.elections.map (toElection rpc') = s.elections.map (toElection s.rpc) := by
    refine List.map_congr_left fun el hel => ?_
    obtain ⟨i, hi⟩ := List.mem_iff_getElem?.mp hel
    simp only [toElection]
    congr 1
    funext peer
    refine hs.voteWire_other h hi fun g hg => ?_
    rw [honly g hg]
    intro heq
    cases heq
  simp only [toSystem, System.setCall, happ, hel]

/-- `RequestVote` has answered. -/
theorem Ok.toSystem_vote (hs : s.Ok) {k j : Nat} {peer : Fin n} {reply : RequestVoteReply}
    (h : s.rpc.Stepped rpc' (.move k (.handlerReturns (.voteReply reply))))
    {el : LinkedElection n} (hj : s.elections[j]? = some el)
    (hcall : (el.peers peer).call = some k)
    (hopen : el.peers peer = .calling k ∨ succeeded rpc' k = false) :
    toSystem { s with rpc := rpc' } = (toSystem s).setElection j
      { toElection s.rpc el with
        peers := Function.update (toElection s.rpc el).peers peer (.reply reply) } := by
  have honly : ∀ g, s.Holds k g → g = .vote j peer := fun g hg =>
    hs.tickets.once k g _ hg ⟨el, hj, hcall⟩
  have hwire : voteWire rpc' (el.peers peer) = .reply reply := by
    cases hv : el.peers peer with
    | self | spawned =>
        rw [hv] at hcall
        cases hcall
    | calling i =>
        rw [hv] at hcall
        cases hcall
        simp [voteWire, (answer_of_handler h).1, voteAnswer]
    | done i =>
        rw [hv] at hcall hopen
        cases hcall
        have hnot := hopen.resolve_left fun heq => Voter.noConfusion heq
        simp [voteWire, hnot, (answer_of_handler h).1, voteAnswer]
  have happ : s.appends.map (toAppend rpc') = s.appends.map (toAppend s.rpc) := by
    refine List.map_congr_left fun a ha => ?_
    obtain ⟨i, hi⟩ := List.mem_iff_getElem?.mp ha
    refine hs.toAppend_other h hi fun g hg => ?_
    rw [honly g hg]
    intro heq
    cases heq
  have hel : s.elections.map (toElection rpc') = (s.elections.map (toElection s.rpc)).set j
      { toElection s.rpc el with
        peers := Function.update (toElection s.rpc el).peers peer (.reply reply) } := by
    refine map_eq_set hj ?_ fun i b hij hi => ?_
    · simp only [toElection]
      congr 1
      funext p
      by_cases hp : p = peer
      · subst hp
        rw [Function.update_self, hwire]
      · rw [Function.update_of_ne hp]
        refine hs.voteWire_other h hj fun g hg => ?_
        rw [honly g hg]
        exact fun heq => hp (Holder.vote.inj heq).2.symm
    · simp only [toElection]
      congr 1
      funext p
      refine hs.voteWire_other h hi fun g hg => ?_
      rw [honly g hg]
      exact fun heq => hij (Holder.vote.inj heq).1.symm
  simp only [toSystem, System.setElection, happ, hel]

end Linked

end RaftLab
