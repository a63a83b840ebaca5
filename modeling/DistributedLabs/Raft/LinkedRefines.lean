import DistributedLabs.Raft.LinkedWires
import DistributedLabs.Library.Refinement

/-!
The peers over labrpc refine the cluster with its abstract wires. What labrpc does to a
call, losing it, delaying it, giving up on it or cutting its peer off, is invisible; only
the handler's run and the return of the call are steps of the cluster.
-/

namespace RaftLab

variable {n : Nat} {α : Type}

namespace System

variable {s : System n α} {k : Nat} {c : AppendCall n α}

theorem handleAppend_eq (hk : s.appends[k]? = some c) (hg : c.caller = .spawned ∧ s.Runs c)
    {rf' : Raft n α} {sends : Bool}
    (hh : (s.rafts c.leader).handleAppendEntries c.args = (rf', sends)) :
    s.step (.handleAppend k) = some ((s.setRaft c.leader rf').setCall k
      (if sends then { c with caller := .calling, wire := .request }
        else { c with caller := .done })) := by
  simp only [step, stepHandleAppend, hk, if_pos hg, hh]

theorem unwind_eq (hk : s.appends[k]? = some c) (hg : c.caller = .unwinding ∧ s.Runs c) :
    s.step (.unwind k) = some ((s.setRaft c.leader (s.rafts c.leader).persist).setCall k
      { c with caller := .done }) := by
  simp only [step, stepUnwind, hk, if_pos hg]

theorem callFails_eq (hk : s.appends[k]? = some c) (hg : c.caller = .calling ∧ s.Runs c) :
    s.step (.callFails k) = some (s.setCall k { c with caller := .unwinding }) := by
  simp only [step, stepCallFails, hk, if_pos hg]

theorem appendReply_panic {reply : AppendEntriesReply} (hk : s.appends[k]? = some c)
    (hw : c.wire = .reply reply) (hg : c.caller = .calling ∧ s.Runs c)
    (hr : (s.rafts c.leader).respAppendEntries c.leader (s.incarnation c.leader) c.server
      c.expectedNextIndex c.args reply = none) :
    s.step (.appendReply k) = some (s.panic c.leader) := by
  simp only [step, stepAppendReply, hk, hw, if_pos hg, hr]

theorem appendReply_eq {reply : AppendEntriesReply} (hk : s.appends[k]? = some c)
    (hw : c.wire = .reply reply) (hg : c.caller = .calling ∧ s.Runs c)
    {rf' : Raft n α} {calls : List (AppendCall n α)}
    (hr : (s.rafts c.leader).respAppendEntries c.leader (s.incarnation c.leader) c.server
      c.expectedNextIndex c.args reply = some (rf', calls))
    (hroom : rf'.hasCommittedChan ≤ committedCapacity) :
    s.step (.appendReply k) = some (((s.setRaft c.leader rf').setCall k
      { c with caller := .unwinding, wire := .closed }).spawn calls) := by
  simp only [step, stepAppendReply, hk, hw, if_pos hg, hr, if_pos hroom]

theorem appendEntries_panic (hk : s.appends[k]? = some c)
    (hg : c.wire = .request ∧ s.panicked c.server = false)
    (hr : (s.rafts c.server).appendEntries c.args = none) :
    s.step (.appendEntries k) = some (s.panic c.server) := by
  simp only [step, stepAppendEntries, hk, if_pos hg, hr]

theorem appendEntries_eq (hk : s.appends[k]? = some c)
    (hg : c.wire = .request ∧ s.panicked c.server = false)
    {rf' : Raft n α} {response : AppendEntriesReply}
    (hr : (s.rafts c.server).appendEntries c.args = some (rf', response))
    (hroom : rf'.hasCommittedChan ≤ committedCapacity) :
    s.step (.appendEntries k) = some ((s.setRaft c.server rf').setCall k
      { c with wire := .reply response }) := by
  simp only [step, stepAppendEntries, hk, if_pos hg, hr, if_pos hroom]

variable {el : Election n} {peer : Fin n}

theorem setElection_self (hk : s.elections[k]? = some el) : s.setElection k el = s := by
  obtain ⟨hlt, rfl⟩ := List.getElem?_eq_some_iff.mp hk
  simp [setElection]

theorem requestVote_panic (hk : s.elections[k]? = some el)
    (hg : el.peers peer = .request ∧ s.panicked peer = false)
    (hr : (s.rafts peer).requestVote el.request = none) :
    s.step (.requestVote k peer) = some (s.panic peer) := by
  simp only [step, stepRequestVote, hk, if_pos hg, hr]

theorem requestVote_eq (hk : s.elections[k]? = some el)
    (hg : el.peers peer = .request ∧ s.panicked peer = false)
    {rf' : Raft n α} {reply : RequestVoteReply}
    (hr : (s.rafts peer).requestVote el.request = some (rf', reply)) :
    s.step (.requestVote k peer) = some ((s.setRaft peer rf').setElection k
      { el with peers := Function.update el.peers peer (.reply reply) }) := by
  simp only [step, stepRequestVote, hk, if_pos hg, hr]

theorem voteReply_panic {response : RequestVoteReply} (hk : s.elections[k]? = some el)
    (hw : el.peers peer = .reply response)
    (hg : s.panicked el.candidate = false ∧ s.incarnation el.candidate = el.incarnation)
    (hr : (s.rafts el.candidate).countVote el.candidate (s.incarnation el.candidate)
      el.request el.totalVotes response = none) :
    s.step (.voteReply k peer) = some (s.panic el.candidate) := by
  simp only [step, stepVoteReply, hk, hw, if_pos hg, hr]

theorem voteReply_eq {response : RequestVoteReply} (hk : s.elections[k]? = some el)
    (hw : el.peers peer = .reply response)
    (hg : s.panicked el.candidate = false ∧ s.incarnation el.candidate = el.incarnation)
    {rf' : Raft n α} {totalVotes : Nat} {calls : List (AppendCall n α)}
    (hr : (s.rafts el.candidate).countVote el.candidate (s.incarnation el.candidate)
      el.request el.totalVotes response = some (rf', totalVotes, calls)) :
    s.step (.voteReply k peer) = some (((s.setRaft el.candidate rf').setElection k
      { el with
        totalVotes := totalVotes
        peers := Function.update el.peers peer .closed }).spawn calls) := by
  simp only [step, stepVoteReply, hk, hw, if_pos hg, hr]

end System

namespace Linked

variable {s t : Linked n α} {rpc rpc' : Rpc n α} {size : Message n α → Nat}
  {e : LabRpc.Event (EndName n) (Fin n) (Message n α)}

/-- A step of the peers over labrpc is one of the cluster, or leaves it as it is. -/
def Simulates (s t : Linked n α) : Prop :=
  toSystem t = toSystem s ∨
    ∃ d, NoRestart (toSystem s) d ∧ (toSystem s).step d = some (toSystem t)

/-- What is shown of every step. -/
structure Refines (s t : Linked n α) : Prop where
  ok : t.Ok
  simulates : Simulates s t

theorem Refines.same (ht : t.Ok) (h : toSystem t = toSystem s) : Refines s t := ⟨ht, Or.inl h⟩

theorem Refines.event (ht : t.Ok) (d : Event n α) (hd : NoRestart (toSystem s) d)
    (h : (toSystem s).step d = some (toSystem t)) : Refines s t :=
  ⟨ht, Or.inr ⟨d, hd, h⟩⟩

theorem Ok.heartbeatTick (hs : s.Ok) {i : Fin n} (h : s.stepHeartbeatTick i = some t) :
    Refines s t := by
  unfold stepHeartbeatTick at h
  dsimp only at h
  split at h
  · rename_i hg
    cases hr : (s.rafts i).heartbeatTick i 0 with
    | none =>
        rw [hr] at h
        cases h
        refine .event (hs.panic i) (.heartbeatTick i) trivial ?_
        simp only [System.step, System.stepHeartbeatTick, toSystem_at]
        rw [if_pos hg, hr]
        rfl
    | some r =>
        obtain ⟨rf', calls⟩ := r
        rw [hr] at h
        cases h
        refine .event ((hs.setRaft i rf').spawn calls) (.heartbeatTick i) trivial ?_
        simp only [System.step, System.stepHeartbeatTick, toSystem_at]
        rw [if_pos hg, hr, toSystem_spawn (Raft.heartbeatTick_fresh hr)]
        rfl
  · cases h

theorem Ok.electionTick (hs : s.Ok) {i : Fin n} (h : s.stepElectionTick i = some t) :
    Refines s t := by
  unfold stepElectionTick at h
  dsimp only at h
  split at h
  · rename_i hg
    cases hr : (s.rafts i).electionTick i with
    | none =>
        rw [hr] at h
        cases h
        refine .event (hs.panic i) (.electionTick i) trivial ?_
        simp only [System.step, System.stepElectionTick, toSystem_at]
        rw [if_pos hg, hr]
        rfl
    | some r =>
        obtain ⟨rf', request⟩ := r
        rw [hr] at h
        cases request with
        | none =>
            cases h
            refine .event (hs.setRaft i rf') (.electionTick i) trivial ?_
            simp only [System.step, System.stepElectionTick, toSystem_at]
            rw [if_pos hg, hr]
            rfl
        | some request =>
            cases h
            refine .event ((hs.setRaft i rf').addElection ?_) (.electionTick i) trivial ?_
            · intro peer
              dsimp only
              split <;> rfl
            · simp only [System.step, System.stepElectionTick, toSystem_at]
              rw [if_pos hg, hr]
              exact congrArg some (toSystem_addElection (s := s.setRaft i rf') i request).symm
  · cases h

theorem Ok.start (hs : s.Ok) {i : Fin n} {command : Option α}
    (h : s.stepStart i command = some t) : Refines s t := by
  unfold stepStart at h
  split at h
  · rename_i hg
    cases hr : (s.rafts i).start i 0 command with
    | none =>
        rw [hr] at h
        cases h
        refine .event (hs.panic i) (.start i command) trivial ?_
        simp only [System.step, System.stepStart, toSystem_at]
        rw [if_pos hg, hr]
        rfl
    | some r =>
        obtain ⟨rf', calls, index, term, isLeader⟩ := r
        rw [hr] at h
        cases h
        refine .event (((hs.setRaft i rf').spawn calls).congr rfl rfl rfl) (.start i command)
          trivial ?_
        simp only [System.step, System.stepStart, toSystem_at]
        rw [if_pos hg, hr]
        have hspawn := toSystem_spawn (s := s.setRaft i rf') (Raft.start_fresh hr)
        simp only [toSystem_setRaft] at hspawn
        dsimp only
        rw [← hspawn]
        rfl
  · cases h

theorem Ok.applyLock (hs : s.Ok) {i : Fin n} (h : s.stepApplyLock i = some t) :
    Refines s t := by
  unfold stepApplyLock at h
  split at h
  · rename_i htop
    split at h
    · rename_i hg
      cases hr : (s.rafts i).applyLock with
      | none =>
          rw [hr] at h
          cases h
          refine .event (hs.panic i) (.applyLock i) trivial ?_
          simp only [System.step, System.stepApplyLock, toSystem_at, htop]
          rw [if_pos hg, hr]
          rfl
      | some rf' =>
          rw [hr] at h
          cases h
          refine .event (hs.setRaft i rf') (.applyLock i) trivial ?_
          simp only [System.step, System.stepApplyLock, toSystem_at, htop]
          rw [if_pos hg, hr]
          rfl
    · cases h
  · cases h

theorem Ok.applyReceive (hs : s.Ok) {i : Fin n} (h : s.stepApplyReceive i = some t) :
    Refines s t := by
  unfold stepApplyReceive at h
  split at h
  · rename_i hwait
    split at h
    · rename_i hg
      cases h
      refine .event (hs.setRaft i _) (.applyReceive i) trivial ?_
      simp only [System.step, System.stepApplyReceive, toSystem_at, hwait]
      rw [if_pos hg]
      rfl
    · cases h
  · cases h

theorem Ok.applySend (hs : s.Ok) {i : Fin n} (h : s.stepApplySend i = some t) :
    Refines s t := by
  unfold stepApplySend at h
  split at h
  · rename_i entries hsend
    split at h
    · rename_i hg
      cases h
      refine .event (hs.setRaft i _) (.applySend i) trivial ?_
      simp only [System.step, System.stepApplySend, toSystem_at, hsend]
      rw [if_pos hg]
      rfl
    · cases h
  · cases h

theorem Ok.kill (hs : s.Ok) (i : Fin n) :
    Refines s (s.setRaft i { s.rafts i with dead := true }) :=
  .event (hs.setRaft i _) (.kill i) trivial rfl

theorem onNetwork_eq (h : s.onNetwork size e = some t) :
    ∃ rpc', s.rpc.step size e = some rpc' ∧ t = { s with rpc := rpc' } := by
  obtain ⟨rpc', hstep, rfl⟩ := Option.map_eq_some_iff.mp h
  exact ⟨rpc', hstep, rfl⟩

theorem Ok.handleAppend (hs : s.Ok) {k : Nat} (h : s.stepHandleAppend size k = some t) :
    Refines s t := by
  unfold stepHandleAppend at h
  cases hk : s.appends[k]? with
  | none =>
      rw [hk] at h
      cases h
  | some a =>
      rw [hk] at h
      dsimp only at h
      split at h
      · rename_i hg
        have ha := hs.append a (List.mem_of_getElem? hk)
        have hnone := ha.spawned hg.1
        rcases hh : (s.rafts a.leader).handleAppendEntries a.args with ⟨rf', sends⟩
        have hstep' := System.handleAppend_eq (toSystem_appends hk) ⟨hg.1, hg.2, rfl⟩ hh
        rw [hh] at h
        cases sends with
        | true =>
            simp only [if_true] at h
            obtain ⟨rpc', hstep, rfl⟩ := onNetwork_eq h
            have hs' := hs.setRaft a.leader rf'
            refine .event (hs'.callAppend hk hg.1 hstep) (.handleAppend k) trivial
              (hstep'.trans (congrArg some ?_))
            have hquiet := hs'.toSystem_setRpc (LabRpc.State.stepped hstep) quiet_of_call
            have hwire : appendWire rpc' { a with
                caller := .calling, call := some s.rpc.calls.length } = .request := by
              have hans : answer rpc' s.rpc.calls.length = none := answer_of_call hstep
              simp [appendWire, hans, appendAnswer]
            exact (congrArg₂ (System.setCall · k ·) hquiet (toAppend_wire hwire)).symm.trans
              (toSystem_setAppend k _).symm
        | false =>
            simp only [Bool.false_eq_true, if_false] at h
            cases h
            refine .event ((hs.setRaft a.leader rf').setAppend hk { a with caller := .done }
              rfl ?_) (.handleAppend k) trivial (hstep'.trans (congrArg some ?_))
            · refine ⟨fun h => Caller.noConfusion h, fun j hj => ?_⟩
              rw [hnone] at hj
              cases hj
            · have hwire : appendWire s.rpc { a with caller := .done } = appendWire s.rpc a := by
                simp only [appendWire, hnone]
              rw [toSystem_setAppend]
              exact congrArg (System.setCall _ k) (toAppend_wire hwire).symm
      · cases h

theorem Ok.unwind (hs : s.Ok) {k : Nat} (h : s.stepUnwind k = some t) : Refines s t := by
  unfold stepUnwind at h
  cases hk : s.appends[k]? with
  | none =>
      rw [hk] at h
      cases h
  | some a =>
      rw [hk] at h
      dsimp only at h
      split at h
      · rename_i hg
        have ha := hs.append a (List.mem_of_getElem? hk)
        have hstep' := System.unwind_eq (toSystem_appends hk) ⟨hg.1, hg.2, rfl⟩
        cases h
        refine .event ((hs.setRaft _ _).setAppend hk { a with caller := .done } rfl ?_)
          (.unwind k) trivial (hstep'.trans (congrArg some ?_))
        · refine ⟨fun h => Caller.noConfusion h, fun j hj => ?_⟩
          obtain ⟨c, hc, hend, hmeth, hargs, hcaller⟩ := ha.called j hj
          refine ⟨c, hc, hend, hmeth, hargs, Or.inr (hcaller.resolve_left ?_)⟩
          rw [hg.1]
          exact fun h => Caller.noConfusion h
        · have hwire : appendWire s.rpc { a with caller := .done } = appendWire s.rpc a := by
            simp [appendWire, hg.1]
          rw [toSystem_setAppend]
          exact congrArg (System.setCall _ k) (toAppend_wire hwire).symm
      · cases h

/-- The goroutine's call has returned. -/
theorem AppendOk.returns {a : LinkedAppend n α} (ha : AppendOk rpc a) {k : Nat} {c}
    (hcall : a.call = some k) (hk : rpc.calls[k]? = some c) {rep}
    (hret : c.caller = .returned rep) : AppendOk rpc { a with caller := .unwinding } := by
  refine ⟨fun h => Caller.noConfusion h, fun j hj => ?_⟩
  obtain rfl := Option.some.inj (hcall.symm.trans hj)
  obtain ⟨c', hc, hend, hmeth, hargs, _⟩ := ha.called k hcall
  obtain rfl := Option.some.inj (hk.symm.trans hc)
  exact ⟨c, hc, hend, hmeth, hargs, Or.inr ⟨rep, hret⟩⟩

theorem Ok.appendReturns (hs : s.Ok) {k : Nat} (h : s.stepAppendReturns k = some t) :
    Refines s t := by
  unfold stepAppendReturns at h
  cases hk : s.appends[k]? with
  | none =>
      rw [hk] at h
      cases h
  | some a =>
      rw [hk] at h
      dsimp only at h
      have ha := hs.append a (List.mem_of_getElem? hk)
      split at h
      · rename_i reply hcalling hret
        simp only [Option.bind_eq_some_iff, Option.map_eq_some_iff] at hret
        obtain ⟨j, hcall, c, hj, hret⟩ := hret
        have hans := hs.net.answer_of_returned hj hret
        have hwire : appendWire s.rpc a = .reply reply := by
          simp [appendWire, hcall, hcalling, hans, appendAnswer]
        split at h
        · rename_i hp
          cases hr : (s.rafts a.leader).respAppendEntries a.leader 0 a.server
              a.expectedNextIndex a.args reply with
          | none =>
              rw [hr] at h
              cases h
              exact .event (hs.panic _) (.appendReply k) trivial
                (System.appendReply_panic (toSystem_appends hk) hwire ⟨hcalling, hp, rfl⟩ hr)
          | some r =>
              obtain ⟨rf', calls⟩ := r
              rw [hr] at h
              dsimp only at h
              split at h
              · rename_i hroom
                cases h
                refine .event (((hs.setRaft _ _).setAppend hk { a with caller := .unwinding }
                  rfl (ha.returns hcall hj hret)).spawn calls) (.appendReply k) trivial
                  ((System.appendReply_eq (toSystem_appends hk) hwire ⟨hcalling, hp, rfl⟩
                    hr hroom).trans (congrArg some ?_))
                have hclosed : appendWire s.rpc { a with caller := .unwinding } = .closed := by
                  simp [appendWire, hcall, succeeded, hj, hret]
                rw [toSystem_spawn (Raft.respAppendEntries_fresh hr), toSystem_setAppend]
                exact congrArg (fun c => System.spawn (System.setCall _ k c) calls)
                  (toAppend_wire hclosed).symm
              · cases h
        · cases h
      · rename_i out hcalling hret
        simp only [Option.bind_eq_some_iff, Option.map_eq_some_iff] at hret
        obtain ⟨j, hcall, c, hj, hret⟩ := hret
        split at h
        · rename_i hp
          cases h
          refine .event (hs.setAppend hk { a with caller := .unwinding } rfl
            (ha.returns hcall hj hret)) (.callFails k) trivial
            ((System.callFails_eq (toSystem_appends hk) ⟨hcalling, hp, rfl⟩).trans
              (congrArg some ?_))
          have hwire : appendWire s.rpc { a with caller := .unwinding } = appendWire s.rpc a := by
            simp [appendWire, hcall, hcalling, succeeded, hj, hret]
          rw [toSystem_setAppend]
          exact congrArg (System.setCall _ k) (toAppend_wire hwire).symm
        · cases h
      · cases h

/-- Entering the call of a vote is not seen in the cluster. -/
theorem Ok.callVoteRefines (hs : s.Ok) {k : Nat} {peer : Fin n}
    (h : s.stepCallVote size k peer = some t) : Refines s t := by
  unfold stepCallVote at h
  cases hk : s.elections[k]? with
  | none =>
      rw [hk] at h
      cases h
  | some el =>
      rw [hk] at h
      dsimp only at h
      split at h
      · rename_i hg
        obtain ⟨rpc', hstep, rfl⟩ := onNetwork_eq h
        refine .same (hs.callVote hk hg.1 hstep) ?_
        have hquiet := hs.toSystem_setRpc (LabRpc.State.stepped hstep) quiet_of_call
        have hans : answer rpc' s.rpc.calls.length = none := answer_of_call hstep
        have hlist : (toSystem { s with rpc := rpc' }).elections[k]? =
            some (toElection rpc' { el with
              peers := Function.update el.peers peer (.calling s.rpc.calls.length) }) := by
          have hwire : voteWire rpc' (.calling s.rpc.calls.length) =
              (toElection rpc' el).peers peer := by
            simp [toElection, hg.1, voteWire, hans, voteAnswer]
          rw [toSystem_elections (s := { s with rpc := rpc' }) hk,
            toElection_update el.totalVotes hwire, Function.update_eq_self]
          rfl
        refine Eq.trans ?_ hquiet
        refine (toSystem_setElection (s := { s with rpc := rpc' }) k _).trans ?_
        exact System.setElection_self hlist
      · cases h

theorem VoteOk.returns {el : LinkedElection n} (hel : ∀ p, VoteOk rpc el p) {peer : Fin n}
    {k : Nat} {c} (hcalling : el.peers peer = .calling k) (hk : rpc.calls[k]? = some c) {rep}
    (hret : c.caller = .returned rep) (totalVotes : Nat) (p : Fin n) :
    VoteOk rpc { el with
      totalVotes := totalVotes, peers := Function.update el.peers peer (.done k) } p := by
  have h := hel p
  unfold VoteOk at h ⊢
  by_cases hp : p = peer
  · subst hp
    rw [hcalling] at h
    intro j hj
    simp only [Function.update_self, Voter.call, Option.some.injEq] at hj
    subst hj
    obtain ⟨c', hc, hend, hmeth, hargs, _⟩ := h k rfl
    obtain rfl := Option.some.inj (hk.symm.trans hc)
    exact ⟨c, hc, hend, hmeth, hargs, Or.inr ⟨rep, hret⟩⟩
  · simpa only [Function.update_of_ne hp] using h

theorem Ok.voteReturns (hs : s.Ok) {k : Nat} {peer : Fin n}
    (h : s.stepVoteReturns k peer = some t) : Refines s t := by
  unfold stepVoteReturns at h
  cases hk : s.elections[k]? with
  | none =>
      rw [hk] at h
      cases h
  | some el =>
      rw [hk] at h
      dsimp only at h
      have hel := hs.vote el (List.mem_of_getElem? hk)
      split at h
      · rename_i j hcalling
        -- the call number stays with the goroutine
        have hcalls : ∀ p, (Function.update el.peers peer (.done j) p).call =
            (el.peers p).call := by
          intro p
          by_cases hp : p = peer
          · subst hp
            simp [hcalling, Voter.call]
          · simp [hp]
        split at h
        · rename_i response hret
          obtain ⟨c, hj, hret⟩ := Option.map_eq_some_iff.mp hret
          have hans := hs.net.answer_of_returned hj hret
          have hwire : (toElection s.rpc el).peers peer = .reply response := by
            simp [toElection, hcalling, voteWire, hans, voteAnswer]
          split at h
          · rename_i hp
            cases hr : (s.rafts el.candidate).countVote el.candidate 0 el.request
                el.totalVotes response with
            | none =>
                rw [hr] at h
                cases h
                exact .event (hs.panic _) (.voteReply k peer) trivial
                  (System.voteReply_panic (toSystem_elections hk) hwire ⟨hp, rfl⟩ hr)
            | some r =>
                obtain ⟨rf', totalVotes, calls⟩ := r
                rw [hr] at h
                cases h
                refine .event (((hs.setRaft _ _).setElection hk hcalls
                  (VoteOk.returns hel hcalling hj hret totalVotes)).spawn calls)
                  (.voteReply k peer) trivial
                  ((System.voteReply_eq (toSystem_elections hk) hwire ⟨hp, rfl⟩ hr).trans
                    (congrArg some ?_))
                have hclosed : voteWire s.rpc (.done j) = .closed := by
                  simp [voteWire, succeeded, hj, hret]
                rw [toSystem_spawn (Raft.countVote_fresh hr), toSystem_setElection]
                exact congrArg (fun el => System.spawn (System.setElection _ k el) calls)
                  (toElection_update totalVotes hclosed).symm
          · cases h
        · rename_i out hret
          obtain ⟨c, hj, hret⟩ := Option.map_eq_some_iff.mp hret
          split at h
          · cases h
            refine .same (hs.setElection hk hcalls
              (VoteOk.returns hel hcalling hj hret el.totalVotes)) ?_
            have hwire : voteWire s.rpc (.done j) = (toElection s.rpc el).peers peer := by
              simp [toElection, hcalling, voteWire, succeeded, hj, hret]
            rw [toSystem_setElection, toElection_update el.totalVotes hwire,
              Function.update_eq_self]
            exact System.setElection_self (toSystem_elections hk)
          · cases h
        · cases h
      · cases h

/-- What the network does by itself is not seen in the cluster. -/
theorem Ok.network (hs : s.Ok) (he : ofNetwork e = true) (h : s.onNetwork size e = some t) :
    Refines s t := by
  obtain ⟨rpc', hstep, rfl⟩ := onNetwork_eq h
  have hstepped := LabRpc.State.stepped hstep
  have hquiet : ∀ k m, e = .move k m → m.byHandler = false := by
    rintro k m rfl
    cases m with
    | handlerReturns => cases he
    | _ => rfl
  have hbuilds : e.builds = false := by
    cases e with
    | makeEnd | makeServer | addService | addServer | connect => cases he
    | _ => rfl
  refine .same (hs.setRpc hstepped hbuilds ?_) (hs.toSystem_setRpc hstepped hquiet)
  cases hstepped with
  | setup _ _ heq _ => rw [heq]
  | call => cases he
  | move _ _ _ _ _ _ _ heq => rw [heq, List.length_set]

/-- The run of the handler that a call was routed to. -/
def serveAt (size : Message n α → Nat) (s : Linked n α) (k : Nat)
    (c : LabRpc.Call (EndName n) (Fin n) (Message n α)) : Option (Linked n α) :=
  match (s.rafts c.endname.2).invoke c.svcMeth c.args with
  | none => some (s.panic c.endname.2)
  | some (rf', reply) =>
      if rf'.hasCommittedChan ≤ committedCapacity then
        (s.setRaft c.endname.2 rf').onNetwork size (.move k (.handlerReturns reply))
      else none

theorem Ok.serveAppend (hs : s.Ok) {k j : Nat} {c} (hk : s.rpc.calls[k]? = some c)
    (hd : c.dispatch.answer = none) (hp : s.panicked c.endname.2 = false)
    {a : LinkedAppend n α} (hj : s.appends[j]? = some a) (hcall : a.call = some k)
    (h : s.serveAt size k c = some t) : Refines s t := by
  obtain ⟨c', hc, hend, hmeth, hargs, hcaller⟩ :=
    (hs.append a (List.mem_of_getElem? hj)).called k hcall
  obtain rfl := Option.some.inj (hk.symm.trans hc)
  have hnot := succeeded_of_handling hs.net hk hd
  have hwire : appendWire s.rpc a = .request := by
    simp [appendWire, hcall, hnot, answer, hk, hd, appendAnswer]
  rw [hend] at hp
  unfold serveAt at h
  rw [hend, hmeth, hargs] at h
  simp only [Raft.invoke, if_true] at h
  cases hr : (s.rafts a.server).appendEntries a.args with
  | none =>
      rw [hr] at h
      cases h
      exact .event (hs.panic _) (.appendEntries j) trivial
        (System.appendEntries_panic (toSystem_appends hj) ⟨hwire, hp⟩ hr)
  | some r =>
      obtain ⟨rf', reply⟩ := r
      rw [hr] at h
      simp only [Option.map_some] at h
      split at h
      · rename_i hroom
        obtain ⟨rpc', hstep, rfl⟩ := onNetwork_eq h
        have hstepped := LabRpc.State.stepped hstep
        have hs' := hs.setRaft a.server rf'
        refine .event (hs'.setRpc hstepped rfl (answer_of_handler hstepped).2.2)
          (.appendEntries j) trivial
          ((System.appendEntries_eq (toSystem_appends hj) ⟨hwire, hp⟩ hr hroom).trans
            (congrArg some ?_))
        refine (hs'.toSystem_append hstepped hj hcall (hcaller.imp_right ?_)).symm
        rintro ⟨rep, hret⟩
        exact (succeeded_later (hs.net.laterOf hstepped) hk hret).trans hnot
      · cases h

theorem Ok.serveVote (hs : s.Ok) {k j : Nat} {peer : Fin n} {c}
    (hk : s.rpc.calls[k]? = some c) (hd : c.dispatch.answer = none)
    (hp : s.panicked c.endname.2 = false) {el : LinkedElection n}
    (hj : s.elections[j]? = some el) (hcall : (el.peers peer).call = some k)
    (h : s.serveAt size k c = some t) : Refines s t := by
  obtain ⟨c', hc, hend, hmeth, hargs, hcaller⟩ :=
    hs.vote el (List.mem_of_getElem? hj) peer k hcall
  obtain rfl := Option.some.inj (hk.symm.trans hc)
  have hnot := succeeded_of_handling hs.net hk hd
  have hans : answer s.rpc k = none := by simp [answer, hk, hd]
  have hwire : (toElection s.rpc el).peers peer = .request := by
    simp only [toElection]
    cases hv : el.peers peer with
    | self | spawned =>
        rw [hv] at hcall
        cases hcall
    | calling i | done i =>
        rw [hv] at hcall
        cases hcall
        simp [voteWire, hnot, hans, voteAnswer]
  rw [hend] at hp
  unfold serveAt at h
  rw [hend, hmeth, hargs] at h
  simp only [Raft.invoke, if_true] at h
  cases hr : (s.rafts peer).requestVote el.request with
  | none =>
      rw [hr] at h
      cases h
      exact .event (hs.panic _) (.requestVote j peer) trivial
        (System.requestVote_panic (toSystem_elections hj) ⟨hwire, hp⟩ hr)
  | some r =>
      obtain ⟨rf', reply⟩ := r
      rw [hr] at h
      simp only [Option.map_some] at h
      split at h
      · obtain ⟨rpc', hstep, rfl⟩ := onNetwork_eq h
        have hstepped := LabRpc.State.stepped hstep
        have hs' := hs.setRaft peer rf'
        refine .event (hs'.setRpc hstepped rfl (answer_of_handler hstepped).2.2)
          (.requestVote j peer) trivial
          ((System.requestVote_eq (toSystem_elections hj) ⟨hwire, hp⟩ hr).trans
            (congrArg some ?_))
        refine (hs'.toSystem_vote hstepped hj hcall (hcaller.imp_right ?_)).symm
        rintro ⟨rep, hret⟩
        exact (succeeded_later (hs.net.laterOf hstepped) hk hret).trans hnot
      · cases h

theorem Ok.serve (hs : s.Ok) {k : Nat} (h : s.stepServe size k = some t) : Refines s t := by
  unfold stepServe at h
  cases hk : s.rpc.calls[k]? with
  | none =>
      rw [hk] at h
      cases h
  | some c =>
      rw [hk] at h
      dsimp only at h
      split at h
      · rename_i info hd hi
        split at h
        · rename_i hlt
          split at h
          · rename_i hp
            have hserver : (⟨info.server, hlt⟩ : Fin n) = c.endname.2 :=
              Fin.ext (hs.net.info c (List.mem_of_getElem? hk) info hi)
            rw [hserver] at h hp
            have hans : c.dispatch.answer = none := by rw [hd]; rfl
            obtain ⟨g, hg⟩ := hs.tickets.held k (List.getElem?_eq_some_iff.mp hk).1
            cases g with
            | append j =>
                obtain ⟨a, hj, hcall⟩ := hg
                exact hs.serveAppend hk hans hp hj hcall h
            | vote j peer =>
                obtain ⟨el, hj, hcall⟩ := hg
                exact hs.serveVote hk hans hp hj hcall h
          · cases h
        · cases h
      · cases h

theorem Ok.step (hs : s.Ok) {ev : LinkedEvent n α} (h : s.step size ev = some t) :
    Refines s t := by
  unfold Linked.step at h
  split at h
  · cases h
  · cases ev with
    | heartbeatTick i => exact hs.heartbeatTick h
    | electionTick i => exact hs.electionTick h
    | start i command => exact hs.start h
    | applyLock i => exact hs.applyLock h
    | applyReceive i => exact hs.applyReceive h
    | applySend i => exact hs.applySend h
    | kill i =>
        cases h
        exact hs.kill i
    | handleAppend k => exact hs.handleAppend h
    | callVote k peer => exact hs.callVoteRefines h
    | serve k => exact hs.serve h
    | appendReturns k => exact hs.appendReturns h
    | voteReturns k peer => exact hs.voteReturns h
    | unwind k => exact hs.unwind h
    | network e =>
        simp only [stepLive] at h
        split at h
        · exact hs.network ‹_› h
        · cases h

end Linked

/-- The peers over labrpc refine the cluster: what a run of them shows, with whatever the
network loses, delays and gives up, and however its servers are cut off and deleted, is a
run of the cluster in which no peer restarts. -/
theorem linked_refines (unreliable : Bool) (size : Message n α → Nat) {s : Linked n α}
    {h : List (Linked n α)}
    (run : (linked n α unreliable size).Run (fun _ _ => True) (s :: h)) :
    ∃ h', (cluster n α).Run NoRestart (s.toSystem :: h') ∧
      ∀ t, t ∈ s.toSystem :: h' ↔ ∃ u ∈ s :: h, u.toSystem = t :=
  run.refines (A := cluster n α) (f := Linked.toSystem) (Q := NoRestart) (I := Linked.Ok)
    (Linked.init_ok unreliable) (Linked.toSystem_init unreliable)
    (fun _ _ _ hs _ ht => (hs.step ht).ok) (fun _ _ _ hs _ ht => (hs.step ht).simulates)

/-- A peer wins term 1 with the vote of another one, over a reliable network. -/
def linkedElection (i j : Fin n) : List (LinkedEvent n α) :=
  [.electionTick i, .callVote 0 j] ++
    [.accept, .route, .dispatch, .lookup].map (fun m => .network (.move 0 m)) ++
    [.serve 0] ++
    [.takeReply, .conclude .send, .weigh, .deliver].map (fun m => .network (.move 0 m)) ++
    [.voteReturns 0 j]

/-- Peer 0 becomes leader over labrpc, and so it does in the cluster. -/
theorem linked_refines_election :
    ∃ s h h', (linked 3 Nat false fun _ => 1).Run (fun _ _ => True) (s :: h) ∧
      (s.rafts 0).state = .leader ∧ (cluster 3 Nat).Run NoRestart (s.toSystem :: h') ∧
      (s.toSystem.rafts 0).state = .leader := by
  obtain ⟨h, run, s, hs, hleader⟩ :=
    (linked 3 Nat false fun _ => 1).exists_run_of_replay (fun _ _ => True) (linkedElection 0 1)
      (fun h => ∃ s, h.head? = some s ∧ (s.rafts 0).state = .leader) (by decide +kernel)
  obtain ⟨s', h, rfl⟩ := run.exists_head
  obtain rfl := Option.some.inj hs
  obtain ⟨h', run', _⟩ := linked_refines false _ run
  exact ⟨s', h, h', run, hleader, run', hleader⟩

end RaftLab
