import DistributedLabs.Raft.Applier

/-!
The cluster with the two moments that a run of whole critical sections hides.

A handler sends on `hasCommittedChan` while it holds `rf.mu`: on a full channel it waits
with the lock, its updates of the peer already made and its deferred `persist` still to
come. Until the channel has room, no critical section of the peer can start; the applier
can still receive, and send on `applyCh`. A restart takes such a handler down with it.

`applyEntries` assigns `lastApplied` after it has released the lock. `System` makes the
assignment together with the snapshot of the entries; here it is a move of its own.
Nothing but `applyEntries` reads the field.
-/

namespace RaftLab

variable {n : Nat} {α : Type}

/-- What a handler that waits for room on `hasCommittedChan` does afterwards:
`AppendEntries` persists and answers call `k`, `respAppendEntries` just returns. -/
inductive Notifier
  | appendEntries (k : Nat) (response : AppendEntriesReply)
  | respAppendEntries
  deriving DecidableEq, Repr

/-- The cluster, the handler of each peer that waits with the peer's lock, and the old
value of `lastApplied` as long as the applier has not assigned the new one. -/
structure Locked (n : Nat) (α : Type) where
  sys : System n α
  notifier : Fin n → Option Notifier
  assigning : Fin n → Option Int

inductive Move (n : Nat) (α : Type)
  | run (e : Event n α)
  | notify (i : Fin n)
  | assign (i : Fin n)
  deriving DecidableEq, Repr

namespace System

/-- The reply to call `k` is put on the network. -/
def answer (s : System n α) (k : Nat) (response : AppendEntriesReply) : System n α :=
  { s with appends := s.appends.modify k (fun c => { c with wire := .reply response }) }

/-- The peer whose lock an event takes. -/
def lockOf (s : System n α) : Event n α → Option (Fin n)
  | .heartbeatTick i | .electionTick i | .start i _ | .requestVote _ i | .applyLock i => some i
  | .voteReply k _ => s.elections[k]?.map Election.candidate
  | .handleAppend k | .appendReply k | .unwind k => s.appends[k]?.map AppendCall.leader
  | .appendEntries k => s.appends[k]?.map AppendCall.server
  | .callFails _ | .applyReceive _ | .applySend _ | .kill _ | .restart _ => none

end System

namespace Locked

def init : Locked n α where
  sys := System.init
  notifier := fun _ => none
  assigning := fun _ => none

/-- The field `rf.lastApplied` of a peer. -/
def lastApplied (m : Locked n α) (i : Fin n) : Int :=
  (m.assigning i).getD (m.sys.rafts i).lastApplied

/-- The lock that the event takes is free. -/
def free (m : Locked n α) (e : Event n α) : Bool :=
  (m.sys.lockOf e).all (fun i => (m.notifier i).isNone)

/-- A handler of peer `i` that would end in `s'` finds the channel full: its
notification and its deferred `persist` are still to come. -/
def block (m : Locked n α) (i : Fin n) (s' : System n α) (w : Notifier) : Locked n α :=
  { m with
    sys := s'.setRaft i { s'.rafts i with
      hasCommittedChan := (m.sys.rafts i).hasCommittedChan
      persister := (m.sys.rafts i).persister }
    notifier := Function.update m.notifier i (some w) }

def stepAppendEntries (capacity : Nat) (m : Locked n α) (k : Nat) : Option (Locked n α) :=
  match m.sys.appends[k]? with
  | none => none
  | some c =>
      if c.wire = .request ∧ m.sys.panicked c.server = false then
        match (m.sys.rafts c.server).appendEntries c.args with
        | none => some { m with sys := m.sys.panic c.server }
        | some (rf', response) =>
            let s' := m.sys.setRaft c.server rf'
            if rf'.hasCommittedChan ≤ capacity then
              some { m with sys := s'.setCall k { c with wire := .reply response } }
            else
              some (m.block c.server (s'.setCall k { c with wire := .closed })
                (.appendEntries k response))
      else none

def stepAppendReply (capacity : Nat) (m : Locked n α) (k : Nat) : Option (Locked n α) :=
  match m.sys.appends[k]? with
  | none => none
  | some c =>
      match c.wire with
      | .reply reply =>
          if c.caller = .calling ∧ m.sys.Runs c then
            match (m.sys.rafts c.leader).respAppendEntries c.leader
                (m.sys.incarnation c.leader) c.server c.expectedNextIndex c.args reply with
            | none => some { m with sys := m.sys.panic c.leader }
            | some (rf', calls) =>
                let s' := ((m.sys.setRaft c.leader rf').setCall k
                  { c with caller := .unwinding, wire := .closed }).spawn calls
                if rf'.hasCommittedChan ≤ capacity then some { m with sys := s' }
                else some (m.block c.leader s' .respAppendEntries)
          else none
      | _ => none

/-- After the locked part of a turn the applier has `lastApplied` still to assign, if it
has entries to send. -/
def stepApplyLock (m : Locked n α) (i : Fin n) : Option (Locked n α) :=
  match m.sys.step (.applyLock i) with
  | none => none
  | some s' =>
      match (s'.rafts i).applier with
      | .sending _ =>
          some { m with
            sys := s'
            assigning :=
              Function.update m.assigning i (some (m.sys.rafts i).lastApplied) }
      | _ => some { m with sys := s' }

def stepRestart (m : Locked n α) (i : Fin n) : Option (Locked n α) :=
  match m.sys.step (.restart i) with
  | none => none
  | some s' =>
      some
        { sys := s'
          notifier := Function.update m.notifier i none
          assigning := Function.update m.assigning i none }

/-- The other events run as they do without locks. -/
def stepPlain (m : Locked n α) (e : Event n α) : Option (Locked n α) :=
  match m.sys.step e with
  | none => none
  | some s' => some { m with sys := s' }

def stepRun (capacity : Nat) (m : Locked n α) : Event n α → Option (Locked n α)
  | .appendEntries k => m.stepAppendEntries capacity k
  | .appendReply k => m.stepAppendReply capacity k
  | .applyLock i => m.stepApplyLock i
  | .applySend i => if m.assigning i = none then m.stepPlain (.applySend i) else none
  | .restart i => m.stepRestart i
  | e => m.stepPlain e

/-- The channel has room again: the handler sends and goes on to its end. -/
def stepNotify (capacity : Nat) (m : Locked n α) (i : Fin n) : Option (Locked n α) :=
  match m.notifier i with
  | none => none
  | some w =>
      let rf := m.sys.rafts i
      if m.sys.panicked i = false ∧ rf.hasCommittedChan < capacity then
        let rf' := { rf with hasCommittedChan := rf.hasCommittedChan + 1 }
        some { m with
          sys :=
            match w with
            | .appendEntries k response => (m.sys.setRaft i rf'.persist).answer k response
            | .respAppendEntries => m.sys.setRaft i rf'
          notifier := Function.update m.notifier i none }
      else none

def stepAssign (m : Locked n α) (i : Fin n) : Option (Locked n α) :=
  if m.assigning i ≠ none ∧ m.sys.panicked i = false then
    some { m with assigning := Function.update m.assigning i none }
  else none

def step (capacity : Nat) (m : Locked n α) : Move n α → Option (Locked n α)
  | .run e => if m.free e then m.stepRun capacity e else none
  | .notify i => m.stepNotify capacity i
  | .assign i => m.stepAssign i

end Locked

/-- The cluster whose `hasCommittedChan` has the given capacity. -/
def lockedCluster (n : Nat) (α : Type) (capacity : Nat) : Machine (Locked n α) (Move n α) where
  init := Locked.init
  step := Locked.step capacity

namespace Locked

/-- Any move a peer is able to make. -/
def Anything (_ : Locked n α) (_ : Move n α) : Prop := True

instance (m : Locked n α) (mv : Move n α) : Decidable (Anything m mv) := isTrue trivial

/-- The schedule in which peer 0 of three, which is `p`, wins term 1 and commits a first
command with peer 1; its applier has taken the command and not sent it. -/
def firstCommand (p : Fin 3) : List (Move 3 Nat) :=
  firstElection.map Move.run ++
    [.run (.start p (some 7)), .run (.handleAppend 2), .run (.appendEntries 2),
      .run (.appendReply 2), .run (.applyLock p), .assign p]

/-- Every way a move changes the cluster. -/
inductive Moved (capacity : Nat) (m : Locked n α) : Move n α → Locked n α → Prop
  | run {e : Event n α} {s' : System n α} : m.free e = true → m.sys.Effect e s' →
      (∀ i, e ≠ .restart i) → (∀ i, e = .applySend i → m.assigning i = none) →
      (∀ i, (s'.rafts i).hasCommittedChan ≤
        max capacity (m.sys.rafts i).hasCommittedChan) →
      Moved capacity m (.run e) { m with sys := s' }
  | lock {i : Fin n} {s' : System n α} {entries : List (LogEntry α)} :
      m.free (.applyLock i) = true → m.sys.Effect (.applyLock i) s' →
      (s'.rafts i).applier = .sending entries →
      Moved capacity m (.run (.applyLock i)) { m with
        sys := s'
        assigning := Function.update m.assigning i (some (m.sys.rafts i).lastApplied) }
  | restart {i : Fin n} {s' : System n α} : m.sys.Effect (.restart i) s' →
      Moved capacity m (.run (.restart i))
        { sys := s'
          notifier := Function.update m.notifier i none
          assigning := Function.update m.assigning i none }
  | blockEntries {k : Nat} {c : AppendCall n α} {rf' : Raft n α}
      {response : AppendEntriesReply} : m.free (.appendEntries k) = true →
      m.sys.appends[k]? = some c →
      (m.sys.rafts c.server).appendEntries c.args = some (rf', response) →
      capacity < rf'.hasCommittedChan →
      Moved capacity m (.run (.appendEntries k))
        (m.block c.server ((m.sys.setRaft c.server rf').setCall k { c with wire := .closed })
          (.appendEntries k response))
  | blockReply {k : Nat} {c : AppendCall n α} {reply : AppendEntriesReply}
      {rf' : Raft n α} {calls : List (AppendCall n α)} :
      m.free (.appendReply k) = true → m.sys.appends[k]? = some c → c.wire = .reply reply →
      (m.sys.rafts c.leader).respAppendEntries c.leader (m.sys.incarnation c.leader) c.server
          c.expectedNextIndex c.args reply = some (rf', calls) →
      m.sys.Effect (.appendReply k) (((m.sys.setRaft c.leader rf').setCall k
        { c with caller := .unwinding, wire := .closed }).spawn calls) →
      capacity < rf'.hasCommittedChan →
      Moved capacity m (.run (.appendReply k))
        (m.block c.leader (((m.sys.setRaft c.leader rf').setCall k
          { c with caller := .unwinding, wire := .closed }).spawn calls) .respAppendEntries)
  | notifyEntries {i : Fin n} {k : Nat} {response : AppendEntriesReply} :
      m.notifier i = some (.appendEntries k response) →
      (m.sys.rafts i).hasCommittedChan < capacity →
      Moved capacity m (.notify i) { m with
        sys := (m.sys.setRaft i (Raft.persist { m.sys.rafts i with
          hasCommittedChan := (m.sys.rafts i).hasCommittedChan + 1 })).answer k response
        notifier := Function.update m.notifier i none }
  | notifyReply {i : Fin n} : m.notifier i = some .respAppendEntries →
      (m.sys.rafts i).hasCommittedChan < capacity →
      Moved capacity m (.notify i) { m with
        sys := m.sys.setRaft i { m.sys.rafts i with
          hasCommittedChan := (m.sys.rafts i).hasCommittedChan + 1 }
        notifier := Function.update m.notifier i none }
  | assign {i : Fin n} : Moved capacity m (.assign i)
      { m with assigning := Function.update m.assigning i none }

variable {capacity : Nat} {m m' : Locked n α}

theorem block_rafts_self (i : Fin n) (s' : System n α) (w : Notifier) :
    (m.block i s' w).sys.rafts i = { s'.rafts i with
      hasCommittedChan := (m.sys.rafts i).hasCommittedChan
      persister := (m.sys.rafts i).persister } :=
  Function.update_self ..

theorem block_rafts_of_ne {i j : Fin n} (s' : System n α) (w : Notifier) (h : j ≠ i) :
    (m.block i s' w).sys.rafts j = s'.rafts j :=
  Function.update_of_ne h ..

/-- A handler that does not send leaves the channel as it is or takes from it. -/
theorem indexStep_chan_le {s : System n α} {i : Fin n} {e : Event n α} {rf' : Raft n α}
    (h : IndexStep s i e rf') (hentries : ∀ k, e ≠ .appendEntries k)
    (hreply : ∀ k, e ≠ .appendReply k) :
    rf'.hasCommittedChan ≤ (s.rafts i).hasCommittedChan := by
  cases h with
  | silent h => exact Nat.le_of_eq h.hasCommittedChan
  | appendEntries _ _ _ => exact absurd rfl (hentries _)
  | appendReply _ _ _ => exact absurd rfl (hreply _)
  | lock _ h =>
      rcases Raft.applyLock_cases h with ⟨_, rfl⟩ | ⟨_, _, _, _, _, rfl⟩
      · exact Nat.le_refl _
      · exact Nat.le_refl _
  | receive _ => exact Nat.sub_le _ _
  | @send entries _ => cases entries <;> exact Nat.le_refl _

theorem chan_le_of_room {s s' : System n α} {j : Fin n} {rf' : Raft n α}
    (hs' : s'.rafts = Function.update s.rafts j rf')
    (hroom : rf'.hasCommittedChan ≤ capacity) (i : Fin n) :
    (s'.rafts i).hasCommittedChan ≤ max capacity (s.rafts i).hasCommittedChan := by
  rw [hs']
  by_cases hij : i = j
  · subst hij
    rw [Function.update_self]
    exact Nat.le_trans hroom (Nat.le_max_left _ _)
  · rw [Function.update_of_ne hij]
    exact Nat.le_max_right _ _

theorem stepPlain_moved {e : Event n α} (hfree : m.free e = true)
    (h : m.stepPlain e = some m') (hrestart : ∀ i, e ≠ .restart i)
    (hsend : ∀ i, e = .applySend i → m.assigning i = none)
    (hentries : ∀ k, e ≠ .appendEntries k) (hreply : ∀ k, e ≠ .appendReply k) :
    Moved capacity m (.run e) m' := by
  unfold stepPlain at h
  split at h
  · cases h
  · rename_i s' hs'
    obtain rfl := Option.some.inj h
    have heffect := System.step_effect hs'
    refine .run hfree heffect hrestart hsend ?_
    intro i
    have hle := indexStep_chan_le (effect_indexStep heffect (hrestart i)) hentries hreply
    exact Nat.le_trans hle (Nat.le_max_right _ _)

theorem stepAppendEntries_moved {k : Nat} (hfree : m.free (.appendEntries k) = true)
    (h : m.stepAppendEntries capacity k = some m') :
    Moved capacity m (.run (.appendEntries k)) m' := by
  unfold stepAppendEntries at h
  split at h
  · cases h
  · rename_i c hc
    split at h
    · rename_i hg
      split at h
      · rename_i hn
        obtain rfl := Option.some.inj h
        refine .run hfree (.panic (.appendEntries hc hg.1 hn)) ?_ ?_ ?_
        · simp
        · simp
        · exact fun i => Nat.le_max_right _ _
      · rename_i rf' response hs
        dsimp only at h
        split at h
        · rename_i hroom
          obtain rfl := Option.some.inj h
          refine .run hfree (.appendEntries hc hg.1 hs) ?_ ?_ ?_
          · simp
          · simp
          · exact chan_le_of_room rfl hroom
        · rename_i hroom
          obtain rfl := Option.some.inj h
          exact .blockEntries hfree hc hs (Nat.lt_of_not_le hroom)
    · cases h

theorem stepAppendReply_moved {k : Nat} (hfree : m.free (.appendReply k) = true)
    (h : m.stepAppendReply capacity k = some m') :
    Moved capacity m (.run (.appendReply k)) m' := by
  unfold stepAppendReply at h
  split at h
  · cases h
  · rename_i c hc
    split at h
    · rename_i reply hr
      split at h
      · rename_i hg
        split at h
        · rename_i hn
          obtain rfl := Option.some.inj h
          refine .run hfree (.panic (.appendReply hc hr hg.1 hn)) ?_ ?_ ?_
          · simp
          · simp
          · exact fun i => Nat.le_max_right _ _
        · rename_i rf' calls hs
          have heffect := System.Effect.appendReply hc hr hg.1 hs
          dsimp only at h
          split at h
          · rename_i hroom
            obtain rfl := Option.some.inj h
            refine .run hfree heffect ?_ ?_ ?_
            · simp
            · simp
            · exact chan_le_of_room rfl hroom
          · rename_i hroom
            obtain rfl := Option.some.inj h
            exact .blockReply hfree hc hr hs heffect (Nat.lt_of_not_le hroom)
      · cases h
    · cases h

theorem stepApplyLock_moved {i : Fin n} (hfree : m.free (.applyLock i) = true)
    (h : m.stepApplyLock i = some m') : Moved capacity m (.run (.applyLock i)) m' := by
  unfold stepApplyLock at h
  split at h
  · cases h
  · rename_i s' hs'
    have heffect := System.step_effect hs'
    split at h
    · rename_i hsending
      obtain rfl := Option.some.inj h
      exact .lock hfree heffect hsending
    · obtain rfl := Option.some.inj h
      refine .run hfree heffect ?_ ?_ ?_
      · simp
      · simp
      · intro j
        have hstep := effect_indexStep (i := j) heffect (by simp)
        exact Nat.le_trans (indexStep_chan_le hstep (by simp) (by simp)) (Nat.le_max_right _ _)

theorem stepRestart_moved {i : Fin n} (h : m.stepRestart i = some m') :
    Moved capacity m (.run (.restart i)) m' := by
  unfold stepRestart at h
  split at h
  · cases h
  · rename_i s' hs'
    obtain rfl := Option.some.inj h
    exact .restart (System.step_effect hs')

theorem stepNotify_moved {i : Fin n} (h : m.stepNotify capacity i = some m') :
    Moved capacity m (.notify i) m' := by
  unfold stepNotify at h
  split at h
  · cases h
  · rename_i w hw
    dsimp only at h
    split at h
    · rename_i hg
      obtain rfl := Option.some.inj h
      cases w with
      | appendEntries k response => exact .notifyEntries hw hg.2
      | respAppendEntries => exact .notifyReply hw hg.2
    · cases h

theorem step_moved {mv : Move n α} (h : m.step capacity mv = some m') :
    Moved capacity m mv m' := by
  cases mv with
  | notify i => exact stepNotify_moved h
  | assign i =>
      simp only [step, stepAssign] at h
      split at h
      · obtain rfl := Option.some.inj h
        exact .assign
      · cases h
  | run e =>
      simp only [step] at h
      split at h
      · rename_i hfree
        cases e with
        | appendEntries k => exact stepAppendEntries_moved hfree h
        | appendReply k => exact stepAppendReply_moved hfree h
        | applyLock i => exact stepApplyLock_moved hfree h
        | restart i => exact stepRestart_moved h
        | applySend i =>
            simp only [stepRun] at h
            split at h
            · rename_i hassigned
              refine stepPlain_moved hfree h ?_ ?_ ?_ ?_
              · simp
              · intro j hj
                cases hj
                exact hassigned
              · simp
              · simp
            · cases h
        | heartbeatTick _ | electionTick _ | start _ _ | requestVote _ _ | voteReply _ _
        | handleAppend _ | callFails _ | unwind _ | applyReceive _ | kill _ =>
            refine stepPlain_moved hfree h ?_ ?_ ?_ ?_ <;> simp
      · cases h

/-- While a handler of the peer waits with the lock, only the applier moves, and only
between its critical sections. -/
theorem indexStep_of_notifier {i : Fin n} {e : Event n α} {rf' : Raft n α}
    (hfree : m.free e = true) (hheld : m.notifier i ≠ none)
    (h : IndexStep m.sys i e rf') :
    (m.sys.rafts i).Silent rf' ∨
      (e = .applyReceive i ∧ (m.sys.rafts i).applier = .waiting ∧
        rf' = { m.sys.rafts i with
          hasCommittedChan := (m.sys.rafts i).hasCommittedChan - 1, applier := .top }) ∨
      ∃ entries, e = .applySend i ∧ (m.sys.rafts i).applier = .sending entries ∧
        rf' = (m.sys.rafts i).applySend entries := by
  have held : m.sys.lockOf e ≠ some i := by
    intro hlock
    rw [free, hlock] at hfree
    exact hheld (Option.isNone_iff_eq_none.mp hfree)
  cases h with
  | silent h => exact Or.inl h
  | appendEntries hc hi _ => exact absurd (by simp [System.lockOf, hc, hi]) held
  | appendReply hc hi _ => exact absurd (by simp [System.lockOf, hc, hi]) held
  | lock _ _ => exact absurd rfl held
  | receive hw => exact Or.inr (Or.inl ⟨rfl, hw, rfl⟩)
  | send hs => exact Or.inr (Or.inr ⟨_, rfl, hs, rfl⟩)

theorem run_move {mv : Move n α} {h : List (Locked n α)}
    (run : (lockedCluster n α capacity).Run Anything (m :: h))
    (hstep : m.step capacity mv = some m') :
    (lockedCluster n α capacity).Run Anything (m' :: m :: h) :=
  run.next ((lockedCluster n α capacity).next_cons.mpr ⟨mv, trivial, hstep⟩)

/-- No handler waits with a lock and no assignment is outstanding. -/
structure Quiet (m : Locked n α) : Prop where
  notifier : m.notifier = fun _ => none
  assigning : m.assigning = fun _ => none

theorem Quiet.step_run (h : m.Quiet) (e : Event n α) :
    m.step capacity (.run e) = m.stepRun capacity e := by
  have hfree : m.free e = true := by
    unfold Locked.free
    cases m.sys.lockOf e with
    | none => rfl
    | some i => simp [h.notifier]
  exact if_pos hfree

theorem stepAppendEntries_of_step {k : Nat} {s' : System n α}
    (hs : m.sys.stepAppendEntries k = some s') :
    m.stepAppendEntries committedCapacity k = some { m with sys := s' } := by
  simp only [System.stepAppendEntries, stepAppendEntries] at hs ⊢
  cases hc : m.sys.appends[k]? with
  | none =>
      rw [hc] at hs
      cases hs
  | some c =>
      simp only [hc] at hs ⊢
      by_cases hg : c.wire = .request ∧ m.sys.panicked c.server = false
      · rw [if_pos hg] at hs ⊢
        cases happ : (m.sys.rafts c.server).appendEntries c.args with
        | none =>
            simp only [happ] at hs ⊢
            obtain rfl := Option.some.inj hs
            rfl
        | some result =>
            obtain ⟨rf', response⟩ := result
            simp only [happ] at hs ⊢
            obtain ⟨hroom, hs⟩ := Option.ite_none_right_eq_some.mp hs
            obtain rfl := Option.some.inj hs
            exact if_pos hroom
      · rw [if_neg hg] at hs
        cases hs

theorem stepAppendReply_of_step {k : Nat} {s' : System n α}
    (hs : m.sys.stepAppendReply k = some s') :
    m.stepAppendReply committedCapacity k = some { m with sys := s' } := by
  simp only [System.stepAppendReply, stepAppendReply] at hs ⊢
  cases hc : m.sys.appends[k]? with
  | none =>
      rw [hc] at hs
      cases hs
  | some c =>
      simp only [hc] at hs ⊢
      cases hw : c.wire with
      | unsent | request | closed =>
          rw [hw] at hs
          cases hs
      | reply reply =>
          simp only [hw] at hs ⊢
          by_cases hg : c.caller = .calling ∧ m.sys.Runs c
          · rw [if_pos hg] at hs ⊢
            cases hresp : (m.sys.rafts c.leader).respAppendEntries c.leader
                (m.sys.incarnation c.leader) c.server c.expectedNextIndex c.args reply with
            | none =>
                simp only [hresp] at hs ⊢
                obtain rfl := Option.some.inj hs
                rfl
            | some result =>
                obtain ⟨rf', calls⟩ := result
                simp only [hresp] at hs ⊢
                obtain ⟨hroom, hs⟩ := Option.ite_none_right_eq_some.mp hs
                obtain rfl := Option.some.inj hs
                exact if_pos hroom
          · rw [if_neg hg] at hs
            cases hs

theorem stepApplyLock_panicked {s s' : System n α} {i : Fin n} {entries : List (LogEntry α)}
    (hs : s.stepApplyLock i = some s') (hsending : (s'.rafts i).applier = .sending entries) :
    s'.panicked i = false := by
  unfold System.stepApplyLock at hs
  split at hs
  · rename_i htop
    split at hs
    · rename_i hg
      split at hs
      · obtain rfl := Option.some.inj hs
        rw [show (s.panic i).rafts i = s.rafts i from rfl, htop] at hsending
        cases hsending
      · obtain rfl := Option.some.inj hs
        exact hg.1
    · cases hs
  · cases hs

/-- With the capacity of `Make`, the locks allow whatever the cluster without them does:
an event is a move, after which at most the assignment of `lastApplied` is left. -/
theorem Quiet.lift (h : m.Quiet) {e : Event n α} {s' : System n α}
    (hs : m.sys.step e = some s') :
    ∃ m', m'.sys = s' ∧ m'.Quiet ∧
      (m.step committedCapacity (.run e) = some m' ∨
        ∃ m₁ i, m.step committedCapacity (.run e) = some m₁ ∧
          m₁.step committedCapacity (.assign i) = some m') := by
  have plain : m.stepPlain e = some { m with sys := s' } := by
    simp [stepPlain, hs]
  have quiet : Quiet { m with sys := s' } := ⟨h.notifier, h.assigning⟩
  rw [h.step_run]
  cases e with
  | heartbeatTick _ | electionTick _ | start _ _ | requestVote _ _ | voteReply _ _
  | handleAppend _ | callFails _ | unwind _ | applyReceive _ | kill _ =>
      exact ⟨_, rfl, quiet, Or.inl plain⟩
  | appendEntries k => exact ⟨_, rfl, quiet, Or.inl (stepAppendEntries_of_step hs)⟩
  | appendReply k => exact ⟨_, rfl, quiet, Or.inl (stepAppendReply_of_step hs)⟩
  | applySend i =>
      refine ⟨_, rfl, quiet, Or.inl ?_⟩
      simpa [stepRun, h.assigning] using plain
  | restart i =>
      refine ⟨_, rfl, quiet, Or.inl ?_⟩
      simp [stepRun, stepRestart, hs, h.notifier, h.assigning]
  | applyLock i =>
      cases happlier : (s'.rafts i).applier with
      | top =>
          refine ⟨_, rfl, quiet, Or.inl ?_⟩
          simp [stepRun, stepApplyLock, hs, happlier]
      | waiting =>
          refine ⟨_, rfl, quiet, Or.inl ?_⟩
          simp [stepRun, stepApplyLock, hs, happlier]
      | sending entries =>
          have halive := stepApplyLock_panicked hs happlier
          refine ⟨_, rfl, quiet, Or.inr ⟨{ m with
            sys := s'
            assigning :=
              Function.update m.assigning i (some (m.sys.rafts i).lastApplied) }, i, ?_, ?_⟩⟩
          · simp only [stepRun, stepApplyLock, hs, happlier]
          · simp [step, stepAssign, halive, h.assigning]

/-- Every run of the cluster is one of the cluster with locks. -/
theorem exists_run_of_cluster {allowed : System n α → Event n α → Prop} {s : System n α}
    {h : List (System n α)} (run : (cluster n α).Run allowed (s :: h)) :
    ∃ m H, (lockedCluster n α committedCapacity).Run Anything (m :: H) ∧ m.sys = s ∧
      m.Quiet := by
  refine History.head_induction (P := fun s _ => ∃ m H,
    (lockedCluster n α committedCapacity).Run Anything (m :: H) ∧ m.sys = s ∧ m.Quiet) ?_ ?_ run
  · exact ⟨_, _, .start, rfl, rfl, rfl⟩
  · intro s t h _ ih ht
    obtain ⟨m, H, run, rfl, hq⟩ := ih
    obtain ⟨e, _, hs⟩ := (cluster n α).next_cons.mp ht
    obtain ⟨m', hsys, hq', hmoves⟩ := hq.lift hs
    cases hmoves with
    | inl hstep => exact ⟨m', _, run_move run hstep, hsys, hq'⟩
    | inr hsteps =>
        obtain ⟨m₁, i, hstep, hassign⟩ := hsteps
        exact ⟨m', _, run_move (run_move run hstep) hassign, hsys, hq'⟩

end Locked
end RaftLab
