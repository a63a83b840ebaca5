import DistributedLabs.Raft.Locking

/-!
What the applier can rely on when handlers notify it through `hasCommittedChan`: its
messages carry the indices 1, 2, 3, ... in order, and it never waits for a notification
that is not coming. Both hold at any capacity of the channel and across restarts.
-/

namespace RaftLab

variable {n : Nat} {α : Type}

/-- A peer with the handler that waits with its lock and the assignment of `lastApplied`
that its applier still has to make. -/
structure PeerOk (capacity : Nat) (rf : Raft n α) (notifier : Option Notifier)
    (assigning : Option Int) : Prop where
  paced : rf.Paced
  room : rf.hasCommittedChan ≤ capacity
  assigning : ∀ v, assigning = some v →
    v ≤ rf.lastApplied ∧ ∃ entries, rf.applier = .sending entries
  awake : rf.applier = .waiting →
    rf.commitIndex ≤ rf.lastApplied ∨ 0 < rf.hasCommittedChan ∨ notifier ≠ none

namespace PeerOk

variable {capacity : Nat} {rf rf' : Raft n α} {notifier notifier' : Option Notifier}
  {assigning : Option Int}

theorem make (capacity : Nat) (persister : Option (Persisted n α)) :
    PeerOk capacity (Raft.make persister) none none := by
  have htop : (Raft.make persister).applier = .top ∧
      (Raft.make persister).hasCommittedChan = 0 := by
    cases persister with
    | none => exact ⟨rfl, rfl⟩
    | some p => exact ⟨rfl, rfl⟩
  refine ⟨.make persister, ?_, ?_, ?_⟩
  · rw [htop.2]
    exact Nat.zero_le _
  · intro v hv
    cases hv
  · intro hw
    rw [htop.1] at hw
    cases hw

/-- A handler leaves the applier alone; if it moves `commitIndex`, a notification is
queued or on its way. -/
theorem handler (h : PeerOk capacity rf notifier assigning)
    (happlier : rf'.applier = rf.applier) (hch : rf'.applyCh = rf.applyCh)
    (happlied : rf'.lastApplied = rf.lastApplied) (hcommit : rf.commitIndex ≤ rf'.commitIndex)
    (hroom : rf'.hasCommittedChan ≤ capacity)
    (hnotify : (rf'.commitIndex = rf.commitIndex ∧
        rf'.hasCommittedChan = rf.hasCommittedChan ∧ notifier' = notifier) ∨
      0 < rf'.hasCommittedChan ∨ notifier' ≠ none) :
    PeerOk capacity rf' notifier' assigning := by
  refine ⟨h.paced.handler happlier hch happlied hcommit, hroom, ?_, ?_⟩
  · rw [happlier, happlied]
    exact h.assigning
  · intro hw
    cases hnotify with
    | inl hsame =>
        rw [happlier] at hw
        rw [happlied, hsame.1, hsame.2.1, hsame.2.2]
        exact h.awake hw
    | inr hnew => exact Or.inr hnew

theorem silent (h : PeerOk capacity rf notifier assigning) (hs : rf.Silent rf') :
    PeerOk capacity rf' notifier assigning := by
  refine h.handler hs.applier hs.applyCh hs.lastApplied ?_ ?_ ?_
  · exact Int.le_of_eq hs.commitIndex.symm
  · rw [hs.hasCommittedChan]
    exact h.room
  · exact Or.inl ⟨hs.commitIndex, hs.hasCommittedChan, rfl⟩

theorem handlerStep (h : PeerOk capacity rf notifier assigning) (hs : rf.HandlerStep rf')
    (hcommit : rf.commitIndex ≤ rf'.commitIndex)
    (hroom : rf'.hasCommittedChan ≤ max capacity rf.hasCommittedChan) :
    PeerOk capacity rf' notifier assigning := by
  have hle := h.room
  refine h.handler hs.applier hs.applyCh hs.lastApplied hcommit (by omega) ?_
  cases hs.notified with
  | inl hsame => exact Or.inl ⟨hsame.1, hsame.2, rfl⟩
  | inr hmore => exact Or.inr (Or.inl (by omega))

/-- The applier is not `sending` before it has the lock, so nothing is left to assign. -/
theorem assigned (h : PeerOk capacity rf notifier assigning)
    (happlier : ∀ entries, rf.applier ≠ .sending entries) : assigning = none := by
  cases assigning with
  | none => rfl
  | some v =>
      obtain ⟨_, entries, hs⟩ := h.assigning v rfl
      exact absurd hs (happlier entries)

theorem lock (h : PeerOk capacity rf notifier assigning) (hlog : LogOk rf.log)
    (htop : rf.applier = .top) (hlock : rf.applyLock = some rf') :
    PeerOk capacity rf' notifier none ∧
      ∀ entries, rf'.applier = .sending entries →
        PeerOk capacity rf' notifier (some rf.lastApplied) := by
  have hpaced := h.paced.lock hlog htop hlock
  rcases Raft.applyLock_cases hlock with ⟨hle, rfl⟩ | ⟨hlt, base, taken, _, _, rfl⟩
  · refine ⟨⟨hpaced, h.room, ?_, ?_⟩, ?_⟩
    · intro v hv
      cases hv
    · exact fun _ => Or.inl hle
    · intro entries hs
      cases hs
  · refine ⟨⟨hpaced, h.room, ?_, ?_⟩, ?_⟩
    · intro v hv
      cases hv
    · intro hw
      cases hw
    · intro entries _
      refine ⟨hpaced, h.room, ?_, ?_⟩
      · intro v hv
        obtain rfl := Option.some.inj hv
        exact ⟨Int.le_of_lt hlt, taken, rfl⟩
      · intro hw
        cases hw

theorem receive (h : PeerOk capacity rf notifier assigning) (hw : rf.applier = .waiting)
    (hp : ({ rf with hasCommittedChan := rf.hasCommittedChan - 1, applier := .top } :
      Raft n α).Paced) :
    PeerOk capacity
      { rf with hasCommittedChan := rf.hasCommittedChan - 1, applier := .top }
      notifier assigning := by
  have hassigned := h.assigned (by simp [hw])
  refine ⟨hp, Nat.le_trans (Nat.sub_le _ _) h.room, ?_, ?_⟩
  · rw [hassigned]
    intro v hv
    cases hv
  · intro hw'
    cases hw'

theorem send {entries : List (LogEntry α)} (h : PeerOk capacity rf notifier none)
    (hs : rf.applier = .sending entries) :
    PeerOk capacity (rf.applySend entries) notifier none := by
  have hpaced := h.paced.send hs
  cases entries with
  | nil =>
      refine ⟨hpaced, h.room, ?_, ?_⟩
      · intro v hv
        cases hv
      · intro hw
        cases hw
  | cons e rest =>
      refine ⟨hpaced, h.room, ?_, ?_⟩
      · intro v hv
        cases hv
      · intro hw
        cases hw

/-- Every event that finds the lock free, a restart of the peer apart. -/
theorem index {s : System n α} {i : Fin n} {e : Event n α}
    (h : PeerOk capacity (s.rafts i) notifier assigning) (hb : Bounds s)
    (hstep : IndexStep s i e rf') (hsend : e = .applySend i → assigning = none)
    (hroom : rf'.hasCommittedChan ≤ max capacity (s.rafts i).hasCommittedChan) :
    PeerOk capacity rf' notifier assigning := by
  have hcommit := hstep.commitIndex_le hb
  have hpaced := hstep.paced hb h.paced
  cases hstep with
  | silent hs => exact h.silent hs
  | appendEntries _ _ hs =>
      exact h.handlerStep (Raft.appendEntries_handlerStep hs) hcommit hroom
  | appendReply _ _ hs =>
      exact h.handlerStep (Raft.respAppendEntries_handlerStep hs) hcommit hroom
  | lock htop hs =>
      have hassigned := h.assigned (by simp [htop])
      rw [hassigned]
      exact (h.lock (hb.peer i).log htop hs).1
  | receive hw => exact h.receive hw hpaced
  | send hs =>
      have hassigned := hsend rfl
      subst hassigned
      exact h.send hs

end PeerOk

namespace Locked

variable {capacity : Nat} {m m' : Locked n α}

/-- What every state reached has, at any capacity and with any restarts. -/
structure Ok (capacity : Nat) (m : Locked n α) : Prop where
  bounds : Bounds m.sys
  peer : ∀ i, PeerOk capacity (m.sys.rafts i) (m.notifier i) (m.assigning i)

theorem Ok.init (capacity : Nat) : Ok capacity (Locked.init : Locked n α) :=
  ⟨.init, fun _ => .make capacity none⟩

/-- What a handler of peer `i` has done when it waits for room. -/
structure Blocked (m : Locked n α) (i : Fin n) (m' : Locked n α) : Prop where
  bounds : Bounds m.sys → Bounds m'.sys
  others : ∀ j, j ≠ i → m'.sys.rafts j = m.sys.rafts j
  handler : ∃ rf', (m.sys.rafts i).HandlerStep rf' ∧
    (Bounds m.sys → (m.sys.rafts i).commitIndex ≤ rf'.commitIndex) ∧
    m'.sys.rafts i = { rf' with
      hasCommittedChan := (m.sys.rafts i).hasCommittedChan
      persister := (m.sys.rafts i).persister }

theorem block_bounds {i : Fin n} {s' : System n α} {w : Notifier} (hb : Bounds m.sys)
    (hb' : Bounds s') : Bounds (m.block i s' w).sys := by
  refine hb'.setRaft ⟨(hb'.peer i).log, (hb.peer i).stored, (hb'.peer i).leads⟩

theorem blockEntries_blocked {k : Nat} {c : AppendCall n α} {rf' : Raft n α}
    {response : AppendEntriesReply} (hc : m.sys.appends[k]? = some c)
    (h : (m.sys.rafts c.server).appendEntries c.args = some (rf', response)) :
    Blocked m c.server (m.block c.server
      ((m.sys.setRaft c.server rf').setCall k { c with wire := .closed })
      (.appendEntries k response)) := by
  have hself : ((m.sys.setRaft c.server rf').setCall k { c with wire := .closed }).rafts
      c.server = rf' := Function.update_self ..
  refine ⟨?_, ?_, rf', Raft.appendEntries_handlerStep h, ?_, ?_⟩
  · intro hb
    have hcall := hb.callOk hc
    apply block_bounds hb
    apply (hb.setRaft ((hb.peer c.server).appendEntries hcall.carries h).1).setCall
    exact ⟨hcall.carries, hcall.other⟩
  · intro j hj
    rw [block_rafts_of_ne _ _ hj]
    exact Function.update_of_ne hj ..
  · intro hb
    exact ((hb.peer c.server).appendEntries (hb.callOk hc).carries h).2
  · rw [block_rafts_self, hself]

theorem blockReply_blocked {k : Nat} {c : AppendCall n α} {reply : AppendEntriesReply}
    {rf' : Raft n α} {calls : List (AppendCall n α)} {s' : System n α}
    (h : (m.sys.rafts c.leader).respAppendEntries c.leader (m.sys.incarnation c.leader)
      c.server c.expectedNextIndex c.args reply = some (rf', calls))
    (heffect : m.sys.Effect (.appendReply k) s')
    (hs' : s'.rafts = Function.update m.sys.rafts c.leader rf') :
    Blocked m c.leader (m.block c.leader s' .respAppendEntries) := by
  refine ⟨?_, ?_, rf', Raft.respAppendEntries_handlerStep h, ?_, ?_⟩
  · intro hb
    exact block_bounds hb (hb.effect heffect)
  · intro j hj
    rw [block_rafts_of_ne _ _ hj, hs', Function.update_of_ne hj]
  · intro hb
    exact ((hb.peer c.leader).respAppendEntries h).2
  · rw [block_rafts_self, hs', Function.update_self]

theorem Blocked.commitIndex_le {i : Fin n} (h : Blocked m i m') (hb : Bounds m.sys)
    (j : Fin n) : (m.sys.rafts j).commitIndex ≤ (m'.sys.rafts j).commitIndex := by
  by_cases hj : j = i
  · subst hj
    obtain ⟨rf', _, hcommit, heq⟩ := h.handler
    rw [heq]
    exact hcommit hb
  · rw [h.others j hj]

theorem Blocked.ok {i : Fin n} {w : Notifier} (h : Blocked m i m') (hm : Ok capacity m)
    (hnotifier : m'.notifier = Function.update m.notifier i (some w))
    (hassigning : m'.assigning = m.assigning) : Ok capacity m' := by
  refine ⟨h.bounds hm.bounds, ?_⟩
  intro j
  rw [hnotifier, hassigning]
  by_cases hj : j = i
  · subst hj
    obtain ⟨rf', hstep, hcommit, heq⟩ := h.handler
    rw [heq, Function.update_self]
    refine (hm.peer j).handler hstep.applier hstep.applyCh hstep.lastApplied
      (hcommit hm.bounds) (hm.peer j).room ?_
    exact Or.inr (Or.inr (by simp))
  · rw [h.others j hj, Function.update_of_ne hj]
    exact hm.peer j

/-- The notification of a handler that has waited for room. -/
theorem Ok.notify {i : Fin n} {rf' : Raft n α} {s' : System n α} (h : Ok capacity m)
    (hb : Bounds s') (hs' : s'.rafts = Function.update m.sys.rafts i rf')
    (hroom : (m.sys.rafts i).hasCommittedChan < capacity)
    (happlier : rf'.applier = (m.sys.rafts i).applier)
    (hch : rf'.applyCh = (m.sys.rafts i).applyCh)
    (happlied : rf'.lastApplied = (m.sys.rafts i).lastApplied)
    (hcommit : rf'.commitIndex = (m.sys.rafts i).commitIndex)
    (hchan : rf'.hasCommittedChan = (m.sys.rafts i).hasCommittedChan + 1) :
    Ok capacity { m with sys := s', notifier := Function.update m.notifier i none } := by
  refine ⟨hb, ?_⟩
  intro j
  simp only [hs']
  by_cases hj : j = i
  · subst hj
    rw [Function.update_self, Function.update_self]
    refine (h.peer j).handler happlier hch happlied (Int.le_of_eq hcommit.symm) ?_ ?_
    · omega
    · exact Or.inr (Or.inl (by omega))
  · rw [Function.update_of_ne hj, Function.update_of_ne hj]
    exact h.peer j

theorem Ok.lock {i : Fin n} {s' : System n α} {entries : List (LogEntry α)}
    (h : Ok capacity m) (heffect : m.sys.Effect (.applyLock i) s')
    (hsending : (s'.rafts i).applier = .sending entries) :
    Ok capacity { m with
      sys := s'
      assigning := Function.update m.assigning i (some (m.sys.rafts i).lastApplied) } := by
  refine ⟨h.bounds.effect heffect, ?_⟩
  intro j
  cases heffect with
  | panic hp =>
      cases hp with
      | applyLock htop _ =>
          rw [show (m.sys.panic i).rafts i = m.sys.rafts i from rfl, htop] at hsending
          cases hsending
  | @applyLock _ rf' htop hl =>
      by_cases hj : j = i
      · subst hj
        simp only [System.setRaft, Function.update_self] at hsending ⊢
        exact ((h.peer j).lock (h.bounds.peer j).log htop hl).2 entries hsending
      · simp only [System.setRaft, Function.update_of_ne hj]
        exact h.peer j

theorem Ok.restart {i : Fin n} {s' : System n α} (h : Ok capacity m)
    (heffect : m.sys.Effect (.restart i) s') :
    Ok capacity
      { sys := s'
        notifier := Function.update m.notifier i none
        assigning := Function.update m.assigning i none } := by
  refine ⟨h.bounds.effect heffect, ?_⟩
  intro j
  cases heffect with
  | panic hp => cases hp
  | restart =>
      by_cases hj : j = i
      · subst hj
        simp only [System.setRaft, Function.update_self]
        exact .make capacity _
      · simp only [System.setRaft, Function.update_of_ne hj]
        exact h.peer j

theorem answer_bounds {s : System n α} (hb : Bounds s) (k : Nat)
    (response : AppendEntriesReply) : Bounds (s.answer k response) := by
  refine ⟨hb.peer, ?_⟩
  intro c hc
  obtain ⟨j, hj⟩ := List.mem_iff_getElem?.mp hc
  simp only [System.answer, List.getElem?_modify] at hj
  obtain ⟨c', hc', rfl⟩ := Option.map_eq_some_iff.mp hj
  have hcall := hb.callOk hc'
  split
  · exact ⟨hcall.carries, hcall.other⟩
  · exact hcall

theorem Ok.moved {mv : Move n α} (hm : Ok capacity m) (h : Moved capacity m mv m') :
    Ok capacity m' := by
  cases h with
  | run _ heffect hrestart hsend hroom =>
      refine ⟨hm.bounds.effect heffect, ?_⟩
      intro i
      exact (hm.peer i).index hm.bounds (effect_indexStep heffect (hrestart i)) (hsend i)
        (hroom i)
  | lock _ heffect hsending => exact hm.lock heffect hsending
  | restart heffect => exact hm.restart heffect
  | blockEntries _ hc hs _ => exact (blockEntries_blocked hc hs).ok hm rfl rfl
  | blockReply _ _ _ hs heffect _ => exact (blockReply_blocked hs heffect rfl).ok hm rfl rfl
  | @notifyEntries i k response _ hroom =>
      refine hm.notify (answer_bounds (hm.bounds.setRaft ?_) k response) rfl hroom rfl rfl rfl rfl
        rfl
      exact Raft.Bounded.persist ((hm.bounds.peer i).congr rfl rfl rfl id)
  | @notifyReply i _ hroom =>
      refine hm.notify (hm.bounds.setRaft ?_) rfl hroom rfl rfl rfl rfl rfl
      exact (hm.bounds.peer i).congr rfl rfl rfl id
  | @assign i =>
      refine ⟨hm.bounds, ?_⟩
      intro j
      have hj := hm.peer j
      refine ⟨hj.paced, hj.room, ?_, hj.awake⟩
      by_cases hji : j = i
      · subst hji
        simp
      · simp only [Function.update_of_ne hji]
        exact hj.assigning

/-- No move takes the `commitIndex` of a peer back, a restart of the peer apart. -/
theorem Moved.commitIndex_le {mv : Move n α} {i : Fin n} (h : Moved capacity m mv m')
    (hb : Bounds m.sys) (hr : mv ≠ .run (.restart i)) :
    (m.sys.rafts i).commitIndex ≤ (m'.sys.rafts i).commitIndex := by
  cases h with
  | run _ heffect hrestart _ _ =>
      exact (effect_indexStep heffect (hrestart i)).commitIndex_le hb
  | lock _ heffect _ => exact (effect_indexStep heffect (by simp)).commitIndex_le hb
  | @restart j _ heffect =>
      refine (effect_indexStep heffect ?_).commitIndex_le hb
      intro hj
      exact hr (by rw [hj])
  | blockEntries _ hc hs _ => exact (blockEntries_blocked hc hs).commitIndex_le hb i
  | blockReply _ _ _ hs heffect _ => exact (blockReply_blocked hs heffect rfl).commitIndex_le hb i
  | @notifyEntries j _ _ _ _ | @notifyReply j _ _ =>
      by_cases hj : i = j
      · subst hj
        simp [System.setRaft, System.answer, Raft.persist]
      · simp [System.setRaft, System.answer, hj]
  | assign => exact Int.le_refl _

/-- Every state of a run has the invariant. -/
theorem run_ok {allowed : Locked n α → Move n α → Prop} {h : List (Locked n α)}
    (run : (lockedCluster n α capacity).Run allowed h) : ∀ m ∈ h, Ok capacity m :=
  Machine.Run.invariant (Ok.init capacity) (fun _ _ _ hm _ hstep => hm.moved (step_moved hstep))
    run

/-- The moves of a run in which peer `i` does not restart; other peers may. -/
def Stays (i : Fin n) (_ : Locked n α) (mv : Move n α) : Prop :=
  mv ≠ .run (.restart i)

instance [DecidableEq α] (i : Fin n) (m : Locked n α) (mv : Move n α) :
    Decidable (Stays i m mv) :=
  inferInstanceAs (Decidable (_ ≠ _))

end Locked

open Locked (Stays)

/-- In every run without a restart of peer `i` its `commitIndex` never decreases, its
`lastApplied` never exceeds it, and the messages on its `applyCh` carry the indices 1,
2, 3, ... in this order. -/
theorem applier_delivery {capacity : Nat} {i : Fin n} {h : List (Locked n α)}
    (run : (lockedCluster n α capacity).Run (Stays i) h) :
    h.Pairwise (fun newer older =>
      (older.sys.rafts i).commitIndex ≤ (newer.sys.rafts i).commitIndex) ∧
    ∀ m ∈ h, m.lastApplied i ≤ (m.sys.rafts i).commitIndex ∧
      ∀ (j : Nat) (msg : ApplyMsg α),
        (m.sys.rafts i).applyCh[j]? = some msg → msg.commandIndex = j + 1 := by
  have hok := Locked.run_ok run
  refine ⟨?_, ?_⟩
  · refine Machine.Run.pairwise (I := Locked.Ok capacity)
      (R := fun s t => (s.sys.rafts i).commitIndex ≤ (t.sys.rafts i).commitIndex)
      (Locked.Ok.init capacity) ?_ ?_ ?_ run
    · intro s mv t hs _ hstep
      exact hs.moved (Locked.step_moved hstep)
    · intro s t u hst htu
      exact Int.le_trans hst htu
    · intro s mv t hs hstays hstep
      exact (Locked.step_moved hstep).commitIndex_le hs.bounds hstays
  · intro m hm
    have hpeer := (hok m hm).peer i
    refine ⟨?_, hpeer.paced.sent⟩
    unfold Locked.lastApplied
    cases hassigning : m.assigning i with
    | none => exact hpeer.paced.applied
    | some v =>
        have hv := (hpeer.assigning v hassigning).1
        exact Int.le_trans hv hpeer.paced.applied

theorem applier_delivery_first_command :
    ∃ h, (lockedCluster 3 Nat committedCapacity).Run (Stays 0) h ∧
      h.Pairwise (fun newer older =>
        (older.sys.rafts 0).commitIndex ≤ (newer.sys.rafts 0).commitIndex) ∧
      ∃ m ∈ h, m.lastApplied 0 ≤ (m.sys.rafts 0).commitIndex ∧
        ∃ msg, (m.sys.rafts 0).applyCh[0]? = some msg ∧ msg.commandIndex = 1 := by
  obtain ⟨h, run, m, hm, msg, hmsg⟩ :=
    (lockedCluster 3 Nat committedCapacity).exists_run_of_replay (Stays 0)
      (Locked.firstCommand 0 ++ [.run (.applySend 0)])
      (fun h => ∃ m ∈ h, ∃ msg ∈ (m.sys.rafts 0).applyCh.head?, msg.command = some 7)
      (by decide +kernel)
  rw [List.head?_eq_getElem?] at hmsg
  obtain ⟨hmono, hall⟩ := applier_delivery run
  obtain ⟨hle, hindex⟩ := hall m hm
  exact ⟨h, run, hmono, m, hm, hle, msg, hmsg.1, hindex 0 msg hmsg.1⟩

/-- An applier that waits on an empty channel, with no handler of its peer inside a
critical section, has applied everything that is committed. -/
theorem notification_not_lost {capacity : Nat} {allowed : Locked n α → Move n α → Prop}
    {h : List (Locked n α)} (run : (lockedCluster n α capacity).Run allowed h) {m : Locked n α}
    (hm : m ∈ h) {i : Fin n} (hwaiting : (m.sys.rafts i).applier = .waiting)
    (hfree : m.notifier i = none) (hempty : (m.sys.rafts i).hasCommittedChan = 0) :
    m.lastApplied i = (m.sys.rafts i).commitIndex := by
  have hpeer := (Locked.run_ok run m hm).peer i
  have hassigned := hpeer.assigned (by simp [hwaiting])
  have hle := hpeer.paced.applied
  simp only [Locked.lastApplied, hassigned, Option.getD_none]
  cases hpeer.awake hwaiting with
  | inl hge => exact Int.le_antisymm hle hge
  | inr hmore =>
      cases hmore with
      | inl hpos => omega
      | inr hheld => exact absurd hfree hheld

theorem notification_not_lost_first_command :
    ∃ h, (lockedCluster 3 Nat committedCapacity).Run Locked.Anything h ∧
      ∃ m ∈ h, (m.sys.rafts 0).commitIndex = 1 ∧ (m.sys.rafts 0).applier = .waiting ∧
        m.lastApplied 0 = 1 := by
  obtain ⟨h, run, m, hm, hcommit, hwaiting, hfree, hempty⟩ :=
    (lockedCluster 3 Nat committedCapacity).exists_run_of_replay Locked.Anything
      (Locked.firstCommand 0 ++ [.run (.applySend 0), .run (.applySend 0), .run (.applyLock 0),
        .run (.applyReceive 0), .run (.applyLock 0)])
      (fun h => ∃ m ∈ h, (m.sys.rafts 0).commitIndex = 1 ∧
        (m.sys.rafts 0).applier = .waiting ∧ m.notifier 0 = none ∧
        (m.sys.rafts 0).hasCommittedChan = 0)
      (by decide +kernel)
  have happlied := notification_not_lost run hm hwaiting hfree hempty
  exact ⟨h, run, m, hm, hcommit, hwaiting, happlied.trans hcommit⟩

end RaftLab
