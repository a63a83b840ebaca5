import DistributedLabs.Library.History
import DistributedLabs.Library.Phases

/-!
The listeners of a shard map. `Update` swaps the state, takes the read lock and sends on
the channel of every listener in turn, each send blocking until the listen loop of that
server receives. A server registers its listener and closes it under the write lock, and
its `Shutdown` first makes the listen loop exit. The mutex prefers writers: a reader does
not get in while a writer waits, and one writer waits at a time.
-/

namespace KvLab

inductive LoopPhase where
  | notStarted
  | selecting
  | handling
  | exited
  deriving DecidableEq

/-- `MakeListener`: the call of `Lock`, the wait for the readers, the registered channel. -/
inductive ListenerPhase where
  | calling
  | locking
  | registered
  | closed
  deriving DecidableEq

/-- `Shutdown`: the send on `shutdown`, the call of `Lock` in `Close`, the wait for the
readers. -/
inductive ShutdownPhase where
  | notCalled
  | sending
  | calling
  | locking
  | returned
  deriving DecidableEq

structure ListeningServer where
  listener : ListenerPhase
  loop : LoopPhase
  shutdown : ShutdownPhase
  deriving DecidableEq

/-- `Update`: before the swap, before the read lock, between two sends, in a send. -/
inductive UpdatePhase where
  | started
  | swapped
  | notifying (todo : List Nat)
  | sending (listener : Nat) (todo : List Nat)
  | returned
  deriving DecidableEq

/-- A listener has the number of its server. -/
structure Listeners where
  servers : List ListeningServer
  updates : List UpdatePhase
  deriving DecidableEq

inductive ListenEvent where
  | makeKvServer
  | lockListener (i : Nat)
  | makeListener (i : Nat)
  | startLoop (i : Nat)
  | handled (i : Nat)
  | shutdown (i : Nat)
  | receiveShutdown (i : Nat)
  | lockClose (i : Nat)
  | close (i : Nat)
  | update
  | swap (u : Nat)
  | rLock (u : Nat)
  | next (u listener : Nat)
  | send (u : Nat)
  | rUnlock (u : Nat)

/-- The listeners that an `Update` which holds the read lock has yet to notify. -/
def UpdatePhase.owed : UpdatePhase → List Nat
  | .notifying todo => todo
  | .sending listener todo => listener :: todo
  | _ => []

/-- The listener that an `Update` is sending to. -/
def UpdatePhase.target : UpdatePhase → Option Nat
  | .sending listener _ => some listener
  | _ => none

def UpdatePhase.reading : UpdatePhase → Bool
  | .notifying _ | .sending _ _ => true
  | _ => false

def ListeningServer.writing (server : ListeningServer) : Bool :=
  server.listener = .locking || server.shutdown = .locking

namespace Listeners

variable (s : Listeners)

/-- A writer has called `Lock` and waits for the readers, or has the lock. -/
def writerWaits : Bool := s.servers.any (·.writing)

def readLocked : Bool := s.updates.any (·.reading)

/-- The registered channels. -/
def updateChannels : List Nat :=
  s.servers.zipIdx.filterMap fun (server, i) =>
    if server.listener = .registered then some i else none

def onServer (i : Nat) (f : ListeningServer → Option ListeningServer) : Option Listeners :=
  match s.servers[i]? with
  | none => none
  | some server => (f server).map fun server => { s with servers := s.servers.set i server }

def onUpdate (u : Nat) (f : UpdatePhase → Option UpdatePhase) : Option Listeners :=
  match s.updates[u]? with
  | none => none
  | some phase => (f phase).map fun phase => { s with updates := s.updates.set u phase }

/-- The send of an `Update` meets the select of the listen loop. -/
def send (u : Nat) : Option Listeners :=
  match s.updates[u]? with
  | some (.sending i todo) =>
      (s.onServer i fun server =>
        if server.loop = .selecting then some { server with loop := .handling } else none).map
        fun t => { t with updates := t.updates.set u (.notifying todo) }
  | _ => none

def step : ListenEvent → Option Listeners
  | .makeKvServer =>
      some { s with servers := s.servers ++ [⟨.calling, .notStarted, .notCalled⟩] }
  | .lockListener i => s.onServer i fun server =>
      if server.listener = .calling ∧ s.writerWaits = false then
        some { server with listener := .locking }
      else none
  | .makeListener i => s.onServer i fun server =>
      if server.listener = .locking ∧ s.readLocked = false then
        some { server with listener := .registered }
      else none
  | .startLoop i => s.onServer i fun server =>
      if server.listener = .registered ∧ server.loop = .notStarted then
        some { server with loop := .selecting }
      else none
  | .handled i => s.onServer i fun server =>
      if server.loop = .handling then some { server with loop := .selecting } else none
  | .shutdown i => s.onServer i fun server =>
      if server.listener = .registered ∧ server.shutdown = .notCalled then
        some { server with shutdown := .sending }
      else none
  | .receiveShutdown i => s.onServer i fun server =>
      if server.shutdown = .sending ∧ server.loop = .selecting then
        some { server with loop := .exited, shutdown := .calling }
      else none
  | .lockClose i => s.onServer i fun server =>
      if server.shutdown = .calling ∧ s.writerWaits = false then
        some { server with shutdown := .locking }
      else none
  | .close i => s.onServer i fun server =>
      if server.shutdown = .locking ∧ s.readLocked = false then
        some { server with listener := .closed, shutdown := .returned }
      else none
  | .update => some { s with updates := s.updates ++ [.started] }
  | .swap u => s.onUpdate u fun phase => if phase = .started then some .swapped else none
  | .rLock u => s.onUpdate u fun phase =>
      if phase = .swapped ∧ s.writerWaits = false then some (.notifying s.updateChannels)
      else none
  | .next u i => s.onUpdate u fun phase =>
      match phase with
      | .notifying todo => if i ∈ todo then some (.sending i (todo.erase i)) else none
      | _ => none
  | .send u => s.send u
  | .rUnlock u => s.onUpdate u fun phase =>
      if phase = .notifying [] then some .returned else none

/-- `Close` waits for the readers, or for a writer that does. -/
def closeBlocked (server : ListeningServer) : Bool :=
  server.shutdown = .locking || server.shutdown = .calling && s.writerWaits

/-- An `Update` sends to a listener whose loop has exited, while the `Close` of that
listener waits for the lock that the `Update` holds. -/
def Deadlocked : Prop :=
  ∃ phase ∈ s.updates, ∃ i ∈ phase.target, ∃ server ∈ s.servers[i]?,
    server.loop = .exited ∧ s.closeBlocked server = true

instance : Decidable s.Deadlocked :=
  inferInstanceAs (Decidable (∃ phase ∈ s.updates, _))

/-- No listen loop takes the shutdown signal while an `Update` that holds the lock has yet
to notify its listener, and no `Update` takes the lock while the listen loop of a
registered listener has exited. -/
def ShutdownSafe : ListenEvent → Prop
  | .receiveShutdown i => ∀ phase ∈ s.updates, i ∉ phase.owed
  | .rLock _ => ∀ server ∈ s.servers, server.listener = .registered → server.loop ≠ .exited
  | _ => True

instance (e : ListenEvent) : Decidable (s.ShutdownSafe e) :=
  match e with
  | .receiveShutdown _ | .rLock _ => List.decidableBAll _ _
  | .makeKvServer | .lockListener _ | .makeListener _ | .startLoop _ | .handled _
  | .shutdown _ | .lockClose _ | .close _ | .update | .swap _ | .next _ _ | .send _
  | .rUnlock _ => isTrue trivial

/-- Every listener that an `Update` has yet to notify has a loop that can receive. -/
def Receptive : Prop :=
  ∀ phase ∈ s.updates, ∀ i ∈ phase.owed, ∀ server, s.servers[i]? = some server →
    server.loop ≠ .exited

section Steps

variable {s t : Listeners}

theorem onServer_eq_some {i : Nat} {f : ListeningServer → Option ListeningServer}
    (h : s.onServer i f = some t) : ∃ server server', s.servers[i]? = some server ∧
      f server = some server' ∧ t = { s with servers := s.servers.set i server' } := by
  simp only [onServer] at h
  split at h
  · cases h
  · obtain ⟨server', hf, rfl⟩ := Option.map_eq_some_iff.mp h
    exact ⟨_, server', ‹_›, hf, rfl⟩

theorem onUpdate_eq_some {u : Nat} {f : UpdatePhase → Option UpdatePhase}
    (h : s.onUpdate u f = some t) : ∃ phase phase', s.updates[u]? = some phase ∧
      f phase = some phase' ∧ t = { s with updates := s.updates.set u phase' } := by
  simp only [onUpdate] at h
  split at h
  · cases h
  · obtain ⟨phase', hf, rfl⟩ := Option.map_eq_some_iff.mp h
    exact ⟨_, phase', ‹_›, hf, rfl⟩

/-- A server may take any step that does not end its loop, and the step that ends it if
no `Update` has yet to notify it. -/
theorem receptive_onServer (h : s.Receptive) {i : Nat}
    {f : ListeningServer → Option ListeningServer} (ht : s.onServer i f = some t)
    (hf : ∀ server server', f server = some server' → server'.loop = .exited →
      server.loop = .exited ∨ ∀ phase ∈ s.updates, i ∉ phase.owed) : t.Receptive := by
  obtain ⟨server, server', hs, hstep, rfl⟩ := onServer_eq_some ht
  intro phase hp j hj other ho hexit
  by_cases hij : i = j
  · subst hij
    obtain ⟨hi, _⟩ := List.getElem?_eq_some_iff.mp hs
    rw [List.getElem?_set_self hi] at ho
    obtain rfl := Option.some.inj ho
    rcases hf server server' hstep hexit with hold | hnone
    · exact h phase hp i hj server hs hold
    · exact hnone phase hp hj
  · rw [List.getElem?_set_ne hij] at ho
    exact h phase hp j hj other ho hexit

/-- An `Update` may take any step after which it owes no more than before. -/
theorem receptive_onUpdate (h : s.Receptive) {u : Nat}
    {f : UpdatePhase → Option UpdatePhase} (ht : s.onUpdate u f = some t)
    (hf : ∀ phase phase', f phase = some phase' → ∀ i ∈ phase'.owed,
      i ∈ phase.owed ∨ ∀ server, s.servers[i]? = some server → server.loop ≠ .exited) :
    t.Receptive := by
  obtain ⟨phase, phase', hu, hstep, rfl⟩ := onUpdate_eq_some ht
  intro q hq i hi server hs
  rcases List.mem_or_eq_of_mem_set hq with hq | rfl
  · exact h q hq i hi server hs
  · rcases hf phase _ hstep i hi with hold | hnew
    · exact h phase (List.mem_of_getElem? hu) i hold server hs
    · exact hnew server hs

theorem mem_updateChannels {i : Nat} (h : i ∈ s.updateChannels) {server : ListeningServer}
    (hs : s.servers[i]? = some server) : server.listener = .registered := by
  obtain ⟨⟨server', j⟩, hmem, hsome⟩ := List.mem_filterMap.mp h
  obtain ⟨hreg, rfl⟩ : server'.listener = .registered ∧ j = i := by simpa using hsome
  have hget := List.mem_zipIdx_iff_getElem?.mp hmem
  obtain rfl := Option.some.inj (hget.symm.trans hs)
  exact hreg

theorem receptive_send (h : s.Receptive) {u : Nat} (ht : s.send u = some t) :
    t.Receptive := by
  simp only [send] at ht
  split at ht
  · rename_i i todo hu
    obtain ⟨r, hr, rfl⟩ := Option.map_eq_some_iff.mp ht
    have hrec : r.Receptive := by
      refine receptive_onServer h hr ?_
      intro server server' hf hexit
      split at hf <;> cases hf
      cases hexit
    obtain ⟨_, _, _, _, rfl⟩ := onServer_eq_some hr
    intro q hq j hj server hs
    rcases List.mem_or_eq_of_mem_set hq with hq | rfl
    · exact hrec q hq j hj server hs
    · exact hrec _ (List.mem_of_getElem? hu) j (List.mem_cons_of_mem _ hj) server hs
  · cases ht

theorem receptive_step {e : ListenEvent} (h : s.Receptive) (he : s.ShutdownSafe e)
    (ht : s.step e = some t) : t.Receptive := by
  cases e with
  | makeKvServer =>
      obtain rfl := Option.some.inj ht
      intro phase hp i hi server hs
      rw [List.getElem?_append] at hs
      split at hs
      · exact h phase hp i hi server hs
      · obtain rfl := List.mem_singleton.mp (List.mem_of_getElem? hs)
        exact LoopPhase.noConfusion
  | update =>
      obtain rfl := Option.some.inj ht
      intro phase hp i hi server hs
      rcases List.mem_append.mp hp with hp | hp
      · exact h phase hp i hi server hs
      · obtain rfl := List.mem_singleton.mp hp
        cases hi
  | receiveShutdown i => exact receptive_onServer h ht fun _ _ _ _ => Or.inr he
  | lockListener i | makeListener i | shutdown i | lockClose i | close i =>
      refine receptive_onServer h ht ?_
      intro server server' hf hexit
      split at hf <;> cases hf
      exact Or.inl hexit
  | startLoop i | handled i =>
      refine receptive_onServer h ht ?_
      intro server server' hf hexit
      split at hf <;> cases hf
      cases hexit
  | swap u | rUnlock u =>
      refine receptive_onUpdate h ht ?_
      intro phase phase' hf i hi
      split at hf <;> cases hf
      cases hi
  | rLock u =>
      refine receptive_onUpdate h ht ?_
      intro phase phase' hf i hi
      split at hf <;> cases hf
      exact Or.inr fun server hs =>
        he server (List.mem_of_getElem? hs) (mem_updateChannels hi hs)
  | next u j =>
      refine receptive_onUpdate h ht ?_
      intro phase phase' hf i hi
      split at hf
      · split at hf <;> cases hf
        rcases List.mem_cons.mp hi with rfl | hi
        · exact Or.inl ‹_›
        · exact Or.inl (List.mem_of_mem_erase hi)
      · cases hf
  | send u => exact receptive_send h ht

theorem not_deadlocked (h : s.Receptive) : ¬ s.Deadlocked := by
  rintro ⟨phase, hp, i, hi, server, hs, hexit, _⟩
  refine h phase hp i ?_ server hs hexit
  cases phase with
  | sending listener todo =>
      obtain rfl := Option.some.inj hi
      exact List.mem_cons_self
  | started | swapped | notifying _ | returned => cases hi

end Steps

end Listeners

/-- A shard map without listeners. -/
def shardMap : Machine Listeners ListenEvent where
  init := ⟨[], []⟩
  step := Listeners.step

/-- In a run in which no listener is left without its loop while an `Update` that holds
the lock has yet to notify it, no `Update` and `Close` wait for each other. -/
theorem listeners_deadlock_free {h : List Listeners}
    (run : shardMap.Run Listeners.ShutdownSafe h) : ∀ s ∈ h, ¬ s.Deadlocked := by
  have receptive := run.invariant (I := Listeners.Receptive)
    (fun phase hp => absurd hp List.not_mem_nil)
    (fun s e t hs he ht => Listeners.receptive_step hs he ht)
  exact fun s hs => Listeners.not_deadlocked (receptive s hs)

/-- One server is notified of an update and then shut down. -/
theorem listeners_deadlock_free_shutdown : ∃ h, shardMap.Run Listeners.ShutdownSafe h ∧
    (∃ s ∈ h, s.servers = [⟨.closed, .exited, .returned⟩] ∧ s.updates = [.returned]) ∧
    ∀ s ∈ h, ¬ s.Deadlocked := by
  obtain ⟨h, run, hdone⟩ :=
    shardMap.exists_run_of_replay Listeners.ShutdownSafe
      [.makeKvServer, .lockListener 0, .makeListener 0, .startLoop 0, .update, .swap 0,
        .rLock 0, .next 0 0, .send 0, .rUnlock 0, .handled 0, .shutdown 0,
        .receiveShutdown 0, .lockClose 0, .close 0]
      (fun h => ∃ s ∈ h, s.servers = [⟨.closed, .exited, .returned⟩] ∧
        s.updates = [.returned])
      (by decide +kernel)
  exact ⟨h, run, hdone, listeners_deadlock_free run⟩

/-- The shutdown signal is received between the read lock of an `Update` and its send. -/
theorem update_close_deadlock : ∃ h, shardMap.Run (fun _ _ => True) h ∧
    ∃ s ∈ h, s.Deadlocked :=
  shardMap.exists_run_of_replay (fun _ _ => True)
    [.makeKvServer, .lockListener 0, .makeListener 0, .startLoop 0, .update, .swap 0,
      .rLock 0, .shutdown 0, .receiveShutdown 0, .lockClose 0, .next 0 0]
    (fun h => ∃ s ∈ h, s.Deadlocked) (by decide +kernel)

end KvLab
