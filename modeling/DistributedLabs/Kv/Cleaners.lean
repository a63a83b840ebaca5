import DistributedLabs.Kv.Updates

/-!
The cleaner goroutines of a server. The handler makes a `shardData` for every shard that
it adds and starts a goroutine that removes the expired entries of it until it receives
from its `closeSignal`. The handler sends that signal when it removes the shard; `Shutdown`
stops the listen loop and closes the listener. Here the handler is called by one goroutine
at a time, and the shard map may change at any time.
-/

namespace KvLab

/-- A cleaner selects over its ticker and its signal until the signal reaches it. -/
inductive Cleaner where
  | running
  | told
  deriving DecidableEq

/-- The `shardData`s are numbered in the order of their creation. `pointers` has the one
that `availableShards` points to, and `cleaners` the goroutine that was started with it. -/
structure Hosting where
  shardMap : ShardMapState
  server : KvServerImpl
  pointers : GoMap Int Nat
  cleaners : List Cleaner
  phase : HandlerPhase
  shutdown : Bool
  panicked : Option Panic

inductive HostingEvent where
  | update (sm : ShardMapState)
  | call
  | handler (e : HandlerEvent)
  | tick (id : Nat) (now : Int)
  | shutdown

/-- The loop over the shards to be added: a new `shardData` and a goroutine for each. -/
def startCleaners : List Int → GoMap Int Nat → List Cleaner → GoMap Int Nat × List Cleaner
  | [], pointers, cleaners => (pointers, cleaners)
  | shard :: rest, pointers, cleaners =>
      startCleaners rest (pointers.insert shard cleaners.length) (cleaners ++ [.running])

/-- The send on the signal of a shard needs a cleaner that receives. -/
def stopCleaner (shard : Int) (pointers : GoMap Int Nat) (cleaners : List Cleaner) :
    Option (GoMap Int Nat × List Cleaner) :=
  match pointers.lookup shard with
  | none => none
  | some id =>
      match cleaners[id]? with
      | some .running => some (pointers.erase shard, cleaners.set id .told)
      | _ => none

namespace Hosting

variable (s : Hosting)

/-- What a step of the handler does to the cleaners. -/
def lifecycle (e : HandlerEvent) : Option (GoMap Int Nat × List Cleaner) :=
  match s.phase, e with
  | .scanning added _ _, .register => some (startCleaners added s.pointers s.cleaners)
  | _, .remove shard => stopCleaner shard s.pointers s.cleaners
  | _, _ => some (s.pointers, s.cleaners)

def handler (e : HandlerEvent) : Option Hosting :=
  match s.server.handlerStep s.shardMap true s.phase e with
  | none => none
  | some (.error panic) => some { s with panicked := some panic }
  | some (.ok (server, phase)) =>
      (s.lifecycle e).map fun (pointers, cleaners) => { s with server, phase, pointers, cleaners }

/-- The shard that a `shardData` is stored under. -/
def shardOf (id : Nat) : Option Int :=
  ((GoMap.items s.pointers).find? fun entry => entry.2 = id).map Prod.fst

/-- A cleaner removes the expired entries of its `shardData`. If that is no longer stored,
nobody sees it. -/
def tick (id : Nat) (now : Int) : Option Hosting :=
  match s.cleaners[id]? with
  | some .running =>
      match s.shardOf id with
      | none => some s
      | some shard => (s.server.clean shard now).map fun server => { s with server }
  | _ => none

def step (e : HostingEvent) : Option Hosting :=
  if s.panicked = none then
    match e with
    | .update sm => some { s with shardMap := sm }
    | .call =>
        if s.phase = .returned ∧ s.shutdown = false then some { s with phase := .locking }
        else none
    | .handler e => s.handler e
    | .tick id now => s.tick id now
    | .shutdown =>
        if s.phase = .returned ∧ s.shutdown = false then some { s with shutdown := true }
        else none
  else none

/-- The cleaners that run are those of the hosted shards: one for each, and no other. A
tick of it cleans the data of that shard. -/
structure Matched : Prop where
  cleaner_of : ∀ shard ∈ s.server.availableShards, ∃ id,
    s.pointers.lookup shard = some id ∧ s.cleaners[id]? = some .running
  shard_of : ∀ id, s.cleaners[id]? = some .running →
    ∃ shard ∈ s.server.availableShards, s.pointers.lookup shard = some id
  apart : ∀ shard other id, s.pointers.lookup shard = some id →
    s.pointers.lookup other = some id → shard = other
  cleans : ∀ shard id now, s.pointers.lookup shard = some id →
    s.tick id now = (s.server.clean shard now).map fun server => { s with server }

def AllTold : Prop := ∀ cleaner ∈ s.cleaners, cleaner = .told

end Hosting

def hosting (nodeName : GoString) (sm : ShardMapState) : Machine Hosting HostingEvent where
  init := ⟨sm, ⟨nodeName, ∅⟩, ∅, [], .returned, false, none⟩
  step := Hosting.step

/-- The stored `shardData`s are those whose cleaners run, each under one shard. -/
structure Paired (pointers : GoMap Int Nat) (cleaners : List Cleaner) : Prop where
  running : ∀ shard id, pointers.lookup shard = some id → cleaners[id]? = some .running
  stored : ∀ id, cleaners[id]? = some .running → ∃ shard, pointers.lookup shard = some id
  apart : ∀ shard other id, pointers.lookup shard = some id →
    pointers.lookup other = some id → shard = other

section Pairs

variable {pointers pointers' : GoMap Int Nat} {cleaners cleaners' : List Cleaner}
  {shard : Int}

theorem lookup_lt (h : Paired pointers cleaners) {id : Nat}
    (hl : pointers.lookup shard = some id) : id < cleaners.length :=
  (List.getElem?_eq_some_iff.mp (h.running shard id hl)).1

/-- A new shard gets a `shardData` and a cleaner of its own. -/
theorem Paired.insert (h : Paired pointers cleaners) (hs : shard ∉ pointers) :
    Paired (pointers.insert shard cleaners.length) (cleaners ++ [.running]) := by
  refine ⟨?_, ?_, ?_⟩
  · intro other id hl
    cases GoMap.lookup_insert_iff.mp hl with
    | inl hnew =>
        rw [hnew.2]
        exact List.getElem?_concat_length
    | inr hold =>
        rw [List.getElem?_append_left (lookup_lt h hold.2)]
        exact h.running other id hold.2
  · intro id hid
    rw [List.getElem?_append] at hid
    split at hid
    · obtain ⟨other, hl⟩ := h.stored id hid
      refine ⟨other, GoMap.lookup_insert_iff.mpr (Or.inr ⟨fun heq => ?_, hl⟩)⟩
      rw [heq, AList.lookup_eq_none.mpr hs] at hl
      cases hl
    · obtain ⟨hlt, _⟩ := List.getElem?_eq_some_iff.mp hid
      rw [List.length_singleton] at hlt
      exact ⟨shard, GoMap.lookup_insert_iff.mpr (Or.inl ⟨rfl, by omega⟩)⟩
  · intro shard₁ shard₂ id hl₁ hl₂
    -- the new number is larger than those of the other shards
    cases GoMap.lookup_insert_iff.mp hl₁ with
    | inl hnew₁ =>
        cases GoMap.lookup_insert_iff.mp hl₂ with
        | inl hnew₂ => rw [hnew₁.1, hnew₂.1]
        | inr hold₂ => exact absurd hnew₁.2 (Nat.ne_of_lt (lookup_lt h hold₂.2))
    | inr hold₁ =>
        cases GoMap.lookup_insert_iff.mp hl₂ with
        | inl hnew₂ => exact absurd hnew₂.2 (Nat.ne_of_lt (lookup_lt h hold₁.2))
        | inr hold₂ => exact h.apart shard₁ shard₂ id hold₁.2 hold₂.2

theorem Paired.start {added : List Int} (h : Paired pointers cleaners) (hnodup : added.Nodup)
    (hnew : ∀ shard ∈ added, shard ∉ pointers)
    (he : startCleaners added pointers cleaners = (pointers', cleaners')) :
    Paired pointers' cleaners' ∧
      ∀ shard, shard ∈ pointers' ↔ shard ∈ added ∨ shard ∈ pointers := by
  induction added generalizing pointers cleaners with
  | nil =>
      cases he
      exact ⟨h, fun shard => by simp⟩
  | cons first rest ih =>
      obtain ⟨hfirst, hrest⟩ := List.nodup_cons.mp hnodup
      have hnext : ∀ shard ∈ rest, shard ∉ pointers.insert first cleaners.length := by
        intro shard hs hmem
        cases (AList.mem_insert _).mp hmem with
        | inl heq => exact hfirst (heq ▸ hs)
        | inr hmem => exact hnew shard (List.mem_cons_of_mem _ hs) hmem
      obtain ⟨hpaired, hkeys⟩ := ih (h.insert (hnew first List.mem_cons_self)) hrest hnext he
      refine ⟨hpaired, fun shard => ?_⟩
      rw [hkeys, AList.mem_insert, List.mem_cons]
      exact or_left_comm.trans or_assoc.symm

/-- A shard that is removed leaves with its `shardData`, whose cleaner has been told. -/
theorem Paired.stop (h : Paired pointers cleaners)
    (he : stopCleaner shard pointers cleaners = some (pointers', cleaners')) :
    Paired pointers' cleaners' ∧
      ∀ other, other ∈ pointers' ↔ other ≠ shard ∧ other ∈ pointers := by
  simp only [stopCleaner] at he
  cases hl : pointers.lookup shard with
  | none =>
      rw [hl] at he
      cases he
  | some id =>
      have hrun := h.running shard id hl
      simp only [hl, hrun] at he
      cases he
      have hne {other : Int} {id' : Nat} (hold : other ≠ shard ∧ pointers.lookup other = some id') :
          id ≠ id' := by
        intro heq
        exact hold.1 (h.apart other shard id (heq ▸ hold.2) hl)
      refine ⟨⟨?_, ?_, ?_⟩, fun other => AList.mem_erase⟩
      · intro other id' hl'
        have hold := GoMap.lookup_erase_iff.mp hl'
        rw [List.getElem?_set_ne (hne hold)]
        exact h.running other id' hold.2
      · intro id' hid
        have hidne : id ≠ id' := by
          intro heq
          rw [← heq, List.getElem?_set_self (lookup_lt h hl)] at hid
          cases hid
        rw [List.getElem?_set_ne hidne] at hid
        obtain ⟨other, hold⟩ := h.stored id' hid
        refine ⟨other, GoMap.lookup_erase_iff.mpr ⟨fun heq => hidne ?_, hold⟩⟩
        exact Option.some.inj (hl.symm.trans (heq ▸ hold))
      · intro shard₁ shard₂ id' hl₁ hl₂
        exact h.apart shard₁ shard₂ id' (GoMap.lookup_erase_iff.mp hl₁).2
          (GoMap.lookup_erase_iff.mp hl₂).2

/-- The cleaner of a stored shard receives the signal. -/
theorem Paired.stop_isSome (h : Paired pointers cleaners) (hs : shard ∈ pointers) :
    ∃ r, stopCleaner shard pointers cleaners = some r := by
  obtain ⟨id, hl⟩ := Option.isSome_iff_exists.mp (AList.lookup_isSome.mpr hs)
  simp only [stopCleaner, hl, h.running shard id hl]
  exact ⟨_, rfl⟩

end Pairs

namespace Hosting

variable {s t : Hosting}

/-- What a step of the handler needs and what it leads to. -/
theorem handler_cases {e : HandlerEvent} (h : s.handler e = some t) :
    (∃ panic, t = { s with panicked := some panic }) ∨
    ∃ server phase pointers cleaners,
      s.server.HandlerMove s.shardMap true s.phase e server phase ∧
      s.lifecycle e = some (pointers, cleaners) ∧
      t = { s with server, phase, pointers, cleaners } := by
  unfold handler at h
  cases hstep : s.server.handlerStep s.shardMap true s.phase e with
  | none =>
      rw [hstep] at h
      cases h
  | some r =>
      have hcases := KvServerImpl.handlerStep_cases _ _ hstep
      cases r with
      | error panic =>
          rw [hstep] at h
          exact Or.inl ⟨panic, (Option.some.inj h).symm⟩
      | ok r =>
          obtain ⟨server, phase⟩ := r
          rw [hstep] at h
          obtain ⟨⟨pointers, cleaners⟩, hl, rfl⟩ := Option.map_eq_some_iff.mp h
          exact Or.inr ⟨server, phase, pointers, cleaners, hcases.move, hl, rfl⟩

/-- The shards that the handler is about to add are new and listed once. -/
def AddsNew (server : KvServerImpl) : HandlerPhase → Prop
  | .scanning added _ _ => added.Nodup ∧ ∀ shard ∈ added, shard ∉ server.availableShards
  | .locking | .copying _ _ _ | .finishing _ _ | .returned => True

structure Ok (s : Hosting) : Prop where
  keys : ∀ shard, shard ∈ s.server.availableShards ↔ shard ∈ s.pointers
  paired : Paired s.pointers s.cleaners
  addsNew : AddsNew s.server s.phase

/-- A step of the handler keeps the shards and the cleaners together. -/
theorem Ok.handler (hok : s.Ok) {e : HandlerEvent} {server : KvServerImpl}
    {phase p : HandlerPhase} {pointers : GoMap Int Nat} {cleaners : List Cleaner}
    (hp : s.phase = p)
    (h : s.server.HandlerMove s.shardMap true p e server phase)
    (hl : s.lifecycle e = some (pointers, cleaners)) :
    Ok { s with server, phase, pointers, cleaners } := by
  have hadds := hok.addsNew
  rw [hp] at hadds
  unfold lifecycle at hl
  rw [hp] at hl
  cases h with
  | lock _ =>
      cases hl
      refine ⟨hok.keys, hok.paired, List.nodup_dedup _, fun shard hs => ?_⟩
      exact (KvServerImpl.mem_shardsToBeAdded.mp hs).2
  | keep _ _ | drop _ _ =>
      cases hl
      exact ⟨hok.keys, hok.paired, hadds⟩
  | skip | intn _ _ | askNext _ _ | askDone _ _ | relock _ | unlock =>
      cases hl
      exact ⟨hok.keys, hok.paired, trivial⟩
  | @register added removed _ =>
      have hnew : ∀ shard ∈ added, shard ∉ s.pointers :=
        fun shard hs hmem => hadds.2 shard hs ((hok.keys shard).mpr hmem)
      obtain ⟨hpaired, hkeys⟩ := hok.paired.start hadds.1 hnew (Option.some.inj hl)
      refine ⟨fun shard => ?_, hpaired, trivial⟩
      rw [KvServerImpl.mem_register, hkeys, hok.keys]
  | insert hserver =>
      cases hl
      refine ⟨fun shard => ?_, hok.paired, trivial⟩
      rw [(KvServerImpl.insertValue_ok hserver).2, hok.keys]
  | @remove removed shard _ _ hserver =>
      obtain ⟨hpaired, hkeys⟩ := hok.paired.stop hl
      refine ⟨fun other => ?_, hpaired, trivial⟩
      rw [(KvServerImpl.removeShard_ok hserver).2, hkeys, hok.keys]

theorem removed_hosted {server server' : KvServerImpl} {sm : ShardMapState} {free : Bool}
    {phase phase' : HandlerPhase} {shard : Int}
    (h : server.HandlerMove sm free phase (.remove shard) server' phase') :
    shard ∈ server.availableShards := by
  cases h with
  | remove _ hserver =>
      rw [KvServerImpl.removeShard] at hserver
      cases hl : server.availableShards.lookup shard with
      | none =>
          rw [hl] at hserver
          cases hserver
      | some data => exact KvServerImpl.mem_of_lookup hl

/-- The handler is not held up when it tells the cleaner of a shard to stop. -/
theorem Ok.remove_unblocked (hok : s.Ok) {shard : Int} {server : KvServerImpl}
    {phase : HandlerPhase} (h : s.server.handlerStep s.shardMap true s.phase (.remove shard) =
      some (.ok (server, phase))) : ∃ t, s.handler (.remove shard) = some t := by
  have hhosted := removed_hosted (KvServerImpl.handlerStep_cases _ _ h).move
  obtain ⟨r, hr⟩ := hok.paired.stop_isSome ((hok.keys shard).mp hhosted)
  have hl : s.lifecycle (.remove shard) = some r := by
    unfold lifecycle
    cases s.phase <;> exact hr
  exact ⟨_, by simp only [Hosting.handler, h, hl]; rfl⟩

theorem addsNew_of_keys {server server' : KvServerImpl} {phase : HandlerPhase}
    (h : ∀ shard, shard ∈ server'.availableShards ↔ shard ∈ server.availableShards)
    (ha : AddsNew server phase) : AddsNew server' phase := by
  cases phase with
  | scanning added removed todo =>
      exact ⟨ha.1, fun shard hs hmem => ha.2 shard hs ((h shard).mp hmem)⟩
  | locking | copying _ _ _ | finishing _ _ | returned => trivial

theorem mem_clean {server server' : KvServerImpl} {shard now : Int}
    (h : server.clean shard now = some server') (other : Int) :
    other ∈ server'.availableShards ↔ other ∈ server.availableShards := by
  obtain ⟨data, hl, rfl⟩ := Option.map_eq_some_iff.mp h
  exact KvServerImpl.mem_update (KvServerImpl.mem_of_lookup hl)

theorem Ok.tick (hok : s.Ok) {id : Nat} {now : Int} (h : s.tick id now = some t) : t.Ok := by
  unfold Hosting.tick at h
  split at h
  · split at h
    · cases h
      exact hok
    · obtain ⟨server, hclean, rfl⟩ := Option.map_eq_some_iff.mp h
      refine ⟨fun shard => ?_, hok.paired, addsNew_of_keys (mem_clean hclean) hok.addsNew⟩
      rw [mem_clean hclean, hok.keys]
  · cases h

theorem Ok.step (hok : s.Ok) {e : HostingEvent} (h : s.step e = some t) : t.Ok := by
  unfold Hosting.step at h
  obtain ⟨_, h⟩ := Option.ite_none_right_eq_some.mp h
  cases e with
  | update sm =>
      cases h
      exact ⟨hok.keys, hok.paired, hok.addsNew⟩
  | call =>
      obtain ⟨_, h⟩ := Option.ite_none_right_eq_some.mp h
      cases h
      exact ⟨hok.keys, hok.paired, trivial⟩
  | handler e =>
      cases handler_cases h with
      | inl hpanic =>
          obtain ⟨panic, rfl⟩ := hpanic
          exact ⟨hok.keys, hok.paired, hok.addsNew⟩
      | inr hmove =>
          obtain ⟨server, phase, pointers, cleaners, hstep, hl, rfl⟩ := hmove
          exact hok.handler rfl hstep hl
  | tick id now => exact hok.tick h
  | shutdown =>
      obtain ⟨_, h⟩ := Option.ite_none_right_eq_some.mp h
      cases h
      exact ⟨hok.keys, hok.paired, hok.addsNew⟩

/-- A `shardData` is found under the shard that it is stored under. -/
theorem Ok.shardOf (hok : s.Ok) {shard : Int} {id : Nat}
    (hl : s.pointers.lookup shard = some id) : s.shardOf id = some shard := by
  have hmem := GoMap.mem_items.mpr hl
  rw [Hosting.shardOf]
  cases hfind : (GoMap.items s.pointers).find? fun entry => entry.2 = id with
  | none => exact absurd (decide_eq_true rfl) (List.find?_eq_none.mp hfind _ hmem)
  | some entry =>
      have hid : entry.2 = id := by simpa using List.find?_some hfind
      have hentry := GoMap.mem_items.mp (List.mem_of_find?_eq_some hfind)
      rw [hid] at hentry
      exact congrArg some (hok.paired.apart entry.1 shard id hentry hl)

theorem Ok.matched (hok : s.Ok) : s.Matched := by
  refine ⟨?_, ?_, hok.paired.apart, ?_⟩
  · intro shard hs
    obtain ⟨id, hl⟩ := Option.isSome_iff_exists.mp
      (AList.lookup_isSome.mpr ((hok.keys shard).mp hs))
    exact ⟨id, hl, hok.paired.running shard id hl⟩
  · intro id hid
    obtain ⟨shard, hl⟩ := hok.paired.stored id hid
    exact ⟨shard, (hok.keys shard).mpr (AList.lookup_isSome.mp (by rw [hl]; rfl)), hl⟩
  · intro shard id now hl
    simp only [Hosting.tick, hok.paired.running shard id hl, hok.shardOf hl]

/-- All cleaners have been told if and only if no shard is hosted. -/
theorem Ok.allTold_iff (hok : s.Ok) :
    s.AllTold ↔ ∀ shard, shard ∉ s.server.availableShards := by
  have hmatched := hok.matched
  constructor
  · intro htold shard hs
    obtain ⟨id, _, hrun⟩ := hmatched.cleaner_of shard hs
    have heq := htold .running (List.mem_of_getElem? hrun)
    cases heq
  · intro hnone cleaner hmem
    cases cleaner with
    | told => rfl
    | running =>
        obtain ⟨id, hid⟩ := List.mem_iff_getElem?.mp hmem
        obtain ⟨shard, hs, _⟩ := hmatched.shard_of id hid
        exact absurd hs (hnone shard)

end Hosting

theorem hosting_ok {nodeName : GoString} {sm : ShardMapState} :
    (hosting nodeName sm).init.Ok := by
  refine ⟨fun _ => Iff.rfl, ⟨?_, ?_, ?_⟩, trivial⟩
  · intro shard id hl
    cases hl
  · intro id hid
    cases hid
  · intro shard other id hl
    cases hl

/-- Between two calls of the handler the cleaners that run are those of the hosted shards,
and the handler is never held up when it tells one to stop. After `Shutdown` all of them have
been told to stop if and only if there is none. -/
theorem cleaner_lifecycle {nodeName : GoString} {sm : ShardMapState} {h : List Hosting}
    (run : (hosting nodeName sm).Run (fun _ _ => True) h) :
    ∀ s ∈ h, (s.phase = .returned → s.Matched ∧
        (s.shutdown = true → (s.AllTold ↔ ∀ shard, shard ∉ s.server.availableShards))) ∧
      ∀ shard server phase, s.panicked = none →
        s.server.handlerStep s.shardMap true s.phase (.remove shard) =
          some (.ok (server, phase)) →
        ∃ t, (hosting nodeName sm).step s (.handler (.remove shard)) = some t := by
  have hok := run.invariant (I := Hosting.Ok) hosting_ok (fun _ _ _ hok _ ht => hok.step ht)
  intro s hs
  refine ⟨fun _ => ⟨(hok s hs).matched, fun _ => (hok s hs).allTold_iff⟩, ?_⟩
  intro shard server phase hpanicked hstep
  obtain ⟨t, ht⟩ := (hok s hs).remove_unblocked hstep
  exact ⟨t, by simp only [hosting, Hosting.step, hpanicked, if_true, ht]⟩

/-- The handler adds the shard of the node. -/
def addShard : List HostingEvent :=
  [.call, .handler .lock, .handler .register, .handler (.intn 0 0), .handler (.ask 0 none),
    .handler (.ask 0 none), .handler .relock, .handler .unlock]

/-- The shard comes and goes before `Shutdown`: the only cleaner has been told. -/
theorem cleaner_lifecycle_removed :
    ∃ h, (hosting [1] (smallMap [[1]] [])).Run (fun _ _ => True) h ∧
      ∃ s ∈ h, (s.phase = .returned ∧ s.shutdown = true ∧ s.cleaners = [.told]) ∧
        s.Matched ∧ (s.AllTold ↔ ∀ shard, shard ∉ s.server.availableShards) := by
  obtain ⟨h, run, s, hs, hend⟩ := (hosting [1] (smallMap [[1]] [])).exists_run_of_replay
    (fun _ _ => True)
    (addShard ++ [.update (smallMap [[2]] []), .call, .handler .lock, .handler (.check 1),
      .handler .register, .handler (.remove 1), .handler .unlock, .shutdown])
    (fun h => ∃ s ∈ h.head?, s.phase = .returned ∧ s.shutdown = true ∧ s.cleaners = [.told])
    (by decide +kernel)
  have hmem : s ∈ h := List.mem_of_mem_head? hs
  obtain ⟨hmatched, htold⟩ := (cleaner_lifecycle run s hmem).1 hend.1
  exact ⟨h, run, s, hmem, hend, hmatched, htold hend.2.1⟩

/-- After `Shutdown` the cleaner of a shard that is still hosted runs on. -/
theorem cleaner_outlives_shutdown :
    ∃ h, (hosting [1] (smallMap [[1]] [])).Run (fun _ _ => True) h ∧
      ∃ s ∈ h, s.phase = .returned ∧ s.shutdown = true ∧ s.cleaners = [.running] := by
  obtain ⟨h, run, s, hs, hend⟩ := (hosting [1] (smallMap [[1]] [])).exists_run_of_replay
    (fun _ _ => True) (addShard ++ [.shutdown])
    (fun h => ∃ s ∈ h.head?, s.phase = .returned ∧ s.shutdown = true ∧ s.cleaners = [.running])
    (by decide +kernel)
  exact ⟨h, run, s, List.mem_of_mem_head? hs, hend⟩

end KvLab
