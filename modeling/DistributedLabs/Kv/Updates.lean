import DistributedLabs.Kv.Handler
import DistributedLabs.Library.History
import DistributedLabs.Library.Phases

/-!
The handlers of one server. `MakeKvServer` starts the listen loop and then calls the
handler itself, so that its call and a call of the loop can be under way together. Every
`Update` swaps the shard map and owes the loop one notification. A handler acts in its
second critical section on sets that it computed in the first; this is sound if the other
handler leaves the shards of these sets alone in between.
-/

namespace KvLab

namespace HandlerPhase

/-- The shards that the handler has found to remove and has not removed yet. -/
def removing : HandlerPhase → List Int
  | .scanning _ removed _ | .copying _ _ removed | .finishing _ removed => removed
  | .locking | .returned => []

/-- The shards that the handler has not looked at yet. -/
def unseen : HandlerPhase → List Int
  | .scanning _ _ todo => todo
  | .locking | .copying _ _ _ | .finishing _ _ | .returned => []

/-- A shard is asked for, or a peer has returned a value of it. -/
def awaits (sm : ShardMapState) (shard : Int) : HandlerPhase → Bool
  | .copying fetches responses _ => fetches.any (·.shard == shard) ||
      responses.flatten.any (KvServerImpl.entryOf sm · == some shard)
  | .locking | .scanning _ _ _ | .finishing _ _ | .returned => false

def isScanning : HandlerPhase → Bool
  | .scanning _ _ _ => true
  | .locking | .copying _ _ _ | .finishing _ _ | .returned => false

end HandlerPhase

inductive Caller where
  | makeKvServer
  | listenLoop
  deriving DecidableEq

def Caller.other : Caller → Caller
  | .makeKvServer => .listenLoop
  | .listenLoop => .makeKvServer

/-- A listen loop that is in its select has no handler under way: `loop` is `returned`. -/
structure Node where
  shardMap : ShardMapState
  server : KvServerImpl
  initial : HandlerPhase
  loop : HandlerPhase
  pending : Nat
  panicked : Option Panic

inductive NodeEvent where
  | update (sm : ShardMapState)
  | notify
  | handler (caller : Caller) (e : HandlerEvent)

namespace Node

variable (s : Node)

def phase : Caller → HandlerPhase
  | .makeKvServer => s.initial
  | .listenLoop => s.loop

def setPhase (phase : HandlerPhase) : Caller → Node
  | .makeKvServer => { s with initial := phase }
  | .listenLoop => { s with loop := phase }

def lockFree : Bool := !s.initial.holdsLock && !s.loop.holdsLock

def handler (caller : Caller) (e : HandlerEvent) : Option Node :=
  match s.server.handlerStep s.shardMap s.lockFree (s.phase caller) e with
  | none => none
  | some (.error panic) => some { s with panicked := some panic }
  | some (.ok (server, phase)) => some ({ s with server }.setPhase phase caller)

def step (e : NodeEvent) : Option Node :=
  if s.panicked = none then
    match e with
    | .update sm => some { s with shardMap := sm, pending := s.pending + 1 }
    | .notify =>
        if s.loop = .returned ∧ 0 < s.pending then
          some { s with loop := .locking, pending := s.pending - 1 }
        else none
    | .handler caller e => s.handler caller e
  else none

/-- The number of shards is constant, and a peer returns values of the shard it is asked
for. -/
def PeersOk : NodeEvent → Prop
  | .update sm => sm.numShards = s.shardMap.numShards
  | .handler caller (.ask i (some values)) => ∀ shard ∈ (s.phase caller).fetchShard i,
      ∀ v ∈ values, KvServerImpl.entryOf s.shardMap v = some shard
  | _ => True

instance (e : NodeEvent) : Decidable (s.PeersOk e) :=
  match e with
  | .update _ => inferInstanceAs (Decidable (_ = _))
  | .handler caller (.ask i (some _)) =>
      Option.decidableForallMem ((s.phase caller).fetchShard i)
  | .handler _ (.ask _ none) | .handler _ .lock | .handler _ (.check _)
  | .handler _ .register | .handler _ (.intn _ _) | .handler _ .relock
  | .handler _ (.insert _) | .handler _ (.remove _) | .handler _ .unlock
  | .notify => isTrue trivial

/-- While a handler asks its peers, the other one does not take up a shard that the first
is going to remove, and removes none that the first has registered and copies values to. -/
def NoOverlap : NodeEvent → Prop
  | .handler caller (.check shard) => shard ∉ (s.phase caller.other).removing
  | .handler caller (.remove shard) =>
      (s.phase caller.other).awaits s.shardMap shard = false
  | _ => True

instance (e : NodeEvent) : Decidable (s.NoOverlap e) :=
  match e with
  | .handler _ (.check _) => inferInstanceAs (Decidable (_ ∉ _))
  | .handler _ (.remove _) => inferInstanceAs (Decidable (_ = false))
  | .handler _ .lock | .handler _ (.ask _ _) | .handler _ .register
  | .handler _ (.intn _ _) | .handler _ .relock | .handler _ (.insert _)
  | .handler _ .unlock | .update _ | .notify => isTrue trivial

/-- No handler is under way and every `Update` has delivered its notification. -/
def Quiescent : Prop :=
  s.panicked = none ∧ s.initial = .returned ∧ s.loop = .returned ∧ s.pending = 0

instance : Decidable s.Quiescent := inferInstanceAs (Decidable (_ ∧ _ ∧ _ ∧ _))

/-- The hosted shards are those that the current shard map assigns. -/
def UpToDate : Prop :=
  ∀ shard, shard ∈ s.server.availableShards ↔ shard ∈ s.server.assigned s.shardMap

end Node

/-- A server under construction, with the notifications of `Update`s that swapped the
shard map before its listener was registered. -/
def node (nodeName : GoString) (sm : ShardMapState) (pending : Nat) :
    Machine Node NodeEvent where
  init := ⟨sm, ⟨nodeName, ∅⟩, .locking, .returned, pending, none⟩
  step := Node.step

section Handler

variable {server server' : KvServerImpl} {sm : ShardMapState} {free : Bool}
  {phase phase' : HandlerPhase} {e : HandlerEvent}

/-- What a handler is going to dereference is there. -/
def Prepared (server : KvServerImpl) (sm : ShardMapState) : HandlerPhase → Prop
  | .locking | .returned => True
  | .scanning _ removed todo => (removed ++ todo).Nodup ∧
      ∀ shard ∈ removed ++ todo, shard ∈ server.availableShards
  | .copying fetches responses removed =>
      removed.Nodup ∧ (∀ shard ∈ removed, shard ∈ server.availableShards) ∧
      (∀ f ∈ fetches, f.shard ∈ server.availableShards) ∧
      ∀ values ∈ responses, ∀ v ∈ values, ∃ shard ∈ server.availableShards,
        KvServerImpl.entryOf sm v = some shard
  | .finishing values removed =>
      removed.Nodup ∧ (∀ shard ∈ removed, shard ∈ server.availableShards) ∧
      ∀ v ∈ values, ∃ shard ∈ server.availableShards, KvServerImpl.entryOf sm v = some shard

/-- The sets of a handler fit the shard map: when it returns, the hosted shards are the
assigned ones. -/
def OnCourse (server : KvServerImpl) (sm : ShardMapState) : HandlerPhase → Prop
  | .locking => True
  | .scanning added removed todo =>
      (∀ shard, shard ∈ added ↔
        shard ∈ server.assigned sm ∧ shard ∉ server.availableShards) ∧
      ∀ shard, shard ∈ removed ↔
        shard ∈ server.availableShards ∧ shard ∉ server.assigned sm ∧ shard ∉ todo
  | .copying _ _ removed | .finishing _ removed => ∀ shard,
      shard ∈ server.assigned sm ↔ shard ∈ server.availableShards ∧ shard ∉ removed
  | .returned => ∀ shard, shard ∈ server.assigned sm ↔ shard ∈ server.availableShards

theorem hosted_move {fetches : List Fetch} {i : Nat} {shard : Int} {q q' : FetchPhase}
    (hi : fetches[i]? = some ⟨shard, q⟩)
    (h : ∀ f ∈ fetches, f.shard ∈ server.availableShards) :
    ∀ f ∈ fetches.set i ⟨shard, q'⟩, f.shard ∈ server.availableShards :=
  (Phases.forall_move ⟨shard, q'⟩ hi rfl).mpr h

theorem prepared_step (hp : Prepared server sm phase)
    (hans : ∀ i values, e = .ask i (some values) → ∀ shard ∈ phase.fetchShard i,
      ∀ v ∈ values, KvServerImpl.entryOf sm v = some shard)
    (h : KvServerImpl.HandlerMove server sm free phase e server' phase') :
    Prepared server' sm phase' := by
  cases h with
  | lock _ =>
      exact ⟨server.availableShards.keys_nodup, fun _ h => h⟩
  | @keep _ removed todo shard _ _ =>
      have hsub : (removed ++ todo.erase shard).Sublist (removed ++ todo) :=
        List.Sublist.append_left List.erase_sublist removed
      exact ⟨hp.1.sublist hsub, fun other ho => hp.2 other (hsub.subset ho)⟩
  | @drop _ removed todo shard ht _ =>
      have hperm : (removed ++ [shard] ++ todo.erase shard).Perm (removed ++ todo) := by
        rw [List.append_assoc]
        exact List.Perm.append_left removed (List.perm_cons_erase ht).symm
      exact ⟨hperm.nodup_iff.mpr hp.1, fun other ho => hp.2 other (hperm.mem_iff.mp ho)⟩
  | skip =>
      simp only [Prepared, List.append_nil] at hp
      exact ⟨hp.1, hp.2, fun v hv => absurd hv List.not_mem_nil⟩
  | register _ =>
      simp only [Prepared, List.append_nil] at hp
      refine ⟨hp.1, ?_, ?_, fun values hv => absurd hv List.not_mem_nil⟩
      · exact fun shard hs => KvServerImpl.mem_register.mpr (Or.inr (hp.2 shard hs))
      · simp only [List.forall_mem_map]
        exact fun shard hs => KvServerImpl.mem_register.mpr (Or.inl hs)
  | intn hi _ | askNext hi _ =>
      obtain ⟨hnodup, hremoved, hfetches, hvalues⟩ := hp
      exact ⟨hnodup, hremoved, hosted_move hi hfetches, hvalues⟩
  | @askDone fetches responses removed i answer shard _ _ _ values hi hdone =>
      obtain ⟨hnodup, hremoved, hfetches, hvalues⟩ := hp
      refine ⟨hnodup, hremoved, fun f hf => hfetches f (List.mem_of_mem_eraseIdx hf), ?_⟩
      simp only [List.forall_mem_append, List.forall_mem_singleton]
      refine ⟨hvalues, fun v hv => ?_⟩
      rcases fetchNext_done hdone with ⟨rfl, _⟩ | ⟨rfl, _⟩
      · have hshard := hans i values rfl shard (by simp [HandlerPhase.fetchShard, hi]) v hv
        exact ⟨shard, hfetches _ (List.mem_of_getElem? hi), hshard⟩
      · exact absurd hv List.not_mem_nil
  | relock _ =>
      obtain ⟨hnodup, hremoved, _, hvalues⟩ := hp
      refine ⟨hnodup, hremoved, fun v hv => ?_⟩
      obtain ⟨values, hmem, hv⟩ := List.mem_flatten.mp hv
      exact hvalues values hmem v hv
  | insert hserver =>
      obtain ⟨_, hkeys⟩ := KvServerImpl.insertValue_ok hserver
      obtain ⟨hnodup, hremoved, hvalues⟩ := hp
      refine ⟨hnodup, fun shard hs => (hkeys shard).mpr (hremoved shard hs), ?_⟩
      intro v hv
      obtain ⟨shard, hs, hv⟩ := hvalues v (List.mem_cons_of_mem _ hv)
      exact ⟨shard, (hkeys shard).mpr hs, hv⟩
  | remove _ hserver =>
      obtain ⟨_, hkeys⟩ := KvServerImpl.removeShard_ok hserver
      obtain ⟨hnodup, hremoved, _⟩ := hp
      refine ⟨hnodup.erase _, ?_, fun v hv => absurd hv List.not_mem_nil⟩
      intro other ho
      obtain ⟨hne, ho⟩ := (hnodup.mem_erase_iff).mp ho
      exact (hkeys other).mpr ⟨hne, hremoved other ho⟩
  | unlock => exact trivial

/-- A prepared handler does not dereference a missing shard. -/
theorem prepared_panic {r : Except Panic (KvServerImpl × HandlerPhase)} {panic : Panic}
    (hp : Prepared server sm phase)
    (h : KvServerImpl.HandlerStep server sm free phase e r) (hr : r = .error panic) :
    panic ≠ .insertIntoMissing ∧ panic ≠ .removeMissing := by
  cases h with
  | lock _ | keep _ _ | drop _ _ | skip | register _ | askNext _ _ | askDone _ _ | relock _
  | unlock => cases hr
  | intn _ hf =>
      obtain ⟨rfl, _⟩ := fetchStart_error (hf.trans (congrArg some (except_map_error hr)))
      exact ⟨Panic.noConfusion, Panic.noConfusion⟩
  | askPanic _ hf =>
      cases hr
      obtain ⟨rfl, _⟩ := fetchNext_error hf
      exact ⟨Panic.noConfusion, Panic.noConfusion⟩
  | insert =>
      have herr := except_map_error hr
      refine ⟨?_, ?_⟩
      · rintro rfl
        obtain ⟨shard, hentry, hmissing⟩ := KvServerImpl.insertValue_missing herr
        obtain ⟨shard', hs, hentry'⟩ := hp.2.2 _ List.mem_cons_self
        obtain rfl := Option.some.inj (hentry.symm.trans hentry')
        exact hmissing hs
      · rintro rfl
        rcases KvServerImpl.insertValue_error herr with heq | heq
        · cases heq
        · cases heq
  | remove hs =>
      obtain ⟨_, hmissing⟩ := KvServerImpl.removeShard_error (except_map_error hr)
      exact absurd (hp.2.1 _ hs) hmissing

theorem onCourse_step (hp : Prepared server sm phase) (hc : OnCourse server sm phase)
    (h : KvServerImpl.HandlerMove server sm free phase e server' phase') :
    OnCourse server' sm phase' := by
  cases h with
  | lock _ =>
      refine ⟨fun shard => KvServerImpl.mem_shardsToBeAdded, fun shard => ?_⟩
      simp only [AList.mem_keys, List.not_mem_nil, false_iff]
      exact fun hs => hs.2.2 hs.1
  | @keep _ _ _ kept _ ha =>
      refine ⟨hc.1, fun shard => ?_⟩
      rw [hc.2 shard]
      rcases eq_or_ne shard kept with rfl | hne
      · simp only [ha, not_true_eq_false, false_and, and_false]
      · rw [List.mem_erase_of_ne hne]
  | @drop _ removed todo dropped ht ha =>
      refine ⟨hc.1, fun shard => ?_⟩
      rw [List.mem_append, List.mem_singleton, hc.2 shard]
      rcases eq_or_ne shard dropped with rfl | hne
      · have hgone : shard ∉ todo.erase shard :=
          (List.nodup_append'.mp hp.1).2.1.not_mem_erase
        have havail := hp.2 shard (List.mem_append_right removed ht)
        simp only [ha, hgone, havail, not_false_eq_true, and_self, or_true]
      · rw [List.mem_erase_of_ne hne]
        simp only [hne, or_false]
  | skip =>
      obtain ⟨hadded, hremoved⟩ := hc
      intro shard
      have h₁ := hadded shard
      have h₂ := hremoved shard
      simp only [List.not_mem_nil, false_iff, not_false_eq_true, and_true] at h₁ h₂
      tauto
  | @register added _ _ =>
      obtain ⟨hadded, hremoved⟩ := hc
      intro shard
      have h₁ := hadded shard
      have h₂ := hremoved shard
      simp only [List.not_mem_nil, not_false_eq_true, and_true] at h₂
      have hname : (server.register added).assigned sm = server.assigned sm :=
        KvServerImpl.assigned_congr rfl
      rw [KvServerImpl.mem_register, hname]
      tauto
  | intn _ _ | askNext _ _ | askDone _ _ | relock _ => exact hc
  | insert hserver =>
      obtain ⟨hname, hkeys⟩ := KvServerImpl.insertValue_ok hserver
      intro shard
      rw [KvServerImpl.assigned_congr hname, hkeys]
      exact hc shard
  | @remove removed gone _ hs hserver =>
      obtain ⟨hname, hkeys⟩ := KvServerImpl.removeShard_ok hserver
      intro shard
      rw [KvServerImpl.assigned_congr hname, hkeys, hc shard]
      rcases eq_or_ne shard gone with rfl | hne
      · simp only [hs, not_true_eq_false, and_false, ne_eq, false_and]
      · simp only [List.mem_erase_of_ne hne, ne_eq, hne, not_false_eq_true, true_and]
  | unlock =>
      intro shard
      rw [hc shard]
      simp only [List.not_mem_nil, not_false_eq_true, and_true]

/-- A handler step that registers and removes no shard. -/
theorem keys_move (h : KvServerImpl.HandlerMove server sm free phase e server' phase')
    (hs : phase.isScanning = false) (he : ∀ shard, e ≠ .remove shard) (shard : Int) :
    shard ∈ server'.availableShards ↔ shard ∈ server.availableShards := by
  cases h with
  | lock _ | intn _ _ | askNext _ _ | askDone _ _ | relock _ | unlock => rfl
  | keep _ _ | drop _ _ | skip | register _ => cases hs
  | insert hserver => exact (KvServerImpl.insertValue_ok hserver).2 shard
  | remove _ _ => exact absurd rfl (he _)

theorem holdsLock_move (h : KvServerImpl.HandlerMove server sm free phase e server' phase')
    (hl : phase'.holdsLock = true) : phase.holdsLock = true ∨ free = true := by
  cases h with
  | lock hf | relock hf => exact Or.inr hf
  | keep _ _ | drop _ _ | skip | insert _ | remove _ _ => exact Or.inl rfl
  | register _ | intn _ _ | askNext _ _ | askDone _ _ | unlock => cases hl

theorem removing_move (h : KvServerImpl.HandlerMove server sm free phase e server' phase')
    {shard : Int} (hs : shard ∈ phase'.removing) :
    shard ∈ phase.removing ∨ e = .check shard := by
  cases h with
  | lock _ | unlock => cases hs
  | keep _ _ | skip | register _ | intn _ _ | askNext _ _ | askDone _ _ | relock _ | insert _ =>
      exact Or.inl hs
  | drop _ _ =>
      rcases List.mem_append.mp hs with hs | hs
      · exact Or.inl hs
      · rw [List.mem_singleton.mp hs]
        exact Or.inr rfl
  | remove _ _ => exact Or.inl (List.mem_of_mem_erase hs)

/-- A handler looks at all the hosted shards before it registers the new ones. -/
theorem unseen_move (h : KvServerImpl.HandlerMove server sm free phase e server' phase')
    {shard : Int} (hs : shard ∈ phase.unseen) : shard ∈ phase'.unseen ∨ e = .check shard := by
  cases h with
  | lock _ | skip | register _ | intn _ _ | askNext _ _ | askDone _ _ | relock _ | insert _
  | remove _ _ | unlock => cases hs
  | @keep _ _ _ seen _ _ | @drop _ _ _ seen _ _ =>
      rcases eq_or_ne shard seen with rfl | hne
      · exact Or.inr rfl
      · exact Or.inl ((List.mem_erase_of_ne hne).mpr hs)

theorem isScanning_move (h : KvServerImpl.HandlerMove server sm free phase e server' phase')
    (hs : phase.isScanning = false) : e = .lock ∨ phase'.isScanning = false := by
  cases h with
  | lock _ => exact Or.inl rfl
  | keep _ _ | drop _ _ | skip | register _ => cases hs
  | intn _ _ | askNext _ _ | askDone _ _ | relock _ | insert _ | remove _ _ | unlock =>
      exact Or.inr rfl

theorem onCourse_of_keys (hname : server'.nodeName = server.nodeName)
    (hkeys : ∀ shard, shard ∈ server'.availableShards ↔ shard ∈ server.availableShards)
    (hc : OnCourse server sm phase) : OnCourse server' sm phase := by
  cases phase with
  | locking => trivial
  | scanning _ _ _ | copying _ _ _ | finishing _ _ | returned =>
      simp only [OnCourse, KvServerImpl.assigned_congr hname, hkeys]
      exact hc

theorem removing_hosted (hp : Prepared server sm phase) :
    ∀ shard ∈ phase.removing, shard ∈ server.availableShards := by
  cases phase with
  | locking | returned => exact fun _ h => absurd h List.not_mem_nil
  | scanning _ _ _ => exact fun shard hs => hp.2 shard (List.mem_append_left _ hs)
  | copying _ _ _ | finishing _ _ => exact hp.2.1

theorem prepared_mono (hsub : ∀ shard ∈ server.availableShards, shard ∈ server'.availableShards)
    (hp : Prepared server sm phase) : Prepared server' sm phase := by
  have hvalue {v : GetShardValue} (h : ∃ shard ∈ server.availableShards,
      KvServerImpl.entryOf sm v = some shard) :
      ∃ shard ∈ server'.availableShards, KvServerImpl.entryOf sm v = some shard := by
    obtain ⟨shard, hs, hv⟩ := h
    exact ⟨shard, hsub shard hs, hv⟩
  cases phase with
  | locking | returned => trivial
  | scanning _ _ _ => exact ⟨hp.1, fun shard hs => hsub shard (hp.2 shard hs)⟩
  | copying _ _ _ =>
      exact ⟨hp.1, fun shard hs => hsub shard (hp.2.1 shard hs),
        fun f hf => hsub _ (hp.2.2.1 f hf),
        fun values hvalues v hv => hvalue (hp.2.2.2 values hvalues v hv)⟩
  | finishing _ _ =>
      exact ⟨hp.1, fun shard hs => hsub shard (hp.2.1 shard hs),
        fun v hv => hvalue (hp.2.2 v hv)⟩

/-- A shard is removed that a handler, which waits for the lock, has no use for. -/
theorem prepared_removed {shard : Int} (hl : phase.holdsLock = false)
    (hr : shard ∉ phase.removing) (ha : phase.awaits sm shard = false)
    (hkeys : ∀ other, other ∈ server'.availableShards ↔
      other ≠ shard ∧ other ∈ server.availableShards)
    (hp : Prepared server sm phase) : Prepared server' sm phase := by
  cases phase with
  | locking | returned => trivial
  | scanning _ _ _ | finishing _ _ => cases hl
  | copying fetches responses removed =>
      simp only [HandlerPhase.awaits, Bool.or_eq_false_iff, List.any_eq_false, beq_iff_eq] at ha
      obtain ⟨hnodup, hremoved, hfetches, hvalues⟩ := hp
      refine ⟨hnodup, fun other ho => ?_, fun f hf => ?_, fun values hmem v hv => ?_⟩
      · exact (hkeys other).mpr ⟨ne_of_mem_of_not_mem ho hr, hremoved other ho⟩
      · exact (hkeys _).mpr ⟨ha.1 f hf, hfetches f hf⟩
      · obtain ⟨other, ho, hentry⟩ := hvalues values hmem v hv
        refine ⟨other, (hkeys other).mpr ⟨?_, ho⟩, hentry⟩
        rintro rfl
        exact ha.2 v (List.mem_flatten.mpr ⟨values, hmem, hv⟩) hentry

/-- What the other handler does leaves a handler prepared. -/
theorem prepared_other {q : HandlerPhase}
    (h : KvServerImpl.HandlerMove server sm free q e server' phase')
    (hremove : ∀ shard, e = .remove shard → phase.holdsLock = false ∧
      shard ∉ phase.removing ∧ phase.awaits sm shard = false)
    (hp : Prepared server sm phase) : Prepared server' sm phase := by
  cases h with
  | lock _ | keep _ _ | drop _ _ | skip | intn _ _ | askNext _ _ | askDone _ _ | relock _
  | unlock => exact hp
  | register _ =>
      exact prepared_mono (fun shard hs => KvServerImpl.mem_register.mpr (Or.inr hs)) hp
  | insert hserver =>
      exact prepared_mono
        (fun shard hs => ((KvServerImpl.insertValue_ok hserver).2 shard).mpr hs) hp
  | remove _ hserver =>
      obtain ⟨hl, hr, ha⟩ := hremove _ rfl
      exact prepared_removed hl hr ha (KvServerImpl.removeShard_ok hserver).2 hp

theorem prepared_congr {sm' : ShardMapState} (h : sm'.numShards = sm.numShards)
    (hp : Prepared server sm phase) : Prepared server sm' phase := by
  cases phase with
  | locking | returned => trivial
  | scanning _ _ _ => exact hp
  | copying _ _ _ | finishing _ _ =>
      simp only [Prepared, KvServerImpl.entryOf, h] at hp ⊢
      exact hp

end Handler

namespace Node

variable {s t : Node}

theorem handler_cases {caller : Caller} {e : HandlerEvent}
    (h : s.handler caller e = some t) :
    (∃ panic, s.server.HandlerStep s.shardMap s.lockFree (s.phase caller) e (.error panic) ∧
      t = { s with panicked := some panic }) ∨
    ∃ server phase, s.server.HandlerStep s.shardMap s.lockFree (s.phase caller) e
        (.ok (server, phase)) ∧ t = { s with server }.setPhase phase caller := by
  simp only [handler] at h
  split at h
  · cases h
  · rename_i panic hstep
    cases h
    exact Or.inl ⟨panic, KvServerImpl.handlerStep_cases _ _ hstep, rfl⟩
  · rename_i server phase hstep
    cases h
    exact Or.inr ⟨server, phase, KvServerImpl.handlerStep_cases _ _ hstep, rfl⟩

/-- The handler is going to leave the assigned shards hosted: its sets fit the shard map,
and the other one removes no shard that this one has looked at. -/
structure Leads (s : Node) (caller : Caller) : Prop where
  onCourse : OnCourse s.server s.shardMap (s.phase caller)
  scanned : (s.phase caller.other).isScanning = false
  unseen : ∀ shard ∈ (s.phase caller.other).removing, shard ∈ (s.phase caller).unseen

/-- The handlers remove different shards, what they dereference is there, and unless another
handler is still to come one of them leads to the assigned shards. -/
structure Ok (s : Node) : Prop where
  exclusive : ∀ caller, (s.phase caller).holdsLock = true →
    (s.phase caller.other).holdsLock = false
  disjoint : ∀ caller, ∀ shard ∈ (s.phase caller).removing,
    shard ∉ (s.phase caller.other).removing
  prepared : ∀ caller, Prepared s.server s.shardMap (s.phase caller)
  missing : s.panicked ≠ some .insertIntoMissing ∧ s.panicked ≠ some .removeMissing
  course : 0 < s.pending ∨ ∃ caller, s.phase caller = .locking ∨ s.Leads caller

theorem forall_caller {P : Caller → Prop} (caller : Caller) (h : P caller)
    (h' : P caller.other) (c : Caller) : P c := by
  cases caller <;> cases c <;> assumption

theorem caller_cases (caller c : Caller) : c = caller ∨ c = caller.other := by
  cases caller <;> cases c <;> simp [Caller.other]

theorem other_other (caller : Caller) : caller.other.other = caller := by
  cases caller <;> rfl

theorem lockFree_phase (h : s.lockFree = true) (caller : Caller) :
    (s.phase caller).holdsLock = false := by
  simp only [lockFree, Bool.and_eq_true, Bool.not_eq_true'] at h
  cases caller with
  | makeKvServer => exact h.1
  | listenLoop => exact h.2

theorem isScanning_of_not_holdsLock {phase : HandlerPhase} (h : phase.holdsLock = false) :
    phase.isScanning = false := by
  cases phase with
  | scanning _ _ _ => cases h
  | locking | copying _ _ _ | finishing _ _ | returned => rfl

/-- What a step of one handler leaves of the state. -/
structure Moved (s t : Node) (caller : Caller) (server : KvServerImpl)
    (phase : HandlerPhase) : Prop where
  server : t.server = server
  shardMap : t.shardMap = s.shardMap
  pending : t.pending = s.pending
  panicked : t.panicked = s.panicked
  self : t.phase caller = phase
  other : t.phase caller.other = s.phase caller.other

theorem moved (s : Node) (caller : Caller) (server : KvServerImpl) (phase : HandlerPhase) :
    Moved s ({ s with server }.setPhase phase caller) caller server phase := by
  cases caller <;> exact ⟨rfl, rfl, rfl, rfl, rfl, rfl⟩

section Moves

variable {caller : Caller} {e : HandlerEvent} {server : KvServerImpl} {phase : HandlerPhase}

theorem Ok.exclusive_step (hok : s.Ok) (ht : Moved s t caller server phase)
    (h : s.server.HandlerMove s.shardMap s.lockFree (s.phase caller) e server phase)
    (c : Caller) (hl : (t.phase c).holdsLock = true) :
    (t.phase c.other).holdsLock = false := by
  have hmover (hl : phase.holdsLock = true) : (s.phase caller.other).holdsLock = false := by
    rcases holdsLock_move h hl with hheld | hfree
    · exact hok.exclusive caller hheld
    · exact lockFree_phase hfree caller.other
  rcases caller_cases caller c with rfl | rfl
  · rw [ht.other]
    exact hmover (ht.self ▸ hl)
  · rw [other_other, ht.self]
    rw [ht.other] at hl
    by_contra hheld
    rw [hmover (by simpa using hheld)] at hl
    cases hl

theorem Ok.disjoint_step (hok : s.Ok) (ht : Moved s t caller server phase)
    (hno : s.NoOverlap (.handler caller e))
    (h : s.server.HandlerMove s.shardMap s.lockFree (s.phase caller) e server phase)
    (c : Caller) (shard : Int) (hs : shard ∈ (t.phase c).removing) :
    shard ∉ (t.phase c.other).removing := by
  have hmover (hs : shard ∈ phase.removing) : shard ∉ (s.phase caller.other).removing := by
    rcases removing_move h hs with hs | rfl
    · exact hok.disjoint caller shard hs
    · exact hno
  rcases caller_cases caller c with rfl | rfl
  · rw [ht.other]
    exact hmover (ht.self ▸ hs)
  · rw [other_other, ht.self]
    rw [ht.other] at hs
    exact fun hself => hmover hself hs

theorem Ok.prepared_move (hok : s.Ok) (ht : Moved s t caller server phase)
    (hpeers : s.PeersOk (.handler caller e)) (hno : s.NoOverlap (.handler caller e))
    (h : s.server.HandlerMove s.shardMap s.lockFree (s.phase caller) e server phase) :
    ∀ c, Prepared t.server t.shardMap (t.phase c) := by
  rw [ht.server, ht.shardMap]
  refine forall_caller caller ?_ ?_
  · rw [ht.self]
    refine prepared_step (hok.prepared caller) ?_ h
    rintro i values rfl
    exact hpeers
  · rw [ht.other]
    refine prepared_other h ?_ (hok.prepared caller.other)
    rintro shard rfl
    refine ⟨?_, ?_, hno⟩
    · apply hok.exclusive
      generalize hq : s.phase caller = q at h
      cases h
      rfl
    · apply hok.disjoint
      generalize hq : s.phase caller = q at h
      cases h
      assumption

/-- A handler that has just looked at the shard map leads. -/
theorem Ok.leads_lock (hok : s.Ok) (ht : Moved s t caller server phase)
    (hq : s.phase caller = .locking)
    (h : s.server.HandlerMove s.shardMap s.lockFree (s.phase caller) e server phase) :
    t.Leads caller := by
  have hcourse := onCourse_step (hok.prepared caller) (hq ▸ trivial) h
  refine ⟨?_, ?_, ?_⟩
  · rw [ht.server, ht.shardMap, ht.self]
    exact hcourse
  · rw [hq] at h
    cases h with
    | lock hf =>
        rw [ht.other]
        exact isScanning_of_not_holdsLock (lockFree_phase hf caller.other)
  · rw [ht.other, ht.self]
    rw [hq] at h
    cases h with
    | lock hf => exact removing_hosted (hok.prepared caller.other)

theorem Ok.leads_self (hok : s.Ok) (ht : Moved s t caller server phase)
    (hno : s.NoOverlap (.handler caller e))
    (h : s.server.HandlerMove s.shardMap s.lockFree (s.phase caller) e server phase)
    (hlead : s.Leads caller) : t.Leads caller := by
  refine ⟨?_, ?_, ?_⟩
  · rw [ht.server, ht.shardMap, ht.self]
    exact onCourse_step (hok.prepared caller) hlead.onCourse h
  · rw [ht.other]
    exact hlead.scanned
  · rw [ht.other, ht.self]
    intro shard hs
    rcases unseen_move h (hlead.unseen shard hs) with hunseen | rfl
    · exact hunseen
    · exact absurd hs hno

/-- A handler that leads goes on leading while the other one is past its scan. -/
theorem Ok.leads_other (hok : s.Ok) (ht : Moved s t caller server phase)
    (h : s.server.HandlerMove s.shardMap s.lockFree (s.phase caller) e server phase)
    (hlock : e ≠ .lock) (hlead : s.Leads caller.other) : t.Leads caller.other := by
  have hscanned : (s.phase caller).isScanning = false := by
    simpa only [other_other] using hlead.scanned
  have hunseen : ∀ shard ∈ (s.phase caller).removing,
      shard ∈ (s.phase caller.other).unseen := by
    simpa only [other_other] using hlead.unseen
  have hkeep : ∀ shard, e ≠ .remove shard := by
    rintro shard rfl
    have hmem : shard ∈ (s.phase caller).removing ∧ (s.phase caller).holdsLock = true := by
      generalize hq : s.phase caller = q at h
      cases h
      exact ⟨‹_›, rfl⟩
    have hleft := hunseen shard hmem.1
    have hfree := hok.exclusive caller hmem.2
    generalize hq : s.phase caller.other = q at hleft hfree
    cases q with
    | scanning _ _ _ => cases hfree
    | locking | copying _ _ _ | finishing _ _ | returned => cases hleft
  refine ⟨?_, ?_, ?_⟩
  · rw [ht.server, ht.shardMap, ht.other]
    exact onCourse_of_keys h.nodeName_eq (keys_move h hscanned hkeep) hlead.onCourse
  · rw [other_other, ht.self]
    exact (isScanning_move h hscanned).resolve_left hlock
  · rw [other_other, ht.self, ht.other]
    intro shard hs
    rcases removing_move h hs with hs | rfl
    · exact hunseen shard hs
    · generalize hq : s.phase caller = q at h hscanned
      cases h <;> cases hscanned

theorem Ok.course_step (hok : s.Ok) (ht : Moved s t caller server phase)
    (hno : s.NoOverlap (.handler caller e))
    (h : s.server.HandlerMove s.shardMap s.lockFree (s.phase caller) e server phase) :
    0 < t.pending ∨ ∃ c, t.phase c = .locking ∨ t.Leads c := by
  rw [ht.pending]
  rcases hok.course with hp | ⟨c, hc⟩
  · exact Or.inl hp
  · refine Or.inr ?_
    rcases caller_cases caller c with rfl | rfl
    · rcases hc with hq | hlead
      · exact ⟨c, Or.inr (hok.leads_lock ht hq h)⟩
      · exact ⟨c, Or.inr (hok.leads_self ht hno h hlead)⟩
    · rcases hc with hq | hlead
      · exact ⟨caller.other, Or.inl (ht.other.trans hq)⟩
      · by_cases hlock : e = .lock
        · have hq : s.phase caller = .locking := by
            subst hlock
            generalize hq : s.phase caller = q at h
            cases h
            rfl
          exact ⟨caller, Or.inr (hok.leads_lock ht hq h)⟩
        · exact ⟨caller.other, Or.inr (hok.leads_other ht h hlock hlead)⟩

theorem Ok.handler_ok (hok : s.Ok) (ht : Moved s t caller server phase)
    (hpeers : s.PeersOk (.handler caller e)) (hno : s.NoOverlap (.handler caller e))
    (h : s.server.HandlerMove s.shardMap s.lockFree (s.phase caller) e server phase) : t.Ok where
  exclusive := hok.exclusive_step ht h
  disjoint := hok.disjoint_step ht hno h
  prepared := hok.prepared_move ht hpeers hno h
  missing := by
    rw [ht.panicked]
    exact hok.missing
  course := hok.course_step ht hno h

end Moves

theorem Ok.step (hok : s.Ok) {e : NodeEvent} (hpeers : s.PeersOk e) (hno : s.NoOverlap e)
    (h : s.step e = some t) : t.Ok := by
  unfold Node.step at h
  obtain ⟨_, h⟩ := Option.ite_none_right_eq_some.mp h
  cases e with
  | update sm =>
      cases h
      exact ⟨hok.exclusive, hok.disjoint,
        fun caller => prepared_congr hpeers (hok.prepared caller), hok.missing,
        Or.inl (Nat.succ_pos _)⟩
  | notify =>
      obtain ⟨_, h⟩ := Option.ite_none_right_eq_some.mp h
      cases h
      refine ⟨?_, ?_, ?_, hok.missing, Or.inr ⟨.listenLoop, Or.inl rfl⟩⟩
      · exact forall_caller .listenLoop (fun hl => nomatch hl) (fun _ => rfl)
      · exact forall_caller .listenLoop (fun _ hs => absurd hs List.not_mem_nil)
          (fun _ _ => List.not_mem_nil)
      · exact forall_caller .listenLoop trivial (hok.prepared .makeKvServer)
  | handler caller e =>
      rcases handler_cases h with ⟨panic, hstep, rfl⟩ | ⟨server, phase, hstep, rfl⟩
      · obtain ⟨h₁, h₂⟩ := prepared_panic (hok.prepared caller) hstep rfl
        refine ⟨hok.exclusive, hok.disjoint, hok.prepared, ⟨?_, ?_⟩, ?_⟩
        · exact fun heq => h₁ (Option.some.inj heq)
        · exact fun heq => h₂ (Option.some.inj heq)
        · exact hok.course.imp_right fun ⟨c, hc⟩ =>
            ⟨c, hc.imp_right fun hlead => ⟨hlead.onCourse, hlead.scanned, hlead.unseen⟩⟩
      · exact hok.handler_ok (moved s caller server phase) hpeers hno hstep.move

theorem Ok.upToDate (hok : s.Ok) (hq : s.Quiescent) : s.UpToDate := by
  obtain ⟨_, hinitial, hloop, hpending⟩ := hq
  have hreturned : ∀ caller, s.phase caller = .returned :=
    forall_caller .makeKvServer hinitial hloop
  rcases hok.course with hp | ⟨caller, hlocking | hlead⟩
  · omega
  · rw [hreturned] at hlocking
    cases hlocking
  · have hcourse := hlead.onCourse
    rw [hreturned] at hcourse
    exact fun shard => (hcourse shard).symm

end Node

theorem node_init_ok (nodeName : GoString) (sm : ShardMapState) (pending : Nat) :
    (node nodeName sm pending).init.Ok :=
  ⟨Node.forall_caller .makeKvServer (fun _ => rfl) (fun _ => rfl),
    Node.forall_caller .makeKvServer (fun _ hs => absurd hs List.not_mem_nil)
      (fun _ hs => absurd hs List.not_mem_nil),
    Node.forall_caller .makeKvServer trivial trivial, ⟨nofun, nofun⟩,
    Or.inr ⟨.makeKvServer, Or.inl rfl⟩⟩

/-- In a run in which the handlers leave each other's shards alone, no entry of
`availableShards` is missed and the hosted shards come to be the assigned ones. -/
theorem overlapping_updates_harmless {nodeName : GoString} {sm : ShardMapState}
    {pending : Nat} {h : List Node}
    (run : (node nodeName sm pending).Run (fun s e => s.PeersOk e ∧ s.NoOverlap e) h) :
    ∀ s ∈ h, (s.panicked ≠ some .insertIntoMissing ∧ s.panicked ≠ some .removeMissing) ∧
      (s.Quiescent → s.UpToDate) := by
  have hall := Machine.Run.invariant (I := Node.Ok) (node_init_ok nodeName sm pending)
    (fun s e t hok hp hstep => hok.step hp.1 hp.2 hstep) run
  exact fun s hs => ⟨(hall s hs).missing, (hall s hs).upToDate⟩

/-- While `MakeKvServer` copies shard 2, an update replaces it by shard 1. The listen loop
registers shard 1 at once, and removes shard 2 after `MakeKvServer` has returned. -/
theorem overlapping_updates_harmless_replace : ∃ h,
    (node [1] (smallMap [[2]] [[1], [2]]) 0).Run (fun s e => s.PeersOk e ∧ s.NoOverlap e) h ∧
    (∃ s ∈ h, s.initial.isCopying = true ∧ s.loop.isCopying = true) ∧
    (∃ s ∈ h, s.Quiescent ∧ s.server.availableShards.keys = [1]) ∧
    ∀ s ∈ h, (s.panicked ≠ some .insertIntoMissing ∧ s.panicked ≠ some .removeMissing) ∧
      (s.Quiescent → s.UpToDate) := by
  obtain ⟨h, run, hboth, hdone⟩ :=
    (node [1] (smallMap [[2]] [[1], [2]]) 0).exists_run_of_replay
      (fun s e => s.PeersOk e ∧ s.NoOverlap e)
      [.handler .makeKvServer .lock, .handler .makeKvServer .register,
        .handler .makeKvServer (.intn 0 1),
        .handler .makeKvServer (.ask 0 (some [⟨[2], [7], 1000⟩])),
        .update (smallMap [[1]] [[2]]), .notify, .handler .listenLoop .lock,
        .handler .listenLoop (.check 2), .handler .listenLoop .register,
        .handler .makeKvServer .relock, .handler .makeKvServer (.insert 0),
        .handler .makeKvServer .unlock, .handler .listenLoop (.intn 0 0),
        .handler .listenLoop (.ask 0 none), .handler .listenLoop (.ask 0 none),
        .handler .listenLoop .relock, .handler .listenLoop (.remove 2),
        .handler .listenLoop .unlock]
      (fun h => (∃ s ∈ h, s.initial.isCopying = true ∧ s.loop.isCopying = true) ∧
        ∃ s ∈ h, s.Quiescent ∧ s.server.availableShards.keys = [1])
      (by decide +kernel)
  exact ⟨h, run, hboth, hdone, overlapping_updates_harmless run⟩

/-- The listen loop removes a shard whose values `MakeKvServer` has asked for. -/
theorem insert_into_removed_shard : ∃ h,
    (node [1] (smallMap [[2]] [[1], [2]]) 0).Run (fun s e => s.PeersOk e) h ∧
    ∃ s ∈ h, s.panicked = some .insertIntoMissing :=
  (node [1] (smallMap [[2]] [[1], [2]]) 0).exists_run_of_replay (fun s e => s.PeersOk e)
    [.handler .makeKvServer .lock, .handler .makeKvServer .register,
      .handler .makeKvServer (.intn 0 1),
      .handler .makeKvServer (.ask 0 (some [⟨[2], [7], 1000⟩])),
      .update (smallMap [[2]] [[2]]), .notify, .handler .listenLoop .lock,
      .handler .listenLoop (.check 2), .handler .listenLoop .register,
      .handler .listenLoop (.remove 2), .handler .listenLoop .unlock,
      .handler .makeKvServer .relock, .handler .makeKvServer (.insert 0)]
    (fun h => ∃ s ∈ h, s.panicked = some .insertIntoMissing) (by decide +kernel)

end KvLab
