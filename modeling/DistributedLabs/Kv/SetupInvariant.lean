import DistributedLabs.Kv.Migration
import DistributedLabs.Kv.Setup
import DistributedLabs.Kv.Updates

/-!
How far a server has come from one shard map to the next. A server that is settled hosts
what the current map gives it. When the map is swapped its handler may already be at work,
because of an earlier notification, and then it may see some of the new map; it still adds
only what is new and removes only what is gone. A handler that started on a notification of
the new map leads to the new map.
-/

namespace KvLab

open ShardMapState (Gradual Keeps)

/-- The node list was read from this map. -/
def Fetch.Routed (sm : ShardMapState) (f : Fetch) : Prop :=
  ∀ numNodes startIndex k, f.phase = .asking numNodes startIndex k →
    numNodes = (sm.nodesForShard f.shard).length

/-- The handler adds shards that are new to the node and removes shards that are gone. -/
def Course (old cur : ShardMapState) (node : GoString) : HandlerPhase → Prop
  | .locking | .returned => True
  | .scanning added removed _ =>
      (∀ t ∈ added, node ∈ cur.nodesForShard t ∧ node ∉ old.nodesForShard t) ∧
      ∀ t ∈ removed, node ∉ cur.nodesForShard t
  | .copying fetches _ removed =>
      (∀ f ∈ fetches, (node ∈ cur.nodesForShard f.shard ∧ node ∉ old.nodesForShard f.shard) ∧
        f.Routed cur) ∧
      ∀ t ∈ removed, node ∉ cur.nodesForShard t
  | .finishing _ removed => ∀ t ∈ removed, node ∉ cur.nodesForShard t

/-- The shard is not hosted, and the handler has not seen that it is to be added. -/
structure Absent (shard : Int) (server : KvServerImpl) (phase : HandlerPhase) : Prop where
  hosted : shard ∉ server.availableShards
  added : ∀ added removed todo, phase = .scanning added removed todo → shard ∉ added

/-- A server on its way from the old map to the current one. It has what it has in both
maps, and the entries of the shard if it has the shard in both. -/
structure Moving (old cur : ShardMapState) (shard : Int) (entries : List (GoString × GoString))
    (node : GoString) (server : KvServerImpl) (phase : HandlerPhase) : Prop where
  name : server.nodeName = node
  handler : HandlerOk cur entries server phase
  prepared : Prepared server cur phase
  keep : ∀ t, node ∈ old.nodesForShard t → node ∈ cur.nodesForShard t →
    t ∈ server.availableShards
  course : Course old cur node phase
  carried : node ∈ cur.nodesForShard shard →
    Progress cur shard entries (node ∉ old.nodesForShard shard) server phase ∨
      node ∉ old.nodesForShard shard ∧ Absent shard server phase
  holds : node ∈ old.nodesForShard shard → node ∈ cur.nodesForShard shard →
    server.Holds cur.numShards entries

/-- The assumptions on a map. -/
structure ShardMapState.Fits (sm : ShardMapState) : Prop where
  valid : sm.isValid = true
  pos : 1 ≤ sm.numShards
  lt : sm.numShards < 2 ^ 31

section Node

variable {old cur : ShardMapState} {shard : Int} {entries : List (GoString × GoString)}
  {node : GoString} {server server' : KvServerImpl} {phase phase' : HandlerPhase}
  {e : HandlerEvent} {free : Bool}

theorem mem_assigned_iff (hm : cur.Fits) (hname : server.nodeName = node) (t : Int) :
    t ∈ server.assigned cur ↔ node ∈ cur.nodesForShard t := by
  rw [KvServerImpl.mem_assigned hm.valid hm.lt, ShardMapState.mem_nodesForShard, hname]

/-- The answer to a goroutine: values of its shard that do not contradict the entries, and
all of them if it asks for the shard. -/
structure Answered (cur : ShardMapState) (shard : Int) (entries : List (GoString × GoString))
    (node : GoString) (phase : HandlerPhase) (e : HandlerEvent) : Prop where
  filed : ∀ i values, e = .ask i (some values) → ∀ t ∈ phase.fetchShard i, ∀ v ∈ values,
    KvServerImpl.entryOf cur v = some t
  faithful : ∀ i values, e = .ask i (some values) → ∀ v ∈ values, v.Faithful entries
  complete : AnswerOk cur shard entries node phase e

theorem answered_of_not_ask (h : e.isAsk = false) : Answered cur shard entries node phase e := by
  refine ⟨?_, ?_, ?_⟩
  · intro i values heq
    rw [heq] at h
    cases h
  · intro i values heq
    rw [heq] at h
    cases h
  · intro i answer heq
    rw [heq] at h
    cases h

theorem course_step (hm : cur.Fits) (hname : server.nodeName = node)
    (hkeep : ∀ t, node ∈ old.nodesForShard t → node ∈ cur.nodesForShard t →
      t ∈ server.availableShards)
    (hc : Course old cur node phase)
    (h : server.HandlerMove cur free phase e server' phase') : Course old cur node phase' := by
  cases h with
  | lock _ =>
      refine ⟨fun t ht => ?_, fun t ht => absurd ht List.not_mem_nil⟩
      obtain ⟨hassigned, hnot⟩ := KvServerImpl.mem_shardsToBeAdded.mp ht
      rw [mem_assigned_iff hm hname] at hassigned
      exact ⟨hassigned, fun hold => hnot (hkeep t hold hassigned)⟩
  | keep _ _ => exact hc
  | drop _ ha =>
      refine ⟨hc.1, fun t ht => ?_⟩
      cases List.mem_append.mp ht with
      | inl ht => exact hc.2 t ht
      | inr ht =>
          rw [List.mem_singleton.mp ht]
          rwa [mem_assigned_iff hm hname] at ha
  | skip => exact hc.2
  | register _ =>
      refine ⟨List.forall_mem_map.mpr fun t ht => ⟨hc.1 t ht, ?_⟩, hc.2⟩
      intro numNodes startIndex k heq
      cases heq
  | @intn _ _ _ i _ t q hi hstart =>
      refine ⟨fun f hf => ?_, hc.2⟩
      cases List.mem_or_eq_of_mem_set hf with
      | inl hf => exact hc.1 f hf
      | inr hf =>
          subst hf
          refine ⟨(hc.1 _ (List.mem_of_getElem? hi)).1, ?_⟩
          intro numNodes startIndex k heq
          simp only at heq
          subst heq
          simp only [fetchStart] at hstart
          split at hstart
          · cases hstart
          · split at hstart <;> cases hstart
            rfl
  | @askNext _ _ _ i _ t _ _ _ q hi hnext =>
      refine ⟨fun f hf => ?_, hc.2⟩
      cases List.mem_or_eq_of_mem_set hf with
      | inl hf => exact hc.1 f hf
      | inr hf =>
          subst hf
          obtain ⟨hshard, hrouted⟩ := hc.1 _ (List.mem_of_getElem? hi)
          refine ⟨hshard, ?_⟩
          obtain ⟨rfl, _⟩ := fetchNext_next hnext
          intro numNodes startIndex k heq
          cases heq
          exact hrouted _ _ _ rfl
  | askDone hi hdone =>
      exact ⟨fun f hf => hc.1 f (List.mem_of_mem_eraseIdx hf), hc.2⟩
  | relock _ => exact hc.2
  | insert _ => exact hc
  | remove _ _ => exact fun t ht => hc t (List.mem_of_mem_erase ht)
  | unlock => trivial

/-- What the node has in the current map stays hosted. -/
theorem hosted_step (hc : Course old cur node phase)
    (h : server.HandlerMove cur free phase e server' phase') {t : Int}
    (ht : node ∈ cur.nodesForShard t) (hs : t ∈ server.availableShards) :
    t ∈ server'.availableShards := by
  cases h with
  | lock _ | keep _ _ | drop _ _ | skip | intn _ _ | askNext _ _ | askDone _ _ | relock _
  | unlock => exact hs
  | register _ => exact KvServerImpl.mem_register.mpr (Or.inr hs)
  | insert hserver => exact ((KvServerImpl.insertValue_ok hserver).2 t).mpr hs
  | remove hgone hserver =>
      refine ((KvServerImpl.removeShard_ok hserver).2 t).mpr ⟨?_, hs⟩
      rintro rfl
      exact hc _ hgone ht

/-- What is hosted was hosted or is new. -/
theorem hosted_back (hc : Course old cur node phase)
    (h : server.HandlerMove cur free phase e server' phase') {t : Int}
    (hs : t ∈ server'.availableShards) :
    t ∈ server.availableShards ∨ node ∈ cur.nodesForShard t := by
  cases h with
  | lock _ | keep _ _ | drop _ _ | skip | intn _ _ | askNext _ _ | askDone _ _ | relock _
  | unlock => exact Or.inl hs
  | register _ =>
      cases KvServerImpl.mem_register.mp hs with
      | inl hadded => exact Or.inr (hc.1 t hadded).1
      | inr hs => exact Or.inl hs
  | insert hserver => exact Or.inl (((KvServerImpl.insertValue_ok hserver).2 t).mp hs)
  | remove _ hserver => exact Or.inl (((KvServerImpl.removeShard_ok hserver).2 t).mp hs).2

/-- A shard that the handler has not seen is added when the handler sees it, or not at
all. -/
theorem Absent.step (ha : Absent shard server phase) (hm : cur.Fits)
    (hname : server.nodeName = node) (hcur : node ∈ cur.nodesForShard shard)
    (hold : node ∉ old.nodesForShard shard)
    (h : server.HandlerMove cur free phase e server' phase') :
    Progress cur shard entries (node ∉ old.nodesForShard shard) server' phase' ∨
      node ∉ old.nodesForShard shard ∧ Absent shard server' phase' := by
  cases h with
  | lock _ =>
      have hassigned := (mem_assigned_iff hm hname shard).mpr hcur
      refine Or.inl (.scanning hassigned List.not_mem_nil (Or.inl ⟨?_, hold⟩))
      exact KvServerImpl.mem_shardsToBeAdded.mpr ⟨hassigned, ha.hosted⟩
  | keep _ _ | drop _ _ =>
      refine Or.inr ⟨hold, ha.hosted, ?_⟩
      intro added removed todo heq
      cases heq
      exact ha.added _ _ _ rfl
  | skip | intn _ _ | askNext _ _ | askDone _ _ | relock _ | unlock =>
      refine Or.inr ⟨hold, ha.hosted, ?_⟩
      intro added removed todo heq
      cases heq
  | register _ =>
      refine Or.inr ⟨hold, ?_, ?_⟩
      · rw [KvServerImpl.mem_register]
        exact not_or.mpr ⟨ha.added _ _ _ rfl, ha.hosted⟩
      · intro added removed todo heq
        cases heq
  | insert hserver =>
      refine Or.inr ⟨hold, ?_, ?_⟩
      · rw [(KvServerImpl.insertValue_ok hserver).2]
        exact ha.hosted
      · intro added removed todo heq
        cases heq
  | remove _ hserver =>
      refine Or.inr ⟨hold, ?_, ?_⟩
      · rw [(KvServerImpl.removeShard_ok hserver).2]
        exact fun h => ha.hosted h.2
      · intro added removed todo heq
        cases heq

theorem Moving.step (h : Moving old cur shard entries node server phase) (hm : cur.Fits)
    (hs : ∀ e ∈ entries, shardFor e.1 cur.numShards = some shard)
    (hans : Answered cur shard entries node phase e)
    (hkept : node ∉ old.nodesForShard shard →
      ∃ other ∈ cur.nodesForShard shard, other ≠ node)
    (hmove : server.HandlerMove cur free phase e server' phase') :
    Moving old cur shard entries node server' phase' where
  name := hmove.nodeName_eq.trans h.name
  handler := handlerOk_step h.handler hans.faithful hmove
  prepared := prepared_step h.prepared hans.filed hmove
  keep := fun t hold hcur => hosted_step h.course hmove hcur (h.keep t hold hcur)
  course := course_step hm h.name h.keep h.course hmove
  carried := by
    intro hcur
    cases h.carried hcur with
    | inl hp =>
        refine Or.inl (hp.step hs h.handler.faithful ?_ ?_ hmove)
        · rw [h.name]
          exact hans.complete
        · rw [h.name]
          exact fun hnew _ => hkept hnew
    | inr ha => exact ha.2.step hm h.name hcur ha.1 hmove
  holds := by
    intro hold hcur
    cases h.carried hcur with
    | inl hp =>
        exact hp.holds_of_old (not_not_intro hold) (h.holds hold hcur) hs h.handler.faithful
          hmove
    | inr ha => exact absurd hold ha.1

/-- A server with the same shards and entries has come as far. -/
theorem Moving.congr (h : Moving old cur shard entries node server phase)
    (hname : server'.nodeName = server.nodeName)
    (hshards : ∀ t, t ∈ server'.availableShards ↔ t ∈ server.availableShards)
    (hheld : ∀ e ∈ entries, server'.held cur.numShards e.1 = server.held cur.numShards e.1)
    (hfiled : server'.Filed cur.numShards) :
    Moving old cur shard entries node server' phase where
  name := hname.trans h.name
  handler := by
    refine ⟨hfiled, ?_, h.handler.faithful⟩
    intro e he item hitem
    rw [hheld e he] at hitem
    exact h.handler.consistent e he item hitem
  prepared := by
    have hp := h.prepared
    cases phase with
    | locking | returned => trivial
    | scanning added removed todo => exact ⟨hp.1, fun t ht => (hshards t).mpr (hp.2 t ht)⟩
    | copying fetches responses removed =>
        simp only [Prepared, hshards] at hp ⊢
        exact hp
    | finishing values removed =>
        simp only [Prepared, hshards] at hp ⊢
        exact hp
  keep := fun t hold hcur => (hshards t).mpr (h.keep t hold hcur)
  course := h.course
  carried := by
    intro hcur
    cases h.carried hcur with
    | inl hp => exact Or.inl (hp.congr hname hshards hheld)
    | inr ha =>
        refine Or.inr ⟨ha.1, ?_, ha.2.added⟩
        rw [hshards]
        exact ha.2.hosted
  holds := fun hold hcur => (h.holds hold hcur).congr hheld

/-- The handler does not panic. -/
theorem Moving.no_panic (h : Moving old cur shard entries node server phase) (hm : cur.Fits)
    {r : Except Panic (KvServerImpl × HandlerPhase)}
    (hstep : server.HandlerStep cur free phase e r) (panic : Panic) : r ≠ .error panic := by
  intro hr
  obtain ⟨hinsert, hremove⟩ := prepared_panic h.prepared hstep hr
  have hc := h.course
  cases hstep with
  | lock _ | keep _ _ | drop _ _ | skip | register _ | askNext _ _ | askDone _ _ | relock _
  | unlock => cases hr
  | @intn _ _ _ _ _ t q hi hf =>
      obtain ⟨_, hzero⟩ := fetchStart_error (hf.trans (congrArg some (except_map_error hr)))
      have hmem := (hc.1 _ (List.mem_of_getElem? hi)).1.1
      rw [List.length_eq_zero_iff.mp hzero] at hmem
      cases hmem
  | @askPanic fetches _ _ i _ t numNodes startIndex k _ hi hf =>
      obtain ⟨_, hk, hnone⟩ := fetchNext_error hf
      have hrouted := (hc.1 _ (List.mem_of_getElem? hi)).2 _ _ _ rfl
      rw [fetchNode, List.getElem?_eq_none_iff] at hnone
      have hlt := Nat.mod_lt (startIndex + k) (Nat.lt_of_le_of_lt (Nat.zero_le k) hk)
      simp only at hrouted
      omega
  | insert =>
      have herr := except_map_error hr
      cases KvServerImpl.insertValue_error herr with
      | inl hzero =>
          subst hzero
          simp only [KvServerImpl.insertValue, getShardForKey_eq hm.pos] at herr
          split at herr <;> cases herr
      | inr hmissing => exact hinsert hmissing
  | remove _ =>
      obtain ⟨rfl, _⟩ := KvServerImpl.removeShard_error (except_map_error hr)
      exact hremove rfl

/-- The handler of a settled server has nothing to add and nothing to remove, and if its
node has the shard then the server has the entries. So it is at the start of its way to any
other map. -/
theorem Moving.swap {next : ShardMapState} (h : Moving cur cur shard entries node server phase)
    (hwithin : ∀ t ∈ server.availableShards, node ∈ cur.nodesForShard t) (hm : next.Fits)
    (hn : next.numShards = cur.numShards) : Moving cur next shard entries node server phase := by
  have hremoved : ∀ {removed : List Int}, (∀ t ∈ removed, node ∉ cur.nodesForShard t) →
      (∀ t ∈ removed, t ∈ server.availableShards) → removed = [] := by
    intro removed hgone hhosted
    apply List.eq_nil_iff_forall_not_mem.mpr
    intro t ht
    exact hgone t ht (hwithin t (hhosted t ht))
  have hadded : ∀ {added : List Int},
      (∀ t ∈ added, node ∈ cur.nodesForShard t ∧ node ∉ cur.nodesForShard t) → added = [] := by
    intro added hnew
    apply List.eq_nil_iff_forall_not_mem.mpr
    intro t ht
    exact (hnew t ht).2 (hnew t ht).1
  have hc := h.course
  have hp := h.prepared
  refine ⟨h.name, ⟨?_, ?_, h.handler.faithful⟩, prepared_congr hn hp,
    fun t hold _ => h.keep t hold hold, ?_, ?_, ?_⟩
  · rw [hn]
    exact h.handler.filed
  · rw [hn]
    exact h.handler.consistent
  · cases phase with
    | locking | returned => trivial
    | scanning added removed todo =>
        obtain rfl := hadded hc.1
        obtain rfl := hremoved hc.2 fun t ht => hp.2 t (List.mem_append_left _ ht)
        exact ⟨fun t ht => absurd ht List.not_mem_nil, fun t ht => absurd ht List.not_mem_nil⟩
    | copying fetches responses removed =>
        obtain rfl := hremoved hc.2 hp.2.1
        refine ⟨fun f hf => ?_, fun t ht => absurd ht List.not_mem_nil⟩
        have hf := (hc.1 f hf).1
        exact absurd hf.1 hf.2
    | finishing values removed =>
        obtain rfl := hremoved hc hp.2.1
        exact fun t ht => absurd ht List.not_mem_nil
  · intro hnext
    have hassigned := (mem_assigned_iff hm h.name shard).mpr hnext
    by_cases hcur : node ∈ cur.nodesForShard shard
    · have hholds : server.Holds next.numShards entries := by
        rw [hn]
        exact h.holds hcur hcur
      refine Or.inl ?_
      cases phase with
      | locking =>
          exact .locking hassigned (fun hnot => absurd (h.keep shard hcur hcur) hnot)
            fun _ => hholds
      | returned => exact .returned hholds
      | scanning added removed todo =>
          obtain rfl := hadded hc.1
          obtain rfl := hremoved hc.2 fun t ht => hp.2 t (List.mem_append_left _ ht)
          exact .scanning hassigned List.not_mem_nil (Or.inr ⟨List.not_mem_nil, hholds⟩)
      | copying fetches responses removed =>
          obtain rfl := hremoved hc.2 hp.2.1
          exact .copying List.not_mem_nil (Or.inr fun e he => Or.inr (hholds e he))
      | finishing values removed =>
          obtain rfl := hremoved hc hp.2.1
          exact .finishing List.not_mem_nil fun e he => Or.inr (hholds e he)
    · refine Or.inr ⟨hcur, fun hs => hcur (hwithin shard hs), ?_⟩
      rintro added removed todo rfl
      obtain rfl := hadded hc.1
      exact List.not_mem_nil
  · intro hcur _
    rw [hn]
    exact h.holds hcur hcur

/-- The first notification of the current map. -/
theorem Moving.notify (h : Moving old cur shard entries node server .returned)
    (hm : cur.Fits) : Moving old cur shard entries node server .locking := by
  refine ⟨h.name, ⟨h.handler.filed, h.handler.consistent, fun v hv => absurd hv List.not_mem_nil⟩,
    trivial, h.keep, trivial, fun hcur => ?_, h.holds⟩
  cases h.carried hcur with
  | inl hp =>
      cases hp with
      | returned hholds =>
          refine Or.inl (.locking ((mem_assigned_iff hm h.name shard).mpr hcur) ?_
            fun _ => hholds)
          exact fun hnot hold => hnot (h.keep shard hold hcur)
  | inr ha =>
      refine Or.inr ⟨ha.1, ha.2.hosted, ?_⟩
      intro added removed todo heq
      cases heq

/-- The second one finds the server settled. -/
theorem Moving.settle (h : Moving old cur shard entries node server .returned)
    (hm : cur.Fits) (hcourse : OnCourse server cur .returned) :
    Moving cur cur shard entries node server .locking ∧
      ∀ t ∈ server.availableShards, node ∈ cur.nodesForShard t := by
  have hhosted : ∀ t, node ∈ cur.nodesForShard t ↔ t ∈ server.availableShards := by
    intro t
    rw [← hcourse t, mem_assigned_iff hm h.name]
  have hholds : node ∈ cur.nodesForShard shard → server.Holds cur.numShards entries := by
    intro hcur
    cases h.carried hcur with
    | inl hp =>
        cases hp with
        | returned hholds => exact hholds
    | inr ha => exact absurd ((hhosted shard).mp hcur) ha.2.hosted
  refine ⟨⟨h.name, ⟨h.handler.filed, h.handler.consistent,
    fun v hv => absurd hv List.not_mem_nil⟩, trivial, fun t hcur _ => (hhosted t).mp hcur, trivial,
    fun hcur => ?_, fun hcur _ => hholds hcur⟩, fun t ht => (hhosted t).mpr ht⟩
  refine Or.inl (.locking ((mem_assigned_iff hm h.name shard).mpr hcur) ?_
    fun _ => hholds hcur)
  exact fun hnot => absurd ((hhosted shard).mp hcur) hnot

end Node

/-- A server has yet to be notified of the current map, or it has been, or it has handled it
and been notified again. -/
inductive Mode
  | waiting
  | signalled
  | settled
  deriving DecidableEq

/-- The map that the server comes from. -/
def Mode.base (old cur : ShardMapState) : Mode → ShardMapState
  | .waiting | .signalled => old
  | .settled => cur

def TestPos.mode : TestPos → GoString → Mode
  | .idle _, _ | .panicked, _ => .settled
  | .updating true todo _, node => if todo.contains node then .waiting else .signalled
  | .updating false todo _, node => if todo.contains node then .signalled else .settled

structure NodeInv (old cur : ShardMapState) (shard : Int) (entries : List (GoString × GoString))
    (node : GoString) (mode : Mode) (server : KvServerImpl) (phase : HandlerPhase) : Prop where
  moving : Moving (mode.base old cur) cur shard entries node server phase
  course : mode = .signalled → OnCourse server cur phase
  within : mode = .settled → ∀ t ∈ server.availableShards, node ∈ cur.nodesForShard t

/-- What a workflow still has to do. -/
def TestPos.Ok (shard : Int) (sm : ShardMapState) : TestPos → Prop
  | .idle _ => True
  | .updating _ todo next => (todo.Nodup ∧ ∀ node ∈ todo, node ∈ sm.nodes) ∧ next.Ok shard sm
  | .panicked => False

structure Setup.Ok (shard : Int) (entries : List (GoString × GoString)) (old : ShardMapState)
    (s : Setup) : Prop where
  running : s.cluster.panicked = none
  test : s.test.Ok shard s.shardMap
  map : s.shardMap.Fits
  ofShard : ∀ e ∈ entries, shardFor e.1 s.shardMap.numShards = some shard
  gradual : old.Gradual s.shardMap
  kept : old.Keeps shard s.shardMap
  nodes : ∀ node ∈ s.shardMap.nodes, NodeInv old s.shardMap shard entries node
    (s.test.mode node) (s.cluster.servers node) (s.cluster.phases node)
  outside : ∀ node ∉ s.shardMap.nodes, s.cluster.phases node = .returned

section Setup

variable {shard : Int} {entries : List (GoString × GoString)} {old : ShardMapState}
  {s t : Setup} {node : GoString}

theorem NodeInv.step {cur : ShardMapState} {mode : Mode} {server server' : KvServerImpl}
    {phase phase' : HandlerPhase} {e : HandlerEvent} {free : Bool}
    (h : NodeInv old cur shard entries node mode server phase) (hm : cur.Fits)
    (hs : ∀ e ∈ entries, shardFor e.1 cur.numShards = some shard)
    (hans : Answered cur shard entries node phase e) (hkept : old.Keeps shard cur)
    (hmove : server.HandlerMove cur free phase e server' phase') :
    NodeInv old cur shard entries node mode server' phase' where
  moving := by
    refine h.moving.step hm hs hans ?_ hmove
    intro hnew
    obtain ⟨other, hold, hcur⟩ := hkept
    refine ⟨other, hcur, ?_⟩
    rintro rfl
    cases mode with
    | waiting | signalled => exact hnew hold
    | settled => exact hnew hcur
  course := fun hmode => onCourse_step h.moving.prepared (h.course hmode) hmove
  within := by
    intro hmode t ht
    cases hosted_back h.moving.course hmove ht with
    | inl ht => exact h.within hmode t ht
    | inr ht => exact ht

theorem NodeInv.congr {cur : ShardMapState} {mode : Mode} {server server' : KvServerImpl}
    {phase : HandlerPhase} (h : NodeInv old cur shard entries node mode server phase)
    (hname : server'.nodeName = server.nodeName)
    (hshards : ∀ t, t ∈ server'.availableShards ↔ t ∈ server.availableShards)
    (hheld : ∀ e ∈ entries, server'.held cur.numShards e.1 = server.held cur.numShards e.1)
    (hfiled : server'.Filed cur.numShards) :
    NodeInv old cur shard entries node mode server' phase where
  moving := h.moving.congr hname hshards hheld hfiled
  course := by
    intro hmode
    have hc := h.course hmode
    have hassigned : server'.assigned cur = server.assigned cur :=
      KvServerImpl.assigned_congr hname
    cases phase with
    | locking => trivial
    | scanning added removed todo =>
        simp only [OnCourse, hassigned, hshards] at hc ⊢
        exact hc
    | copying fetches responses removed =>
        simp only [OnCourse, hassigned, hshards] at hc ⊢
        exact hc
    | finishing values removed =>
        simp only [OnCourse, hassigned, hshards] at hc ⊢
        exact hc
    | returned =>
        simp only [OnCourse, hassigned, hshards] at hc ⊢
        exact hc
  within := fun hmode t ht => h.within hmode t ((hshards t).mp ht)

/-- Replaces the server of a node. -/
theorem Setup.Ok.update (h : s.Ok shard entries old) {server : KvServerImpl}
    {phase : HandlerPhase}
    (hnode : node ∈ s.shardMap.nodes → NodeInv old s.shardMap shard entries node
      (s.test.mode node) server phase)
    (hout : node ∉ s.shardMap.nodes → phase = .returned) :
    Setup.Ok shard entries old { s with cluster := { s.cluster with
      servers := Function.update s.cluster.servers node server
      phases := Function.update s.cluster.phases node phase } } := by
  refine ⟨h.running, h.test, h.map, h.ofShard, h.gradual, h.kept, fun other ho => ?_,
    fun other ho => ?_⟩
  · by_cases heq : other = node
    · subst heq
      simpa only [Function.update_self] using hnode ho
    · simpa only [Function.update_of_ne heq] using h.nodes other ho
  · by_cases heq : other = node
    · subst heq
      simpa only [Function.update_self] using hout ho
    · simpa only [Function.update_of_ne heq] using h.outside other ho

/-- Replaces the server of a node by one with the same shards and entries. -/
theorem Setup.Ok.replace (h : s.Ok shard entries old) (node : GoString) (server : KvServerImpl)
    (hname : server.nodeName = (s.cluster.servers node).nodeName)
    (hshards : ∀ u, u ∈ server.availableShards ↔
      u ∈ (s.cluster.servers node).availableShards)
    (hheld : ∀ e ∈ entries, server.held s.shardMap.numShards e.1 =
      (s.cluster.servers node).held s.shardMap.numShards e.1)
    (hfiled : (s.cluster.servers node).Filed s.shardMap.numShards →
      server.Filed s.shardMap.numShards) :
    Setup.Ok shard entries old { s with cluster := { s.cluster with
      servers := Function.update s.cluster.servers node server } } := by
  have hnode : node ∈ s.shardMap.nodes → NodeInv old s.shardMap shard entries node
      (s.test.mode node) server (s.cluster.phases node) := fun hin =>
    (h.nodes node hin).congr hname hshards hheld
      (hfiled (h.nodes node hin).moving.handler.filed)
  simpa only [Function.update_eq_self] using h.update hnode (h.outside node)

theorem Setup.Ok.handler (h : s.Ok shard entries old) {e : HandlerEvent} {cluster : Cluster}
    (hans : node ∈ s.shardMap.nodes →
      Answered s.shardMap shard entries node (s.cluster.phases node) e)
    (hstep : s.cluster.handler s.shardMap node e = some cluster) :
    Setup.Ok shard entries old { s with cluster } := by
  by_cases hin : node ∈ s.shardMap.nodes
  · have hnode := h.nodes node hin
    simp only [Cluster.handler] at hstep
    split at hstep
    · cases hstep
    · rename_i panic heq
      exact absurd rfl (hnode.moving.no_panic h.map
        (KvServerImpl.handlerStep_cases _ _ heq) panic)
    · rename_i server phase heq
      cases hstep
      have hmove := (KvServerImpl.handlerStep_cases _ _ heq).move
      exact h.update (fun _ => hnode.step h.map h.ofShard (hans hin) h.kept hmove)
        fun hout => absurd hin hout
  · -- Without a listener there is no handler.
    simp only [Cluster.handler, h.outside node hin] at hstep
    cases hstep

end Setup

end KvLab
