import DistributedLabs.Kv.Migration
import DistributedLabs.Kv.Updates
import DistributedLabs.Kv.Adding
import Mathlib.Data.List.Perm.Basic
import Mathlib.Data.List.Rotate

/-!
One call of `handleShardMapUpdate` from start to end, with nothing else going on. What is
left open are the start indices, the answers of the peers, the times of the insertions and
the order in which maps are ranged over and goroutines run. The first three are given; the
result does not depend on the order.
-/

namespace KvLab

/-- The servers that requests, cleaners and handlers lead to, with one number of shards. -/
inductive KvServerImpl.Reachable (numShards : Int) : KvServerImpl → Prop
  | make (nodeName : GoString) : Reachable numShards ⟨nodeName, ∅⟩
  | serve {server server' : KvServerImpl} {now : Int} {clock : GoString → Int × Int}
      {r : Request} {reply : Reply Response} (hs : Reachable numShards server)
      (h : server.serve numShards now clock r = some (server', reply)) :
      Reachable numShards server'
  | clean {server server' : KvServerImpl} {shard now : Int} (hs : Reachable numShards server)
      (h : server.clean shard now = some server') : Reachable numShards server'
  | handler {server server' : KvServerImpl} {sm : ShardMapState} {free : Bool}
      {phase phase' : HandlerPhase} {e : HandlerEvent} (hs : Reachable numShards server)
      (hn : sm.numShards = numShards)
      (h : server.handlerStep sm free phase e = some (.ok (server', phase'))) :
      Reachable numShards server'

theorem KvServerImpl.filed_handler {server server' : KvServerImpl} {sm : ShardMapState}
    {free : Bool} {phase phase' : HandlerPhase} {e : HandlerEvent}
    (hf : server.Filed sm.numShards)
    (h : server.handlerStep sm free phase e = some (.ok (server', phase'))) :
    server'.Filed sm.numShards := by
  have hok : HandlerOk sm [] server phase := ⟨hf, nofun, fun _ _ => nofun⟩
  exact (handlerOk_step hok (fun _ _ _ _ _ => nofun)
    (KvServerImpl.handlerStep_cases _ _ h).move).filed

theorem KvServerImpl.Reachable.filed {numShards : Int} {server : KvServerImpl}
    (h : server.Reachable numShards) : server.Filed numShards := by
  induction h with
  | make nodeName =>
      intro shard data hl
      cases hl
  | serve _ h ih => exact filed_serve ih h
  | clean _ h ih => exact filed_clean ih h
  | handler _ hn h ih =>
      subst hn
      exact filed_handler ih h

/-- A peer returns values of the shard that it is asked for, and each key once. -/
theorem KvServerImpl.Reachable.contents {peer : KvServerImpl} {sm : ShardMapState}
    {shard : Int} {clock : GoString → Int × Int} {values : List GetShardValue}
    (hpeer : peer.Reachable sm.numShards)
    (h : peer.getShardContents shard clock = some ⟨some values, none⟩) :
    (∀ v ∈ values, KvServerImpl.entryOf sm v = some (int32 shard)) ∧
      (values.map (·.key)).Nodup := by
  simp only [KvServerImpl.getShardContents] at h
  split at h
  · cases h
  · rename_i data hl
    cases h
    refine ⟨fun v hv => ?_, ShardData.nodup_contents_keys⟩
    obtain ⟨item, hlive, _⟩ := ShardData.mem_contents.mp hv
    exact hpeer.filed _ data hl v.key item (live_eq_some.mp hlive).1

/-- The values are what a server returns for the shard, whose number is an `int32`. -/
def FromServer (numShards shard : Int) (values : List GetShardValue) : Prop :=
  int32 shard = shard ∧ ∃ (peer : KvServerImpl) (clock : GoString → Int × Int),
    peer.Reachable numShards ∧ peer.getShardContents shard clock = some ⟨some values, none⟩

theorem FromServer.entryOf {sm : ShardMapState} {shard : Int} {values : List GetShardValue}
    (h : FromServer sm.numShards shard values) :
    ∀ v ∈ values, KvServerImpl.entryOf sm v = some shard := by
  obtain ⟨hshard, peer, clock, hpeer, hcontents⟩ := h
  rw [← hshard]
  exact (hpeer.contents hcontents).1

/-- What is asked of the peers while handlers overlap holds of servers. -/
theorem Node.peersOk_of_fromServer {s : Node} {caller : Caller} {i : Nat}
    {values : List GetShardValue} (h : ∀ shard ∈ (s.phase caller).fetchShard i,
      FromServer s.shardMap.numShards shard values) :
    s.PeersOk (.handler caller (.ask i (some values))) :=
  fun shard hs => (h shard hs).entryOf

/-- What is asked of the peers while a shard is added holds of servers, up to the keys. -/
theorem Adding.proper_of_fromServer {s : Adding} {sm : ShardMapState} {shard : Int}
    {brought : List GoString} {i : Nat} {values : List GetShardValue}
    (h : ∀ other ∈ s.phase.fetchShard i, FromServer sm.numShards other values)
    (hkeys : shard ∈ s.phase.fetchShard i → ∀ v ∈ values, v.key ∈ brought) :
    s.Proper sm shard brought (.handler (.ask i (some values))) := by
  intro other ho v hv
  refine ⟨(h other ho).entryOf v hv, ?_⟩
  rintro rfl
  exact hkeys ho v hv

/-- What a run finds outside of the server: the start index for a shard, the answer of a
node when it is asked for a shard, and the time at which a key is inserted. -/
structure Peers where
  startIndex : Int → Nat
  answer : Int → GoString → Option (List GetShardValue)
  insertedAt : GoString → Int

namespace Peers

variable (p : Peers)

/-- The first answer of other nodes, or nothing. -/
def firstOf (nodeName : GoString) (shard : Int) (nodes : List GoString) : List GetShardValue :=
  ((nodes.filter fun node => node ≠ nodeName).findSome? (p.answer shard)).getD []

/-- The values of a shard: the nodes are asked in cyclic order from the start index. -/
def fetched (sm : ShardMapState) (nodeName : GoString) (shard : Int) : List GetShardValue :=
  p.firstOf nodeName shard ((sm.nodesForShard shard).rotate (p.startIndex shard))

/-- The start indices are results of `rand.Intn`, and the answers come from servers with
the same number of shards. -/
structure Genuine (sm : ShardMapState) : Prop where
  startIndex_lt : ∀ shard, sm.nodesForShard shard ≠ [] →
    p.startIndex shard < (sm.nodesForShard shard).length
  answered : ∀ shard node values, p.answer shard node = some values →
    ∃ (peer : KvServerImpl) (clock : GoString → Int × Int), peer.Reachable sm.numShards ∧
      peer.getShardContents shard clock = some ⟨some values, none⟩

end Peers

structure Handling where
  server : KvServerImpl
  phase : HandlerPhase
  panicked : Option Panic

namespace Handling

variable (s : Handling) (sm : ShardMapState)

def step (e : HandlerEvent) : Option Handling :=
  if s.panicked ≠ none then none
  else
    match s.server.handlerStep sm true s.phase e with
    | none => none
    | some (.error panic) => some { s with panicked := some panic }
    | some (.ok (server, phase)) => some { s with server, phase }

/-- The node itself is not asked. -/
def answer (p : Peers) (i : Nat) : Option (List GetShardValue) :=
  (s.phase.asks sm i).bind fun (shard, node) =>
    if node = s.server.nodeName then none else p.answer shard node

def Follows (p : Peers) : HandlerEvent → Prop
  | .intn i startIndex => ∀ shard ∈ s.phase.fetchShard i, startIndex = p.startIndex shard
  | .ask i answer => answer = s.answer sm p i
  | .insert now => ∀ v ∈ s.phase.values.head?, now = p.insertedAt v.key
  | _ => True

instance (p : Peers) (e : HandlerEvent) : Decidable (s.Follows sm p e) :=
  match e with
  | .intn i _ => Option.decidableForallMem (s.phase.fetchShard i)
  | .ask _ _ => inferInstanceAs (Decidable (_ = _))
  | .insert _ => Option.decidableForallMem s.phase.values.head?
  | .lock | .check _ | .register | .relock | .remove _ | .unlock => isTrue trivial

end Handling

def handling (sm : ShardMapState) (server : KvServerImpl) : Machine Handling HandlerEvent where
  init := ⟨server, .locking, none⟩
  step s e := s.step sm e

/-- The node hosts the shards of the shard map. Those that it hosted before are as they
were, and the new ones hold the values that were fetched for them and nothing else. -/
structure Updated (sm : ShardMapState) (p : Peers) (before after : KvServerImpl) : Prop where
  shards : ∀ shard, shard ∈ after.availableShards ↔ shard ∈ sm.shardsForNode before.nodeName
  kept : ∀ shard ∈ after.availableShards, shard ∈ before.availableShards →
    after.availableShards.lookup shard = before.availableShards.lookup shard
  copied : ∀ shard ∈ after.availableShards, shard ∉ before.availableShards →
    ∃ data, after.availableShards.lookup shard = some data ∧
      ∀ key item, data.data.lookup key = some item ↔
        ∃ v ∈ p.fetched sm before.nodeName shard, v.key = key ∧
          item = ⟨v.value, v.ttlMsRemaining, p.insertedAt v.key⟩
  apart : ∀ shard other, shard ∈ after.availableShards → shard ∉ before.availableShards →
    other ∉ before.availableShards → other ≠ shard →
    ∀ v ∈ p.fetched sm before.nodeName shard, ∀ data,
      after.availableShards.lookup other = some data → data.data.lookup v.key = none

section Fetching

variable {sm : ShardMapState} {p : Peers} {nodeName : GoString} {shard : Int}

theorem firstOf_skip {node : GoString} {nodes : List GoString}
    (h : node = nodeName ∨ p.answer shard node = none) :
    p.firstOf nodeName shard (node :: nodes) = p.firstOf nodeName shard nodes := by
  by_cases hself : node = nodeName
  · simp [Peers.firstOf, hself]
  · have hnone := h.resolve_left hself
    simp [Peers.firstOf, hself, hnone]

theorem firstOf_answer {node : GoString} {nodes : List GoString} {values : List GetShardValue}
    (hne : node ≠ nodeName) (h : p.answer shard node = some values) :
    p.firstOf nodeName shard (node :: nodes) = values := by
  simp [Peers.firstOf, hne, h]

theorem fetchNode_eq {startIndex k : Nat} (hk : k < (sm.nodesForShard shard).length) :
    fetchNode sm shard (sm.nodesForShard shard).length startIndex k =
      ((sm.nodesForShard shard).rotate startIndex)[k]? := by
  rw [fetchNode, List.getElem?_rotate hk, Nat.add_comm]

/-- The first answer is still to come from the nodes that are left. -/
def Fetch.Asked (p : Peers) (sm : ShardMapState) (nodeName : GoString) (f : Fetch) : Prop :=
  match f.phase with
  | .started => True
  | .asking numNodes startIndex k =>
      numNodes = (sm.nodesForShard f.shard).length ∧
      p.fetched sm nodeName f.shard = p.firstOf nodeName f.shard
        (((sm.nodesForShard f.shard).rotate startIndex).drop k)

theorem asked_start {startIndex : Nat} {q : FetchPhase}
    (h : fetchStart sm shard startIndex = some (.ok q))
    (hs : startIndex = p.startIndex shard) : Fetch.Asked p sm nodeName ⟨shard, q⟩ := by
  simp only [fetchStart] at h
  split at h
  · cases h
  · split at h <;> cases h
    refine ⟨rfl, ?_⟩
    rw [List.drop_zero, hs]
    rfl

theorem drop_rotate {startIndex k : Nat} {node : GoString}
    (hk : k < (sm.nodesForShard shard).length)
    (hn : fetchNode sm shard (sm.nodesForShard shard).length startIndex k = some node) :
    ((sm.nodesForShard shard).rotate startIndex).drop k =
      node :: ((sm.nodesForShard shard).rotate startIndex).drop (k + 1) := by
  rw [fetchNode_eq hk] at hn
  obtain ⟨hlt, rfl⟩ := List.getElem?_eq_some_iff.mp hn
  exact List.drop_eq_getElem_cons hlt

theorem asked_next {numNodes startIndex k : Nat} {answer : Option (List GetShardValue)}
    {q : FetchPhase} (hf : Fetch.Asked p sm nodeName ⟨shard, .asking numNodes startIndex k⟩)
    (h : fetchNext sm nodeName shard numNodes startIndex k answer = .ok (.next q))
    (hans : ∀ node, k < numNodes → fetchNode sm shard numNodes startIndex k = some node →
      node ≠ nodeName → answer = p.answer shard node) :
    Fetch.Asked p sm nodeName ⟨shard, q⟩ := by
  simp only [Fetch.Asked] at hf
  obtain ⟨rfl, hfetched⟩ := hf
  obtain ⟨rfl, hk, node, hnode, hskip⟩ := fetchNext_next h
  refine ⟨rfl, ?_⟩
  rw [hfetched, drop_rotate hk hnode]
  apply firstOf_skip
  by_cases hself : node = nodeName
  · exact Or.inl hself
  · exact Or.inr ((hans node hk hnode hself).symm.trans (hskip.resolve_left hself))

theorem asked_done {numNodes startIndex k : Nat} {answer : Option (List GetShardValue)}
    {values : List GetShardValue}
    (hf : Fetch.Asked p sm nodeName ⟨shard, .asking numNodes startIndex k⟩)
    (h : fetchNext sm nodeName shard numNodes startIndex k answer = .ok (.done values))
    (hans : ∀ node, k < numNodes → fetchNode sm shard numNodes startIndex k = some node →
      node ≠ nodeName → answer = p.answer shard node) :
    values = p.fetched sm nodeName shard := by
  simp only [Fetch.Asked] at hf
  obtain ⟨rfl, hfetched⟩ := hf
  cases fetchNext_done h with
  | inl hanswer =>
      obtain ⟨hvalues, hk, node, hnode, hne⟩ := hanswer
      rw [hfetched, drop_rotate hk hnode, firstOf_answer hne]
      rw [← hans node hk hnode hne, hvalues]
  | inr hout =>
      obtain ⟨rfl, hk⟩ := hout
      rw [hfetched, List.drop_eq_nil_of_le]
      · rfl
      · rw [List.length_rotate]
        exact hk

/-- An answer for a shard has values of the shard, and each key once. -/
theorem answered_values {values : List GetShardValue} {node : GoString}
    (hp : p.Genuine sm) (h : p.answer shard node = some values) :
    (∀ v ∈ values, KvServerImpl.entryOf sm v = some (int32 shard)) ∧
      (values.map (·.key)).Nodup := by
  obtain ⟨peer, clock, hpeer, hcontents⟩ := hp.answered shard node values h
  exact hpeer.contents hcontents

theorem fetched_values (hp : p.Genuine sm) (nodeName : GoString) (shard : Int) :
    (∀ v ∈ p.fetched sm nodeName shard, KvServerImpl.entryOf sm v = some (int32 shard)) ∧
      ((p.fetched sm nodeName shard).map (·.key)).Nodup := by
  rw [Peers.fetched, Peers.firstOf]
  cases hfirst : (((sm.nodesForShard shard).rotate (p.startIndex shard)).filter
      fun node => node ≠ nodeName).findSome? (p.answer shard) with
  | none => exact ⟨fun v hv => absurd hv List.not_mem_nil, List.nodup_nil⟩
  | some values =>
      obtain ⟨node, _, hanswer⟩ := List.exists_of_findSome?_eq_some hfirst
      exact answered_values hp hanswer

end Fetching

section Stages

variable {sm : ShardMapState} {p : Peers} {before server server' : KvServerImpl}
  {phase phase' : HandlerPhase} {e : HandlerEvent}

/-- The new shards hold the values inserted so far, and the others are as they were. -/
structure Inserted (sm : ShardMapState) (p : Peers) (before : KvServerImpl)
    (done : List GetShardValue) (server : KvServerImpl) : Prop where
  new : ∀ shard ∈ before.shardsToBeAdded sm, ∃ data,
    server.availableShards.lookup shard = some data ∧
      ∀ key item, data.data.lookup key = some item ↔ ∃ v ∈ done,
        KvServerImpl.entryOf sm v = some shard ∧ v.key = key ∧
          item = ⟨v.value, v.ttlMsRemaining, p.insertedAt v.key⟩
  old : ∀ shard ∈ server.availableShards, shard ∉ before.shardsToBeAdded sm →
    server.availableShards.lookup shard = before.availableShards.lookup shard

/-- All the values that are inserted in the end, each key once. -/
structure Complete (sm : ShardMapState) (p : Peers) (before : KvServerImpl)
    (values : List GetShardValue) : Prop where
  mem : ∀ v, v ∈ values ↔ ∃ shard ∈ before.shardsToBeAdded sm,
    v ∈ p.fetched sm before.nodeName shard
  nodup : (values.map (·.key)).Nodup

/-- What has been fetched and inserted in each phase. -/
def UpdateStage (sm : ShardMapState) (p : Peers) (before server : KvServerImpl) :
    HandlerPhase → Prop
  | .locking => server = before
  | .scanning added _ _ => server = before ∧ added = before.shardsToBeAdded sm
  | .copying fetches responses _ => ∃ finished : List Int,
      (finished ++ fetches.map (·.shard)).Perm (before.shardsToBeAdded sm) ∧
      responses = finished.map (p.fetched sm before.nodeName) ∧
      (∀ f ∈ fetches, f.Asked p sm before.nodeName) ∧ Inserted sm p before [] server
  | .finishing values _ => ∃ done, Complete sm p before (done ++ values) ∧
      Inserted sm p before done server
  | .returned => ∃ done, Complete sm p before done ∧ Inserted sm p before done server

theorem inserted_register :
    Inserted sm p before [] (before.register (before.shardsToBeAdded sm)) := by
  refine ⟨fun shard hs => ⟨⟨∅⟩, ?_, ?_⟩, fun shard _ hs => ?_⟩
  · rw [KvServerImpl.lookup_register, if_pos hs]
  · intro key item
    constructor
    · intro hitem
      cases hitem
    · rintro ⟨v, hv, _⟩
      cases hv
  · rw [KvServerImpl.lookup_register, if_neg hs]

theorem Inserted.insertValue {done : List GetShardValue} {v : GetShardValue}
    (hi : Inserted sm p before done server) (hv : v.key ∉ done.map (·.key))
    (hs : ∃ shard ∈ before.shardsToBeAdded sm, KvServerImpl.entryOf sm v = some shard)
    (h : server.insertValue sm v (p.insertedAt v.key) = .ok server') :
    Inserted sm p before (done ++ [v]) server' := by
  obtain ⟨shard, data, hentry, hl, rfl⟩ := KvServerImpl.insertValue_eq h
  obtain ⟨shard', hadded, hentry'⟩ := hs
  obtain rfl := Option.some.inj (hentry.symm.trans hentry')
  refine ⟨fun other ho => ?_, fun other ho hnot => ?_⟩
  · obtain ⟨data', hl', hdata'⟩ := hi.new other ho
    by_cases hother : other = shard
    · subst hother
      obtain rfl := Option.some.inj (hl.symm.trans hl')
      refine ⟨_, AList.lookup_insert _, fun key item => ?_⟩
      simp only [ShardData.lookup_set, List.mem_append, List.mem_singleton, or_and_right,
        exists_or, exists_eq_left]
      by_cases hkey : key = v.key
      · -- No earlier value has this key.
        have hnone : ¬ ∃ w ∈ done, KvServerImpl.entryOf sm w = some other ∧ w.key = key ∧
            item = ⟨w.value, w.ttlMsRemaining, p.insertedAt w.key⟩ := by
          rintro ⟨w, hw, _, hwk, _⟩
          exact hv (hkey ▸ hwk ▸ List.mem_map_of_mem hw)
        rw [if_pos hkey, Option.some.injEq]
        constructor
        · exact fun hitem => Or.inr ⟨hentry, hkey.symm, hitem.symm⟩
        · rintro (hw | ⟨_, _, hitem⟩)
          · exact absurd hw hnone
          · exact hitem.symm
      · rw [if_neg hkey, hdata' key item]
        constructor
        · exact Or.inl
        · rintro (hw | ⟨_, hvk, _⟩)
          · exact hw
          · exact absurd hvk.symm hkey
    · refine ⟨data', (AList.lookup_insert_ne hother).trans hl', fun key item => ?_⟩
      simp only [hdata' key item, List.mem_append, List.mem_singleton, or_and_right,
        exists_or, exists_eq_left]
      constructor
      · exact Or.inl
      · rintro (hw | ⟨hvo, _⟩)
        · exact hw
        · exact absurd (Option.some.inj (hentry.symm.trans hvo)).symm hother
  · have hother : other ≠ shard := fun heq => hnot (heq ▸ hadded)
    have hmem := (KvServerImpl.mem_update (KvServerImpl.mem_of_lookup hl)).mp ho
    exact (AList.lookup_insert_ne hother).trans (hi.old other hmem hnot)

theorem Inserted.removeShard {done : List GetShardValue} {gone : Int}
    (hi : Inserted sm p before done server) (hs : gone ∉ before.shardsToBeAdded sm)
    (h : server.removeShard gone = .ok server') : Inserted sm p before done server' := by
  refine ⟨fun shard hadded => ?_, fun shard hmem hnot => ?_⟩
  · have hne : shard ≠ gone := fun heq => hs (heq ▸ hadded)
    obtain ⟨data, hl, hdata⟩ := hi.new shard hadded
    exact ⟨data, (KvServerImpl.lookup_removeShard h hne).trans hl, hdata⟩
  · obtain ⟨hne, hmem⟩ := ((KvServerImpl.removeShard_ok h).2 shard).mp hmem
    exact (KvServerImpl.lookup_removeShard h hne).trans (hi.old shard hmem hnot)

theorem int32_added {shard : Int} (h : shard ∈ before.shardsToBeAdded sm) :
    int32 shard = shard := by
  obtain ⟨x, _, rfl⟩ := List.mem_map.mp (KvServerImpl.mem_shardsToBeAdded.mp h).1
  exact int32_int32 x

theorem entryOf_fetched (hp : p.Genuine sm) {shard : Int}
    (hs : shard ∈ before.shardsToBeAdded sm) {v : GetShardValue}
    (hv : v ∈ p.fetched sm before.nodeName shard) :
    KvServerImpl.entryOf sm v = some shard := by
  rw [(fetched_values hp before.nodeName shard).1 v hv, int32_added hs]

/-- The values of all the new shards have different keys. -/
theorem complete_flatten (hp : p.Genuine sm) {finished : List Int}
    (h : finished.Perm (before.shardsToBeAdded sm)) :
    Complete sm p before (finished.map (p.fetched sm before.nodeName)).flatten := by
  refine ⟨fun v => ?_, ?_⟩
  · simp only [List.mem_flatten, List.mem_map, exists_exists_and_eq_and, h.mem_iff]
  · rw [← List.flatMap_def, List.map_flatMap, List.nodup_flatMap]
    refine ⟨fun shard _ => (fetched_values hp before.nodeName shard).2, ?_⟩
    have hnodup : finished.Nodup := h.nodup_iff.mpr (List.nodup_dedup _)
    refine hnodup.pairwise_of_forall_ne ?_
    intro shard hs other ho hne key hkey hkey'
    obtain ⟨v, hv, rfl⟩ := List.mem_map.mp hkey
    obtain ⟨w, hw, hwv⟩ := List.mem_map.mp hkey'
    have hentry := entryOf_fetched hp (h.mem_iff.mp hs) hv
    have hentry' := entryOf_fetched hp (h.mem_iff.mp ho) hw
    rw [KvServerImpl.entryOf, hwv] at hentry'
    exact hne (Option.some.inj (hentry.symm.trans hentry'))

section Copying

variable {fetches : List Fetch} {responses : List (List GetShardValue)} {removed : List Int}
  {i : Nat} {f : Fetch}
variable (hstage : UpdateStage sm p before server (.copying fetches responses removed))
  (hi : fetches[i]? = some f)
include hstage hi

theorem UpdateStage.asked :
    f.shard ∈ before.shardsToBeAdded sm ∧ f.Asked p sm before.nodeName := by
  obtain ⟨finished, hperm, _, hasked, _⟩ := hstage
  have hf : f ∈ fetches := List.mem_of_getElem? hi
  refine ⟨hperm.mem_iff.mp ?_, hasked f hf⟩
  exact List.mem_append_right finished (List.mem_map_of_mem hf)

/-- A goroutine moves on with its shard. -/
theorem UpdateStage.move {q : FetchPhase} (hq : Fetch.Asked p sm before.nodeName ⟨f.shard, q⟩) :
    UpdateStage sm p before server
      (.copying (fetches.set i ⟨f.shard, q⟩) responses removed) := by
  obtain ⟨finished, hperm, hresponses, hasked, hinserted⟩ := hstage
  refine ⟨finished, ?_, hresponses, ?_, hinserted⟩
  · rwa [Phases.map_move (b := ⟨f.shard, q⟩) hi rfl]
  · intro g hg
    cases List.mem_or_eq_of_mem_set hg with
    | inl hold => exact hasked g hold
    | inr hnew =>
        rw [hnew]
        exact hq

/-- A goroutine is done with its shard. -/
theorem UpdateStage.finish :
    UpdateStage sm p before server (.copying (fetches.eraseIdx i)
      (responses ++ [p.fetched sm before.nodeName f.shard]) removed) := by
  obtain ⟨finished, hperm, hresponses, hasked, hinserted⟩ := hstage
  refine ⟨finished ++ [f.shard], ?_, ?_, ?_, hinserted⟩
  · obtain ⟨hlt, hget⟩ := List.getElem?_eq_some_iff.mp hi
    have herase := (List.getElem_cons_eraseIdx_perm hlt).map Fetch.shard
    rw [hget, List.map_cons] at herase
    rw [List.append_assoc]
    exact (herase.append_left finished).trans hperm
  · rw [hresponses, List.map_append]
    rfl
  · exact fun g hg => hasked g (List.mem_of_mem_eraseIdx hg)

end Copying

/-- The next value is inserted. -/
theorem UpdateStage.insertValue (hp : p.Genuine sm) {v : GetShardValue}
    {values : List GetShardValue} {removed : List Int}
    (hstage : UpdateStage sm p before server (.finishing (v :: values) removed))
    (h : server.insertValue sm v (p.insertedAt v.key) = .ok server') :
    UpdateStage sm p before server' (.finishing values removed) := by
  obtain ⟨done, hcomplete, hinserted⟩ := hstage
  have hkeys := hcomplete.nodup
  rw [List.map_append, List.map_cons, List.nodup_append'] at hkeys
  refine ⟨done ++ [v], ?_, ?_⟩
  · rwa [List.append_assoc]
  · refine hinserted.insertValue ?_ ?_ h
    · exact fun hmem => hkeys.2.2 hmem List.mem_cons_self
    · obtain ⟨shard, hs, hv⟩ := (hcomplete.mem v).mp (by simp)
      exact ⟨shard, hs, entryOf_fetched hp hs hv⟩

end Stages

namespace Handling

variable {sm : ShardMapState} {p : Peers} {before : KvServerImpl} {s s' : Handling}

theorem step_cases {e : HandlerEvent} (h : s.step sm e = some s') :
    (∃ panic, s.server.HandlerStep sm true s.phase e (.error panic)) ∨
    s.server.HandlerMove sm true s.phase e s'.server s'.phase ∧
      s'.panicked = s.panicked := by
  simp only [step] at h
  split at h
  · cases h
  · split at h
    · cases h
    · rename_i panic hstep
      exact Or.inl ⟨panic, KvServerImpl.handlerStep_cases _ _ hstep⟩
    · rename_i server phase hstep
      obtain rfl := Option.some.inj h
      exact Or.inr ⟨(KvServerImpl.handlerStep_cases _ _ hstep).move, rfl⟩

/-- What a goroutine is told when it asks a node. -/
theorem answer_eq {fetches : List Fetch} {responses : List (List GetShardValue)}
    {removed : List Int} {i : Nat} {shard : Int} {numNodes startIndex k : Nat}
    {node : GoString} (hphase : s.phase = .copying fetches responses removed)
    (hi : fetches[i]? = some ⟨shard, .asking numNodes startIndex k⟩) (hk : k < numNodes)
    (hnode : fetchNode sm shard numNodes startIndex k = some node)
    (hne : node ≠ s.server.nodeName) : s.answer sm p i = p.answer shard node := by
  rw [answer, hphase, asks_eq hi hk hnode, Option.bind_some]
  exact if_neg hne

/-- The values that a goroutine is told about belong to its shard. -/
theorem answer_entryOf (hp : p.Genuine sm) {i : Nat} {values : List GetShardValue}
    (h : s.answer sm p i = some values) {shard : Int} (hs : shard ∈ s.phase.fetchShard i) :
    ∀ v ∈ values, KvServerImpl.entryOf sm v = some (int32 shard) := by
  obtain ⟨⟨asked, node⟩, hasks, hanswer⟩ := Option.bind_eq_some_iff.mp h
  obtain ⟨_, hanswer⟩ := Option.ite_none_left_eq_some.mp hanswer
  obtain rfl := Option.some.inj ((asks_cases hasks).1.symm.trans hs)
  exact (answered_values hp hanswer).1

/-- A handler that follows the peers is on its way. -/
structure Ok (sm : ShardMapState) (p : Peers) (before : KvServerImpl) (s : Handling) :
    Prop where
  panicked : s.panicked = none
  name : s.server.nodeName = before.nodeName
  prepared : Prepared s.server sm s.phase
  course : OnCourse s.server sm s.phase
  stage : UpdateStage sm p before s.server s.phase

/-- The values that a goroutine ends with are those it should find. -/
theorem Ok.done_values (hok : s.Ok sm p before) {fetches : List Fetch}
    {responses : List (List GetShardValue)} {removed : List Int} {i : Nat}
    {answer : Option (List GetShardValue)} {shard : Int} {numNodes startIndex k : Nat}
    {values : List GetShardValue} (hphase : s.phase = .copying fetches responses removed)
    (hi : fetches[i]? = some ⟨shard, .asking numNodes startIndex k⟩)
    (hf : s.Follows sm p (.ask i answer))
    (hdone : fetchNext sm s.server.nodeName shard numNodes startIndex k answer =
      .ok (.done values)) :
    values = p.fetched sm before.nodeName shard := by
  have hstage := hok.stage
  rw [hphase] at hstage
  refine asked_done (hstage.asked hi).2 (hok.name ▸ hdone) ?_
  intro node hk hnode hne
  exact Eq.trans hf (answer_eq hphase hi hk hnode (hok.name ▸ hne))

theorem Ok.stage_step (hok : s.Ok sm p before) (hp : p.Genuine sm) {e : HandlerEvent}
    (hf : s.Follows sm p e) {server' : KvServerImpl} {phase' : HandlerPhase}
    (h : s.server.HandlerMove sm true s.phase e server' phase') :
    UpdateStage sm p before server' phase' := by
  have hname := hok.name
  have hcourse := hok.course
  have hstage := hok.stage
  obtain ⟨server, phase, panicked⟩ := s
  simp only at h hname hcourse hstage
  cases h with
  | lock _ =>
      obtain rfl := hstage
      exact ⟨rfl, rfl⟩
  | keep _ _ | drop _ _ =>
      exact hstage
  | skip =>
      obtain ⟨rfl, hadded⟩ := hstage
      refine ⟨[], ⟨fun v => ?_, List.nodup_nil⟩, ?_, fun _ _ _ => rfl⟩
      · simp [← hadded]
      · simp [← hadded]
  | register _ =>
      obtain ⟨rfl, rfl⟩ := hstage
      refine ⟨[], ?_, rfl, ?_, inserted_register⟩
      · simp [Function.comp_def]
      · intro f hf
        obtain ⟨shard, _, rfl⟩ := List.mem_map.mp hf
        trivial
  | @intn fetches responses removed i startIndex shard _ hi hstart =>
      have hindex : startIndex = p.startIndex shard :=
        hf shard (by simp [HandlerPhase.fetchShard, hi])
      exact hstage.move hi (asked_start hstart hindex)
  | @askNext fetches responses removed i answer shard numNodes startIndex k q hi hnext =>
      refine hstage.move hi (asked_next (hstage.asked hi).2 (hname ▸ hnext) ?_)
      intro node hk hnode hne
      exact hf.trans (answer_eq rfl hi hk hnode (hname ▸ hne))
  | @askDone fetches responses removed i answer shard numNodes startIndex k values hi hdone =>
      rw [hok.done_values rfl hi hf hdone]
      exact hstage.finish hi
  | relock _ =>
      obtain ⟨finished, hperm, hresponses, _, hinserted⟩ := hstage
      refine ⟨[], ?_, hinserted⟩
      rw [List.nil_append, hresponses]
      apply complete_flatten hp
      simpa using hperm
  | @insert v values removed now _ hserver =>
      have hnow : now = p.insertedAt v.key := hf v rfl
      exact hstage.insertValue hp (hnow ▸ hserver)
  | @remove removed gone _ hgone hserver =>
      obtain ⟨done, hcomplete, hinserted⟩ := hstage
      refine ⟨done, hcomplete, hinserted.removeShard ?_ hserver⟩
      intro hadded
      have hassigned := (KvServerImpl.mem_shardsToBeAdded.mp hadded).1
      rw [← KvServerImpl.assigned_congr hname] at hassigned
      exact ((hcourse gone).mp hassigned).2 hgone
  | unlock =>
      obtain ⟨done, hcomplete, hinserted⟩ := hstage
      rw [List.append_nil] at hcomplete
      exact ⟨done, hcomplete, hinserted⟩

end Handling

end KvLab
