import DistributedLabs.Kv.Copies
import DistributedLabs.Library.GoSlice
import DistributedLabs.Library.Phases

/-!
When a migration loses no data. Nothing that a server stores or copies contradicts the
entries of the shard, whatever the order of the copies; what a careless order loses is
their presence. A new node looks at the nodes of the shard in cyclic order and takes the
first answer, so that it has the entries if the node that answers has them.
-/

namespace KvLab

/-- The copied values that a handler has yet to insert. -/
def HandlerPhase.values : HandlerPhase → List GetShardValue
  | .copying _ responses _ => responses.flatten
  | .finishing values _ => values
  | .locking | .scanning _ _ _ | .returned => []

section Handler

variable {sm : ShardMapState} {shard : Int} {entries : List (GoString × GoString)}
  {server server' : KvServerImpl} {phase phase' : HandlerPhase} {e : HandlerEvent}
  {free : Bool}

structure HandlerOk (sm : ShardMapState) (entries : List (GoString × GoString))
    (server : KvServerImpl) (phase : HandlerPhase) : Prop where
  filed : server.Filed sm.numShards
  consistent : server.Consistent sm.numShards entries
  faithful : ∀ v ∈ phase.values, v.Faithful entries

theorem handlerOk_step (hok : HandlerOk sm entries server phase)
    (hans : ∀ i values, e = .ask i (some values) → ∀ v ∈ values, v.Faithful entries)
    (h : server.HandlerMove sm free phase e server' phase') :
    HandlerOk sm entries server' phase' := by
  obtain ⟨hfiled, hcons, hfaith⟩ := hok
  cases h with
  | lock _ | keep _ _ | drop _ _ | skip | unlock =>
      exact ⟨hfiled, hcons, fun v hv => absurd hv List.not_mem_nil⟩
  | register _ =>
      exact ⟨KvServerImpl.filed_register hfiled,
        hcons.of_held fun key => KvServerImpl.held_register,
        fun v hv => absurd hv List.not_mem_nil⟩
  | intn _ _ | askNext _ _ | relock _ => exact ⟨hfiled, hcons, hfaith⟩
  | @askDone _ responses _ i _ _ _ _ _ values _ hdone =>
      refine ⟨hfiled, hcons, fun v hv => ?_⟩
      simp only [HandlerPhase.values, List.flatten_append, List.flatten_singleton,
        List.mem_append] at hv
      rcases hv with hv | hv
      · exact hfaith v hv
      · rcases fetchNext_done hdone with ⟨rfl, _⟩ | ⟨rfl, _⟩
        · exact hans i values rfl v hv
        · cases hv
  | insert hserver =>
      exact ⟨KvServerImpl.filed_insertValue hfiled hserver,
        hcons.insertValue (hfaith _ List.mem_cons_self) hserver,
        fun v hv => hfaith v (List.mem_cons_of_mem _ hv)⟩
  | remove _ hserver =>
      refine ⟨KvServerImpl.filed_removeShard hfiled hserver, hcons.of_held fun key => ?_,
        hfaith⟩
      rw [KvServerImpl.held_removeShard hserver]
      split
      · exact Or.inr rfl
      · exact Or.inl rfl

/-- The nodes that a goroutine has passed are its own. -/
def Fetch.Searching (sm : ShardMapState) (nodeName : GoString) (f : Fetch) : Prop :=
  match f.phase with
  | .started => True
  | .asking numNodes startIndex k => numNodes = (sm.nodesForShard f.shard).length ∧
      0 < numNodes ∧ ∀ j < k, fetchNode sm f.shard numNodes startIndex j = some nodeName

/-- A goroutine that has passed all nodes has seen no other than its own. -/
theorem searching_exhausted {nodeName node : GoString} {numNodes startIndex k : Nat}
    (h : Fetch.Searching sm nodeName ⟨shard, .asking numNodes startIndex k⟩)
    (hk : numNodes ≤ k) (hnode : node ∈ sm.nodesForShard shard) : node = nodeName := by
  simp only [Fetch.Searching] at h
  obtain ⟨rfl, _, hpassed⟩ := h
  obtain ⟨j, hj, hget⟩ := GoSlice.exists_cyclic_index startIndex hnode
  exact Option.some.inj (hget.symm.trans (hpassed j (Nat.lt_of_lt_of_le hj hk)))

/-- Every entry is stored or among the values. -/
def Covered (server : KvServerImpl) (numShards : Int) (entries : List (GoString × GoString))
    (values : List GetShardValue) : Prop :=
  ∀ e ∈ entries, (∃ v ∈ values, v.key = e.1) ∨
    (server.held numShards e.1).map (·.value) = some e.2

theorem covered_nil {numShards : Int} :
    Covered server numShards entries [] ↔ server.Holds numShards entries := by
  simp [Covered, KvServerImpl.Holds]

theorem Covered.insertValue {v : GetShardValue} {values : List GetShardValue} {now : Int}
    (hc : Covered server sm.numShards entries (v :: values)) (hv : v.Faithful entries)
    (h : server.insertValue sm v now = .ok server') :
    Covered server' sm.numShards entries values := by
  have hwrote := KvServerImpl.insertValue_wrote h
  intro e he
  rcases eq_or_ne e.1 v.key with heq | hne
  · refine Or.inr ?_
    rw [heq, hwrote.self, Option.map_some, hv e he heq.symm]
  · rw [hwrote.other e.1 hne]
    refine (hc e he).imp_left ?_
    rintro ⟨w, hw, hkey⟩
    rcases List.mem_cons.mp hw with rfl | hw
    · exact absurd hkey.symm hne
    · exact ⟨w, hw, hkey⟩

theorem Covered.congr {numShards : Int} {values : List GetShardValue}
    (hc : Covered server numShards entries values)
    (h : ∀ e ∈ entries, server'.held numShards e.1 = server.held numShards e.1) :
    Covered server' numShards entries values := by
  intro e he
  rw [h e he]
  exact hc e he

/-- How far the handler of a node of the shard has come. A new node has the entries as
soon as the goroutine for the shard has ended. -/
inductive Progress (sm : ShardMapState) (shard : Int) (entries : List (GoString × GoString))
    (new : Prop) (server : KvServerImpl) : HandlerPhase → Prop
  | locking (hs : shard ∈ server.assigned sm) (hn : shard ∉ server.availableShards → new)
      (hh : shard ∈ server.availableShards → server.Holds sm.numShards entries) :
      Progress sm shard entries new server .locking
  | scanning {added removed todo : List Int} (hs : shard ∈ server.assigned sm)
      (hr : shard ∉ removed)
      (ha : shard ∈ added ∧ new ∨ shard ∉ added ∧ server.Holds sm.numShards entries) :
      Progress sm shard entries new server (.scanning added removed todo)
  | copying {fetches : List Fetch} {responses : List (List GetShardValue)}
      {removed : List Int} (hr : shard ∉ removed)
      (hc : (∃ f ∈ fetches, f.shard = shard ∧ f.Searching sm server.nodeName ∧ new) ∨
        Covered server sm.numShards entries responses.flatten) :
      Progress sm shard entries new server (.copying fetches responses removed)
  | finishing {values : List GetShardValue} {removed : List Int} (hr : shard ∉ removed)
      (hc : Covered server sm.numShards entries values) :
      Progress sm shard entries new server (.finishing values removed)
  | returned (hh : server.Holds sm.numShards entries) :
      Progress sm shard entries new server .returned

variable {new : Prop}

/-- The answer to a goroutine that looks for the shard: its own node is passed over, and
any other node has all the entries. -/
def AnswerOk (sm : ShardMapState) (shard : Int) (entries : List (GoString × GoString))
    (nodeName : GoString) (phase : HandlerPhase) (e : HandlerEvent) : Prop :=
  ∀ i answer, e = .ask i answer → ∀ node, phase.asks sm i = some (shard, node) →
    node = nodeName ∨
      ∃ values, answer = some values ∧ ∀ e ∈ entries, ∃ v ∈ values, v.key = e.1

theorem asks_eq {fetches : List Fetch} {responses : List (List GetShardValue)}
    {removed : List Int} {i numNodes startIndex k : Nat} {node : GoString}
    (hi : fetches[i]? = some ⟨shard, .asking numNodes startIndex k⟩) (hk : k < numNodes)
    (hn : fetchNode sm shard numNodes startIndex k = some node) :
    (HandlerPhase.copying fetches responses removed).asks sm i = some (shard, node) := by
  simp only [HandlerPhase.asks, hi, if_pos hk, hn, Option.map_some]

/-- The goroutine for the shard goes on to another node, or another goroutine does. -/
theorem searching_next {fetches : List Fetch} {responses : List (List GetShardValue)}
    {removed : List Int} {i numNodes startIndex k : Nat} {other : Int} {q : FetchPhase}
    {answer : Option (List GetShardValue)}
    (hi : fetches[i]? = some ⟨other, .asking numNodes startIndex k⟩)
    (hnext : fetchNext sm server.nodeName other numNodes startIndex k answer = .ok (.next q))
    (hask : AnswerOk sm shard entries server.nodeName (.copying fetches responses removed)
      (.ask i answer))
    (h : ∃ f ∈ fetches, f.shard = shard ∧ f.Searching sm server.nodeName ∧ new) :
    ∃ f ∈ fetches.set i ⟨other, q⟩, f.shard = shard ∧ f.Searching sm server.nodeName ∧ new := by
  obtain ⟨f, hf, rfl, hsearch, hnew⟩ := h
  by_cases hfi : f = ⟨other, .asking numNodes startIndex k⟩
  · subst hfi
    obtain ⟨rfl, hk, node, hnode, hor⟩ := fetchNext_next hnext
    obtain ⟨hlen, hpos, hpassed⟩ := hsearch
    refine ⟨_, Phases.mem_move _ hi, rfl, ⟨hlen, hpos, fun j hj => ?_⟩, hnew⟩
    rcases Nat.lt_succ_iff_lt_or_eq.mp hj with hj | rfl
    · exact hpassed j hj
    · rcases hask i answer rfl node (asks_eq hi hk hnode) with rfl | ⟨values, rfl, _⟩
      · exact hnode
      · rcases hor with rfl | hnone
        · exact hnode
        · cases hnone
  · exact ⟨f, Phases.mem_set_of_ne _ hi hf hfi, rfl, hsearch, hnew⟩

/-- The goroutine for the shard ends with all the entries, or another goroutine ends. -/
theorem searching_done {fetches : List Fetch} {responses : List (List GetShardValue)}
    {removed : List Int} {i numNodes startIndex k : Nat} {other : Int}
    {answer : Option (List GetShardValue)} {values : List GetShardValue}
    (hi : fetches[i]? = some ⟨other, .asking numNodes startIndex k⟩)
    (hdone : fetchNext sm server.nodeName other numNodes startIndex k answer =
      .ok (.done values))
    (hask : AnswerOk sm shard entries server.nodeName (.copying fetches responses removed)
      (.ask i answer))
    (hkept : new → sm.nodesForShard shard ≠ [] →
      ∃ node ∈ sm.nodesForShard shard, node ≠ server.nodeName)
    (h : ∃ f ∈ fetches, f.shard = shard ∧ f.Searching sm server.nodeName ∧ new) :
    (∃ f ∈ fetches.eraseIdx i, f.shard = shard ∧ f.Searching sm server.nodeName ∧ new) ∨
      ∀ e ∈ entries, ∃ v ∈ values, v.key = e.1 := by
  obtain ⟨f, hf, rfl, hsearch, hnew⟩ := h
  by_cases hfi : f = ⟨other, .asking numNodes startIndex k⟩
  · subst hfi
    refine Or.inr ?_
    rcases fetchNext_done hdone with ⟨rfl, hk, node, hnode, hne⟩ | ⟨_, hk⟩
    · rcases hask i _ rfl node (asks_eq hi hk hnode) with heq | ⟨values', heq, hall⟩
      · exact absurd heq hne
      · obtain rfl := Option.some.inj heq
        exact hall
    · have hnil : sm.nodesForShard other ≠ [] := by
        obtain ⟨hlen, hpos, _⟩ := hsearch
        exact List.ne_nil_of_length_pos (hlen ▸ hpos)
      obtain ⟨node, hmem, hne⟩ := hkept hnew hnil
      exact absurd (searching_exhausted hsearch hk hmem) hne
  · exact Or.inl ⟨f, Phases.mem_eraseIdx_of_ne hi hf hfi, rfl, hsearch, hnew⟩

theorem searching_start {nodeName : GoString} {other : Int} {startIndex : Nat}
    {q : FetchPhase} (h : fetchStart sm other startIndex = some (.ok q)) :
    Fetch.Searching sm nodeName ⟨other, q⟩ := by
  simp only [fetchStart] at h
  split at h
  · cases h
  · split at h <;> cases h
    exact ⟨rfl, by omega, fun j hj => absurd hj (Nat.not_lt_zero j)⟩

theorem Progress.holds_of_old (hp : Progress sm shard entries new server phase)
    (hnew : ¬ new) (hh : server.Holds sm.numShards entries)
    (hs : ∀ e ∈ entries, shardFor e.1 sm.numShards = some shard)
    (hfaith : ∀ v ∈ phase.values, v.Faithful entries)
    (h : server.HandlerMove sm free phase e server' phase') :
    server'.Holds sm.numShards entries := by
  cases h with
  | lock _ | keep _ _ | drop _ _ | skip | intn _ _ | askNext _ _ | askDone _ _ | relock _
  | unlock => exact hh
  | register _ =>
      cases hp with
      | scanning _ _ ha =>
          rcases ha with ⟨_, hn⟩ | ⟨hnot, _⟩
          · exact absurd hn hnew
          · intro e he
            rw [KvServerImpl.held_register_of_notMem (hs e he) hnot]
            exact hh e he
  | @insert v _ _ _ _ hserver =>
      have hc : Covered server sm.numShards entries [v] := fun e he => Or.inr (hh e he)
      exact covered_nil.mp (hc.insertValue (hfaith _ List.mem_cons_self) hserver)
  | @remove removed gone _ hs' hserver =>
      cases hp with
      | finishing hrem _ =>
          have hne : shard ≠ gone := fun heq => hrem (heq ▸ hs')
          intro e he
          rw [KvServerImpl.held_removeShard_of_ne (hs e he) hne hserver]
          exact hh e he

theorem Progress.step (hp : Progress sm shard entries new server phase)
    (hs : ∀ e ∈ entries, shardFor e.1 sm.numShards = some shard)
    (hfaith : ∀ v ∈ phase.values, v.Faithful entries)
    (hask : AnswerOk sm shard entries server.nodeName phase e)
    (hkept : new → sm.nodesForShard shard ≠ [] →
      ∃ node ∈ sm.nodesForShard shard, node ≠ server.nodeName)
    (h : server.HandlerMove sm free phase e server' phase') :
    Progress sm shard entries new server' phase' := by
  cases h with
  | lock _ =>
      cases hp with
      | locking hs hn hh =>
          refine .scanning hs List.not_mem_nil ?_
          by_cases hmem : shard ∈ server.availableShards
          · refine Or.inr ⟨fun hadd => ?_, hh hmem⟩
            exact (KvServerImpl.mem_shardsToBeAdded.mp hadd).2 hmem
          · exact Or.inl ⟨KvServerImpl.mem_shardsToBeAdded.mpr ⟨hs, hmem⟩, hn hmem⟩
  | keep _ _ =>
      cases hp with
      | scanning hs hrem ha => exact .scanning hs hrem ha
  | drop _ hnot =>
      cases hp with
      | scanning hs hrem ha =>
          refine .scanning hs ?_ ha
          rw [List.mem_append, List.mem_singleton]
          exact not_or.mpr ⟨hrem, fun heq => hnot (heq ▸ hs)⟩
  | skip =>
      cases hp with
      | scanning _ hrem ha =>
          rcases ha with ⟨hmem, _⟩ | ⟨_, hh⟩
          · cases hmem
          · exact .finishing hrem (covered_nil.mpr hh)
  | register _ =>
      cases hp with
      | scanning _ hrem ha =>
          refine .copying hrem ?_
          rcases ha with ⟨hmem, hnew⟩ | ⟨hnot, hh⟩
          · exact Or.inl ⟨_, List.mem_map_of_mem hmem, rfl, trivial, hnew⟩
          · refine Or.inr ((covered_nil.mpr hh).congr fun e he => ?_)
            exact KvServerImpl.held_register_of_notMem (hs e he) hnot
  | @intn _ _ _ i _ other _ hi hstart =>
      cases hp with
      | copying hrem hc =>
          refine .copying hrem (hc.imp_left ?_)
          rintro ⟨f, hf, rfl, hsearch, hnew⟩
          by_cases hfi : f = ⟨other, .started⟩
          · subst hfi
            exact ⟨_, Phases.mem_move _ hi, rfl, searching_start hstart, hnew⟩
          · exact ⟨f, Phases.mem_set_of_ne _ hi hf hfi, rfl, hsearch, hnew⟩
  | askNext hi hnext =>
      cases hp with
      | copying hrem hc => exact .copying hrem (hc.imp_left (searching_next hi hnext hask))
  | askDone hi hdone =>
      cases hp with
      | copying hrem hc =>
          refine .copying hrem ?_
          rw [List.flatten_append, List.flatten_singleton]
          rcases hc with hpending | hcovered
          · refine (searching_done hi hdone hask hkept hpending).imp_right fun hall e he => ?_
            obtain ⟨v, hv, hkey⟩ := hall e he
            exact Or.inl ⟨v, List.mem_append_right _ hv, hkey⟩
          · refine Or.inr fun e he => (hcovered e he).imp_left ?_
            rintro ⟨v, hv, hkey⟩
            exact ⟨v, List.mem_append_left _ hv, hkey⟩
  | relock _ =>
      cases hp with
      | copying hrem hc =>
          refine .finishing hrem (hc.resolve_left ?_)
          rintro ⟨f, hf, _⟩
          cases hf
  | insert hserver =>
      cases hp with
      | finishing hrem hc =>
          exact .finishing hrem (hc.insertValue (hfaith _ List.mem_cons_self) hserver)
  | @remove removed gone _ hgone hserver =>
      cases hp with
      | finishing hrem hc =>
          have hne : shard ≠ gone := fun heq => hrem (heq ▸ hgone)
          refine .finishing (fun hmem => hrem (List.mem_of_mem_erase hmem))
            (hc.congr fun e he => ?_)
          exact KvServerImpl.held_removeShard_of_ne (hs e he) hne hserver
  | unlock =>
      cases hp with
      | finishing _ hc => exact .returned (covered_nil.mp hc)

/-- A server with the same shards and entries has come as far. -/
theorem Progress.congr (hp : Progress sm shard entries new server phase)
    (hname : server'.nodeName = server.nodeName)
    (hshards : ∀ other, other ∈ server'.availableShards ↔ other ∈ server.availableShards)
    (h : ∀ e ∈ entries, server'.held sm.numShards e.1 = server.held sm.numShards e.1) :
    Progress sm shard entries new server' phase := by
  have hassigned : server'.assigned sm = server.assigned sm :=
    KvServerImpl.assigned_congr hname
  cases hp with
  | locking hs hn hh =>
      refine .locking (hassigned ▸ hs) ?_ ?_
      · rw [hshards]
        exact hn
      · rw [hshards]
        exact fun hmem => (hh hmem).congr h
  | scanning hs hr ha =>
      exact .scanning (hassigned ▸ hs) hr (ha.imp_right fun hh => ⟨hh.1, hh.2.congr h⟩)
  | copying hr hc =>
      refine .copying hr (hc.imp ?_ fun hc => hc.congr h)
      rw [hname]
      exact id
  | finishing hr hc => exact .finishing hr (hc.congr h)
  | returned hh => exact .returned (hh.congr h)

end Handler

section Nodes

variable {sm : ShardMapState} {before : GoString → KvServerImpl} {shard : Int}
  {entries : List (GoString × GoString)} {s t : Cluster}

/-- A node of the shard has come some way, and has the entries if it hosted the shard
before. -/
structure NodeOk (sm : ShardMapState) (before : GoString → KvServerImpl) (shard : Int)
    (entries : List (GoString × GoString)) (s : Cluster) (node : GoString) : Prop where
  progress : Progress sm shard entries (shard ∉ (before node).availableShards)
    (s.servers node) (s.phases node)
  holds : shard ∈ (before node).availableShards →
    (s.servers node).Holds sm.numShards entries

structure Cluster.Ok (sm : ShardMapState) (before : GoString → KvServerImpl) (shard : Int)
    (entries : List (GoString × GoString)) (s : Cluster) : Prop where
  name : ∀ node, (s.servers node).nodeName = node
  ok : ∀ node, HandlerOk sm entries (s.servers node) (s.phases node)
  nodes : ∀ node, shard ∈ (sm.shardsForNode node).map int32 →
    NodeOk sm before shard entries s node

/-- The entries are of the shard, and a node that hosted it before is among its nodes. -/
structure Migrates (sm : ShardMapState) (before : GoString → KvServerImpl) (shard : Int)
    (entries : List (GoString × GoString)) : Prop where
  ofShard : ∀ e ∈ entries, shardFor e.1 sm.numShards = some shard
  isIndex : int32 shard = shard
  keep : sm.nodesForShard shard ≠ [] →
    ∃ node ∈ sm.nodesForShard shard, shard ∈ (before node).availableShards

/-- The other nodes stay as they are. -/
theorem Cluster.Ok.update (hok : s.Ok sm before shard entries) {node : GoString}
    {server : KvServerImpl} {phase : HandlerPhase} (hname : server.nodeName = node)
    (hhandler : HandlerOk sm entries server phase)
    (hprogress : shard ∈ (sm.shardsForNode node).map int32 →
      Progress sm shard entries (shard ∉ (before node).availableShards) server phase ∧
      (shard ∈ (before node).availableShards → server.Holds sm.numShards entries)) :
    { s with
      servers := Function.update s.servers node server
      phases := Function.update s.phases node phase }.Ok sm before shard entries := by
  refine ⟨fun other => ?_, fun other => ?_, fun other hs => ?_⟩
  · rcases eq_or_ne other node with rfl | hne
    · simpa only [Function.update_self] using hname
    · simpa only [Function.update_of_ne hne] using hok.name other
  · rcases eq_or_ne other node with rfl | hne
    · simpa only [Function.update_self] using hhandler
    · simpa only [Function.update_of_ne hne] using hok.ok other
  · rcases eq_or_ne other node with rfl | hne
    · obtain ⟨hp, hh⟩ := hprogress hs
      exact ⟨by simpa only [Function.update_self] using hp,
        by simpa only [Function.update_self] using hh⟩
    · obtain ⟨hp, hh⟩ := hok.nodes other hs
      exact ⟨by simpa only [Function.update_of_ne hne] using hp,
        by simpa only [Function.update_of_ne hne] using hh⟩

theorem Cluster.Ok.handler (hok : s.Ok sm before shard entries)
    (hm : Migrates sm before shard entries)
    {node : GoString} {e : HandlerEvent}
    (hans : ∀ i values, e = .ask i (some values) → ∀ v ∈ values, v.Faithful entries)
    (hask : AnswerOk sm shard entries node (s.phases node) e)
    (h : s.handler sm node e = some t) : t.Ok sm before shard entries := by
  simp only [Cluster.handler] at h
  split at h
  · cases h
  · cases h
    exact ⟨hok.name, hok.ok, fun node hs => ⟨(hok.nodes node hs).progress,
      (hok.nodes node hs).holds⟩⟩
  · rename_i server phase hstep
    cases h
    have hmove := (KvServerImpl.handlerStep_cases _ _ hstep).move
    have hname := hmove.nodeName_eq
    have hhandler := handlerOk_step (hok.ok node) hans hmove
    refine hok.update (hname.trans (hok.name node)) hhandler fun hassigned => ?_
    obtain ⟨hp, hh⟩ := hok.nodes node hassigned
    have hfaith := (hok.ok node).faithful
    refine ⟨hp.step hm.ofShard hfaith ?_ ?_ hmove, fun hold => ?_⟩
    · rw [hok.name]
      exact hask
    · intro hnew hnil
      obtain ⟨kept, hmem, hold⟩ := hm.keep hnil
      refine ⟨kept, hmem, ?_⟩
      rintro rfl
      rw [hok.name] at hold
      exact hnew hold
    · exact hp.holds_of_old (not_not_intro hold) (hh hold) hm.ofShard hfaith hmove

theorem asks_cases {phase : HandlerPhase} {i : Nat} {other : Int} {peer : GoString}
    (h : phase.asks sm i = some (other, peer)) :
    phase.fetchShard i = some other ∧ peer ∈ sm.nodesForShard other := by
  simp only [HandlerPhase.asks] at h
  split at h
  · split at h
    · rename_i hi
      obtain ⟨_, h⟩ := Option.ite_none_right_eq_some.mp h
      obtain ⟨node, hnode, heq⟩ := Option.map_eq_some_iff.mp h
      cases heq
      refine ⟨?_, List.mem_of_getElem? hnode⟩
      rw [HandlerPhase.fetchShard, hi, Option.map_some]
    · cases h
  · cases h

/-- A node of the shard that hosted it before or has handled the shard map has the
entries. -/
theorem NodeOk.settled {node : GoString} (h : NodeOk sm before shard entries s node)
    (hor : shard ∈ (before node).availableShards ∨ s.phases node = .returned) :
    (s.servers node).Holds sm.numShards entries := by
  rcases hor with hold | hreturned
  · exact h.holds hold
  · have hp := h.progress
    rw [hreturned] at hp
    cases hp with
    | returned hh => exact hh

theorem Cluster.Ok.ask (hok : s.Ok sm before shard entries)
    (hm : Migrates sm before shard entries)
    {node : GoString} {i : Nat} {clock : GoString → Int × Int}
    (hu : s.Unexpired sm entries (.ask node i clock))
    (hset : s.AsksSettled sm before shard (.ask node i clock))
    (h : s.ask sm node i clock = some t) : t.Ok sm before shard entries := by
  have hnone : ∀ j values, HandlerEvent.ask i none = .ask j (some values) →
      ∀ v ∈ values, v.Faithful entries := fun j values heq => nomatch heq
  simp only [Cluster.ask] at h
  split at h
  · rename_i hasks
    refine hok.handler hm hnone ?_ h
    intro j answer heq peer hpeer
    cases heq
    rw [hasks] at hpeer
    cases hpeer
  · rename_i other peer hasks
    rw [hok.name] at h
    split at h
    · rename_i hself
      refine hok.handler hm hnone ?_ h
      intro j answer heq peer' hpeer
      cases heq
      rw [hasks] at hpeer
      cases hpeer
      exact Or.inl hself
    · rename_i hne
      obtain ⟨_, h⟩ := Option.ite_none_left_eq_some.mp h
      split at h
      · cases h
        exact ⟨hok.name, hok.ok, fun node hs => ⟨(hok.nodes node hs).progress,
          (hok.nodes node hs).holds⟩⟩
      · rename_i reply hreply
        obtain ⟨data, hl, rfl, hfaith⟩ := KvServerImpl.getShardContents_faithful
          (hok.ok peer).filed (hok.ok peer).consistent hreply
        refine hok.handler hm ?_ ?_ h
        · intro j values heq
          cases heq
          exact hfaith
        · intro j answer heq peer' hpeer
          cases heq
          rw [hasks] at hpeer
          cases hpeer
          have hassigned := List.mem_map_of_mem (f := int32)
            (ShardMapState.mem_shardsForNode (asks_cases hasks).2)
          rw [hm.isIndex] at hl hassigned
          have hholds : (s.servers peer).Holds sm.numShards entries :=
            (hok.nodes peer hassigned).settled ((hset _ hasks rfl).resolve_left hne)
          exact Or.inr ⟨_, rfl, hholds.contents hm.ofShard hl (hu _ hasks)⟩

theorem Cluster.Ok.clean (hok : s.Ok sm before shard entries) {node : GoString}
    {other now : Int} {server : KvServerImpl}
    (hu : s.Unexpired sm entries (.clean node other now))
    (h : (s.servers node).clean other now = some server) :
    { s with servers := Function.update s.servers node server }.Ok sm before shard
      entries := by
  obtain ⟨hshards, hheld⟩ := KvServerImpl.held_clean sm.numShards h
  have hname : server.nodeName = (s.servers node).nodeName := by
    obtain ⟨data, _, rfl⟩ := Option.map_eq_some_iff.mp h
    rfl
  have hsame : ∀ e ∈ entries, server.held sm.numShards e.1 =
      (s.servers node).held sm.numShards e.1 := by
    intro e he
    rcases hheld e.1 with heq | ⟨_, item, hitem, hexp⟩
    · exact heq
    · rw [hu e he item hitem] at hexp
      cases hexp
  have hhandler : HandlerOk sm entries server (s.phases node) :=
    ⟨KvServerImpl.filed_clean (hok.ok node).filed h,
      (hok.ok node).consistent.of_held fun key => (hheld key).imp_right fun hgone => hgone.1,
      (hok.ok node).faithful⟩
  have hupdate := hok.update (hname.trans (hok.name node)) hhandler fun hassigned =>
    ⟨(hok.nodes node hassigned).progress.congr hname hshards hsame,
      fun hold => ((hok.nodes node hassigned).holds hold).congr hsame⟩
  simpa only [Function.update_eq_self] using hupdate

theorem Cluster.Ok.step (hok : s.Ok sm before shard entries)
    (hm : Migrates sm before shard entries)
    {e : ClusterEvent} (hu : s.Unexpired sm entries e)
    (hset : s.AsksSettled sm before shard e) (h : s.step sm e = some t) :
    t.Ok sm before shard entries := by
  unfold Cluster.step at h
  obtain ⟨_, h⟩ := Option.ite_none_left_eq_some.mp h
  cases e with
  | handler node e =>
      obtain ⟨hnot, h⟩ := Option.ite_none_left_eq_some.mp h
      refine hok.handler hm ?_ ?_ h
      · rintro i values rfl
        exact absurd rfl hnot
      · rintro i answer rfl
        exact absurd rfl hnot
  | ask node i clock => exact hok.ask hm hu hset h
  | clean node other now =>
      obtain ⟨server, hc, rfl⟩ := Option.map_eq_some_iff.mp h
      exact hok.clean hu hc

end Nodes

section Result

variable {sm : ShardMapState} {servers : GoString → KvServerImpl} {shardID : Int}
  {entries : List (GoString × GoString)}

/-- A server that does not host the shard contradicts none of its entries. -/
theorem consistent_of_notMem {server : KvServerImpl} {numShards shard : Int}
    (hs : ∀ e ∈ entries, shardFor e.1 numShards = some shard)
    (h : shard ∉ server.availableShards) : server.Consistent numShards entries := by
  intro e he item hitem
  rw [KvServerImpl.held, hs e he, Option.bind_some, AList.lookup_eq_none.mpr h] at hitem
  cases hitem

theorem cluster_init_ok (hname : ∀ node, (servers node).nodeName = node)
    (hfiled : ∀ node, (servers node).Filed sm.numShards)
    (hs : ∀ e ∈ entries, shardFor e.1 sm.numShards = some (int32 shardID))
    (hholds : ∀ node, int32 shardID ∈ (servers node).availableShards →
      (servers node).Holds sm.numShards entries) :
    (cluster sm servers).init.Ok sm servers (int32 shardID) entries := by
  refine ⟨hname, fun node => ⟨hfiled node, ?_, fun v hv => absurd hv List.not_mem_nil⟩,
    fun node hassigned => ⟨.locking ?_ id (hholds node), hholds node⟩⟩
  · by_cases hmem : int32 shardID ∈ (servers node).availableShards
    · exact (hholds node hmem).consistent
    · exact consistent_of_notMem hs hmem
  · rw [KvServerImpl.assigned]
    exact (hname node).symm ▸ hassigned

/-- In a run in which a node that is asked for the shard hosted it before or has handled
the shard map, the nodes of the shard come to hold its entries. -/
theorem migration_loses_nothing {h : List Cluster} (hn : 1 ≤ sm.numShards)
    (hv : sm.isValid = true) (hname : ∀ node, (servers node).nodeName = node)
    (hfiled : ∀ node, (servers node).Filed sm.numShards)
    (hentries : ∀ e ∈ entries, getShardForKey e.1 sm.numShards = some shardID)
    (hholds : ∀ node, int32 shardID ∈ (servers node).availableShards →
      (servers node).Holds sm.numShards entries)
    (hkeep : ∃ node ∈ sm.nodesForShard shardID, int32 shardID ∈ (servers node).availableShards)
    (run : (cluster sm servers).Run (fun s e => s.Unexpired sm entries e ∧
      s.AsksSettled sm servers (int32 shardID) e) h) :
    ∀ s ∈ h, s.Finished sm shardID → ∀ node ∈ sm.nodesForShard shardID,
      (s.servers node).Holds sm.numShards entries := by
  have hs : ∀ e ∈ entries, shardFor e.1 sm.numShards = some (int32 shardID) := by
    intro e he
    rw [shardFor, hentries e he, Option.map_some]
  have hkeep' (hne : entries ≠ []) (hnil : sm.nodesForShard (int32 shardID) ≠ []) :
      ∃ node ∈ sm.nodesForShard (int32 shardID),
        int32 shardID ∈ (servers node).availableShards := by
    obtain ⟨e, he⟩ := List.exists_mem_of_ne_nil entries hne
    have hself := int32_eq_self hn (hentries e he) (pos_of_valid hv hnil)
    rwa [hself] at hkeep ⊢
  intro s hmem hfinished node hnode
  by_cases hne : entries = []
  · rw [hne]
    exact fun e he => absurd he List.not_mem_nil
  · have hm : Migrates sm servers (int32 shardID) entries :=
      ⟨hs, int32_int32 shardID, hkeep' hne⟩
    have hall := Machine.Run.invariant (I := Cluster.Ok sm servers (int32 shardID) entries)
      (cluster_init_ok hname hfiled hs hholds)
      (fun s e t hok hp hstep => hok.step hm hp.1 hp.2 hstep) run
    have hassigned := List.mem_map_of_mem (f := int32) (ShardMapState.mem_shardsForNode hnode)
    exact ((hall s hmem).nodes node hassigned).settled (Or.inr (hfinished node hnode))

end Result

/-- Node 3 hosts shard 2 with one entry. -/
def oneHost (node : GoString) : KvServerImpl :=
  if node = [3] then ⟨[3], AList.singleton 2 ⟨AList.singleton [2] ⟨[7], 1000, 0⟩⟩⟩
  else ⟨node, ∅⟩

theorem oneHost_name (node : GoString) : (oneHost node).nodeName = node := by
  rw [oneHost]
  split
  · exact Eq.symm ‹_›
  · rfl

theorem oneHost_filed (node : GoString) : (oneHost node).Filed 2 := by
  intro shard data hl key item hitem
  rw [oneHost] at hl
  split at hl
  · obtain ⟨rfl, rfl⟩ := GoMap.lookup_singleton.mp hl
    obtain ⟨rfl, _⟩ := GoMap.lookup_singleton.mp hitem
    decide
  · cases hl

theorem oneHost_holds (node : GoString) (h : int32 2 ∈ (oneHost node).availableShards) :
    (oneHost node).Holds 2 [([2], [7])] := by
  rw [oneHost] at h ⊢
  split at h
  · rw [if_pos ‹_›]
    decide
  · cases h

/-- Node 1 copies the shard from node 3, and node 2 copies it from node 1 afterwards. -/
theorem migration_loses_nothing_chain : ∃ h,
    (cluster (smallMap [] [[1], [2], [3]]) oneHost).Run (fun s e =>
      s.Unexpired (smallMap [] [[1], [2], [3]]) [([2], [7])] e ∧
      s.AsksSettled (smallMap [] [[1], [2], [3]]) oneHost (int32 2) e) h ∧
    (∃ s ∈ h, s.Finished (smallMap [] [[1], [2], [3]]) 2) ∧
    ∀ s ∈ h, s.Finished (smallMap [] [[1], [2], [3]]) 2 →
      ∀ node ∈ (smallMap [] [[1], [2], [3]]).nodesForShard 2,
        (s.servers node).Holds 2 [([2], [7])] := by
  obtain ⟨h, run, hdone⟩ :=
    (cluster (smallMap [] [[1], [2], [3]]) oneHost).exists_run_of_replay (fun s e =>
      s.Unexpired (smallMap [] [[1], [2], [3]]) [([2], [7])] e ∧
      s.AsksSettled (smallMap [] [[1], [2], [3]]) oneHost (int32 2) e)
      [.handler [1] .lock, .handler [2] .lock, .handler [1] .register, .handler [2] .register,
        .handler [1] (.intn 0 2), .ask [1] 0 fun _ => (0, 0), .handler [1] .relock,
        .handler [1] (.insert 0), .handler [1] .unlock, .handler [2] (.intn 0 0),
        .handler [3] .lock, .ask [2] 0 fun _ => (0, 0), .handler [2] .relock,
        .handler [2] (.insert 0), .handler [2] .unlock,
        .handler [3] (.check 2), .handler [3] .register, .handler [3] .unlock]
      (fun h => ∃ s ∈ h, s.Finished (smallMap [] [[1], [2], [3]]) 2) (by decide +kernel)
  refine ⟨h, run, hdone, migration_loses_nothing (by decide) (by decide) oneHost_name
    oneHost_filed (by decide) oneHost_holds ⟨[3], by decide, by decide⟩ run⟩

/-- Node 1 copies the shard from node 2 while node 2 still waits for its own copy. -/
theorem copy_of_unfinished_copy : ∃ h,
    (cluster (smallMap [] [[1], [2], [3]]) oneHost).Run (fun s e =>
      s.Unexpired (smallMap [] [[1], [2], [3]]) [([2], [7])] e) h ∧
    ∃ s ∈ h, s.Finished (smallMap [] [[1], [2], [3]]) 2 ∧
      ¬ (s.servers [1]).Holds 2 [([2], [7])] :=
  (cluster (smallMap [] [[1], [2], [3]]) oneHost).exists_run_of_replay (fun s e =>
      s.Unexpired (smallMap [] [[1], [2], [3]]) [([2], [7])] e)
    [.handler [1] .lock, .handler [2] .lock, .handler [1] .register, .handler [2] .register,
      .handler [1] (.intn 0 1), .ask [1] 0 fun _ => (0, 0), .handler [1] .relock,
      .handler [1] .unlock, .handler [2] (.intn 0 2), .ask [2] 0 fun _ => (0, 0),
      .handler [2] .relock, .handler [2] (.insert 0), .handler [2] .unlock, .handler [3] .lock,
      .handler [3] (.check 2), .handler [3] .register, .handler [3] .unlock]
    (fun h => ∃ s ∈ h, s.Finished (smallMap [] [[1], [2], [3]]) 2 ∧
      ¬ (s.servers [1]).Holds 2 [([2], [7])]) (by decide +kernel)

end KvLab
