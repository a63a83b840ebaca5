import DistributedLabs.Kv.SetupInvariant

/-!
The workflows of the test setup lose no data. Because `UpdateShardMapping` updates twice, all
servers have handled a map when the next one is published, and because a workflow gives a
shard at most one new node at a time, the node that copies a shard finds it, with all its
entries, on every other node of the shard.
-/

namespace KvLab

variable {shard : Int} {entries : List (GoString × GoString)} {old : ShardMapState}
  {s t : Setup} {node : GoString}

/-- What a server returns for a shard are values of the shard. -/
theorem contents_filed {server : KvServerImpl} {sm : ShardMapState} {clock : GoString → Int × Int}
    {data : ShardData} (hf : server.Filed sm.numShards)
    (hl : server.availableShards.lookup shard = some data) :
    ∀ v ∈ data.contents clock, KvServerImpl.entryOf sm v = some shard := by
  intro v hv
  obtain ⟨item, hlive, _⟩ := ShardData.mem_contents.mp hv
  exact hf shard data hl v.key item (live_eq_some.mp hlive).1

theorem Course.fetchShard {cur : ShardMapState} {phase : HandlerPhase} {i : Nat} {u : Int}
    (hc : Course old cur node phase) (h : phase.fetchShard i = some u) :
    node ∈ cur.nodesForShard u ∧ node ∉ old.nodesForShard u := by
  cases phase with
  | copying fetches responses removed =>
      obtain ⟨f, hf, rfl⟩ := Option.map_eq_some_iff.mp h
      exact (hc.1 f (List.mem_of_getElem? hf)).1
  | locking | scanning _ _ _ | finishing _ _ | returned => cases h

namespace Setup

/-- A node that a goroutine asks for a shard has the shard, and the entries if they are of
that shard. -/
theorem Ok.peer (h : s.Ok shard entries old) (hin : node ∈ s.shardMap.nodes) {i : Nat} {u : Int}
    {peer : GoString} (hasks : (s.cluster.phases node).asks s.shardMap i = some (u, peer))
    (hne : peer ≠ node) : NodeInv old s.shardMap shard entries peer (s.test.mode peer)
      (s.cluster.servers peer) (s.cluster.phases peer) ∧
      u ∈ (s.cluster.servers peer).availableShards ∧
      (u = shard → (s.cluster.servers peer).Holds s.shardMap.numShards entries) := by
  obtain ⟨hfetch, hpeer⟩ := asks_cases hasks
  have hexist := (ShardMapState.listed_of_valid h.map.valid u).exist peer hpeer
  have hnode := h.nodes peer hexist
  obtain ⟨hcur, hnew⟩ := (h.nodes node hin).moving.course.fetchShard hfetch
  have hold : node ∉ old.nodesForShard u := by
    cases hmode : s.test.mode node with
    | waiting | signalled =>
        rw [hmode] at hnew
        exact hnew
    | settled =>
        rw [hmode] at hnew
        exact absurd hcur hnew
  have hbase : peer ∈ ((s.test.mode peer).base old s.shardMap).nodesForShard u := by
    cases s.test.mode peer with
    | waiting | signalled =>
        by_contra hpold
        exact hne (h.gradual.one u peer node hpeer hcur hpold hold)
    | settled => exact hpeer
  refine ⟨hnode, hnode.moving.keep u hbase hpeer, ?_⟩
  rintro rfl
  exact hnode.moving.holds hbase hpeer

theorem Ok.ask (h : s.Ok shard entries old) {i : Nat} {clock : GoString → Int × Int}
    {cluster : Cluster} (hu : s.cluster.Unexpired s.shardMap entries (.ask node i clock))
    (hstep : s.cluster.ask s.shardMap node i clock = some cluster) :
    Setup.Ok shard entries old { s with cluster } := by
  have hnone : ∀ j values, HandlerEvent.ask i none ≠ .ask j (some values) := by
    intro j values heq
    cases heq
  simp only [Cluster.ask] at hstep
  split at hstep
  · rename_i hasks
    refine h.handler (fun _ => ⟨?_, ?_, ?_⟩) hstep
    · exact fun j values heq => absurd heq (hnone j values)
    · exact fun j values heq => absurd heq (hnone j values)
    · intro j answer heq peer hpeer
      cases heq
      rw [hasks] at hpeer
      cases hpeer
  · rename_i u peer hasks
    by_cases hin : node ∈ s.shardMap.nodes
    · have hname := (h.nodes node hin).moving.name
      rw [hname] at hstep
      split at hstep
      · rename_i hself
        refine h.handler (fun _ => ⟨?_, ?_, ?_⟩) hstep
        · exact fun j values heq => absurd heq (hnone j values)
        · exact fun j values heq => absurd heq (hnone j values)
        · intro j answer heq peer' hpeer
          cases heq
          rw [hasks] at hpeer
          cases hpeer
          exact Or.inl hself
      · rename_i hne
        obtain ⟨_, hstep⟩ := Option.ite_none_left_eq_some.mp hstep
        obtain ⟨hnode, hhosted, hholds⟩ := h.peer hin hasks hne
        have hself : int32 u = u := by
          have hmem := ShardMapState.mem_shardsForNode (asks_cases hasks).2
          obtain ⟨hlo, hhi⟩ :=
            ShardMapState.range_of_mem_shardsForNode h.map.valid hmem
          exact int32_of_lt hlo (Int.lt_of_le_of_lt hhi h.map.lt)
        obtain ⟨data, hl⟩ := Option.isSome_iff_exists.mp (AList.lookup_isSome.mpr hhosted)
        have hcontents : (s.cluster.servers peer).getShardContents u clock =
            some ⟨some (data.contents clock), none⟩ := by
          rw [KvServerImpl.getShardContents, hself, hl]
        simp only [hcontents] at hstep
        refine h.handler (fun _ => ⟨?_, ?_, ?_⟩) hstep
        · intro j values heq w hw
          cases heq
          have hfetch := (asks_cases hasks).1
          rw [Option.mem_def, hfetch] at hw
          cases hw
          exact contents_filed hnode.moving.handler.filed hl
        · intro j values heq
          cases heq
          obtain ⟨data', hl', _, hfaith⟩ := KvServerImpl.getShardContents_faithful
            hnode.moving.handler.filed hnode.moving.handler.consistent hcontents
          rw [hself, hl] at hl'
          cases hl'
          exact hfaith
        · intro j answer heq peer' hpeer
          cases heq
          rw [hasks] at hpeer
          cases hpeer
          exact Or.inr ⟨_, rfl, (hholds rfl).contents h.ofShard hl (hu _ hasks)⟩
    · rw [h.outside node hin] at hasks
      cases hasks

theorem Ok.clean (h : s.Ok shard entries old) {u now : Int} {server : KvServerImpl}
    (hu : s.cluster.Unexpired s.shardMap entries (.clean node u now))
    (hclean : (s.cluster.servers node).clean u now = some server) :
    Setup.Ok shard entries old { s with cluster := { s.cluster with
      servers := Function.update s.cluster.servers node server } } := by
  obtain ⟨hshards, hheld⟩ := KvServerImpl.held_clean s.shardMap.numShards hclean
  have hname : server.nodeName = (s.cluster.servers node).nodeName := by
    obtain ⟨data, _, rfl⟩ := Option.map_eq_some_iff.mp hclean
    rfl
  have hsame : ∀ e ∈ entries, server.held s.shardMap.numShards e.1 =
      (s.cluster.servers node).held s.shardMap.numShards e.1 := by
    intro e he
    rcases hheld e.1 with heq | ⟨_, item, hitem, hexp⟩
    · exact heq
    · rw [hu e he item hitem] at hexp
      cases hexp
  exact h.replace node server hname hshards hsame fun hf => KvServerImpl.filed_clean hf hclean

theorem Ok.cluster (h : s.Ok shard entries old) {e : ClusterEvent} {cluster : Cluster}
    (hu : s.cluster.Unexpired s.shardMap entries e)
    (hstep : s.cluster.step s.shardMap e = some cluster) :
    Setup.Ok shard entries old { s with cluster } := by
  unfold Cluster.step at hstep
  obtain ⟨_, hstep⟩ := Option.ite_none_left_eq_some.mp hstep
  cases e with
  | handler node e =>
      obtain ⟨hnot, hstep⟩ := Option.ite_none_left_eq_some.mp hstep
      exact h.handler (fun _ => answered_of_not_ask (by simpa using hnot)) hstep
  | ask node i clock => exact h.ask hu hstep
  | clean node u now =>
      obtain ⟨server, hclean, rfl⟩ := Option.map_eq_some_iff.mp hstep
      exact h.clean hu hclean

theorem serve_isSome {server : KvServerImpl} {numShards now : Int}
    {clock : GoString → Int × Int} {r : Request} (hn : 1 ≤ numShards)
    (hr : r.byClient = true) :
    server.serve numShards now clock r ≠ none := by
  have hsome : ∀ {ρ : Type} (key : GoString) (empty missing : ρ)
      (hosted : Int → ShardData → ρ),
      server.withShard numShards key empty missing hosted ≠ none := by
    intro ρ key empty missing hosted
    rw [KvServerImpl.withShard, getShardForKey_eq hn]
    split
    · exact Option.some_ne_none _
    · dsimp only
      split <;> exact Option.some_ne_none _
  cases r with
  | get key | set key value ttlMs | delete key =>
      intro h
      exact hsome _ _ _ _ (Option.map_eq_none_iff.mp h)
  | getShardContents other => cases hr

/-- A request that writes another key leaves the entries alone. -/
theorem Ok.serve (h : s.Ok shard entries old) {now : Int} {clock : GoString → Int × Int}
    {r : Request} (hr : r.byClient = true)
    (hw : ∀ e ∈ entries, r.written ≠ some e.1) (hstep : s.serve node now clock r = some t) :
    t.Ok shard entries old := by
  simp only [Setup.serve] at hstep
  obtain ⟨_, hstep⟩ := Option.ite_none_left_eq_some.mp hstep
  split at hstep
  · rename_i hnone
    exact absurd hnone (serve_isSome h.map.pos hr)
  · rename_i server reply hserve
    cases hstep
    have hsame : server.nodeName = (s.cluster.servers node).nodeName ∧
        (∀ u, u ∈ server.availableShards ↔ u ∈ (s.cluster.servers node).availableShards) ∧
        ∀ e ∈ entries, server.held s.shardMap.numShards e.1 =
          (s.cluster.servers node).held s.shardMap.numShards e.1 := by
      cases KvServerImpl.serve_cases hserve with
      | inl hsame =>
          rw [hsame.1]
          exact ⟨rfl, fun _ => Iff.rfl, fun _ _ => rfl⟩
      | inr hwrote =>
          obtain ⟨key, u, data, data', hkey, _, hs, hl, rfl, hdata⟩ := hwrote
          have hwrote := KvServerImpl.wrote_update hs hl hdata
          refine ⟨rfl, hwrote.shards, fun e he => hwrote.other e.1 ?_⟩
          rintro rfl
          exact hw e he hkey
    exact h.replace node server hsame.1 hsame.2.1 hsame.2.2
      fun hf => KvServerImpl.filed_serve hf hserve

/-- `Update` notifies a server. -/
theorem Ok.notify (h : s.Ok shard entries old) (hstep : s.notify node = some t) :
    t.Ok shard entries old := by
  simp only [Setup.notify] at hstep
  split at hstep
  · rename_i again todo next htest
    split at hstep
    · rename_i hready
      obtain ⟨hmem, hphase⟩ := hready
      rw [List.contains_iff_mem] at hmem
      cases hstep
      have hok := h.test
      rw [htest] at hok
      obtain ⟨⟨hnodup, hin⟩, hnext⟩ := hok
      have hnode := h.nodes node (hin node hmem)
      rw [hphase] at hnode
      refine ⟨h.running, ⟨⟨hnodup.erase node, fun other ho =>
        hin other (List.mem_of_mem_erase ho)⟩, hnext⟩, h.map, h.ofShard, h.gradual, h.kept,
        fun other ho => ?_, fun other ho => ?_⟩
      · by_cases heq : other = node
        · subst heq
          simp only [Function.update_self]
          rw [htest] at hnode
          cases again with
          | true =>
              simp only [TestPos.mode, List.contains_iff_mem, if_pos hmem] at hnode
              simp only [TestPos.mode, List.contains_iff_mem, if_neg hnodup.not_mem_erase]
              refine ⟨hnode.moving.notify h.map, fun _ => trivial, fun hmode => ?_⟩
              cases hmode
          | false =>
              simp only [TestPos.mode, List.contains_iff_mem, if_pos hmem] at hnode
              simp only [TestPos.mode, List.contains_iff_mem, if_neg hnodup.not_mem_erase]
              obtain ⟨hmoving, hwithin⟩ := hnode.moving.settle h.map (hnode.course rfl)
              refine ⟨hmoving, fun hmode => ?_, fun _ => hwithin⟩
              cases hmode
        · have hother := h.nodes other ho
          rw [htest] at hother
          simp only [Function.update_of_ne heq]
          cases again with
          | true =>
              simp only [TestPos.mode, List.contains_iff_mem, List.mem_erase_of_ne heq] at hother ⊢
              exact hother
          | false =>
              simp only [TestPos.mode, List.contains_iff_mem, List.mem_erase_of_ne heq] at hother ⊢
              exact hother
      · have hne : other ≠ node := by
          rintro rfl
          exact ho (hin other hmem)
        simp only [Function.update_of_ne hne]
        exact h.outside other ho
    · cases hstep
  · cases hstep

/-- When all servers are settled, a workflow may publish. -/
theorem Ok.follow {plan : Plan} (h : s.Ok shard entries old)
    (hsettled : ∀ node ∈ s.shardMap.nodes, s.test.mode node = .settled)
    (hplan : plan.Ok shard s.shardMap) : ∃ old, (s.follow plan).Ok shard entries old := by
  cases plan with
  | returned err =>
      refine ⟨old, h.running, trivial, h.map, h.ofShard, h.gradual, h.kept, ?_, h.outside⟩
      intro node hin
      have hnode := h.nodes node hin
      rw [hsettled node hin] at hnode
      exact hnode
  | publish sm next =>
      obtain ⟨hgradual, hkeeps, hnext⟩ := hplan
      have hmap : { s.shardMap with shardsToNodes := sm.shardsToNodes } = sm := by
        cases sm
        simp only [ShardMapState.mk.injEq]
        exact ⟨hgradual.nodes.symm, trivial, hgradual.numShards.symm⟩
      have hfits : sm.Fits := by
        refine ⟨hgradual.valid, ?_, ?_⟩
        · rw [hgradual.numShards]
          exact h.map.pos
        · rw [hgradual.numShards]
          exact h.map.lt
      have hkeys : ∀ {node : GoString}, node ∈ sm.nodes → node ∈ s.shardMap.nodes.keys := by
        intro node hin
        rw [hgradual.nodes] at hin
        exact hin
      refine ⟨s.shardMap, ?_⟩
      simp only [Setup.follow, hmap]
      refine ⟨h.running, ⟨⟨s.shardMap.nodes.keys_nodup, ?_⟩, hnext⟩, hfits, ?_, hgradual, hkeeps,
        ?_, ?_⟩
      · intro node hin
        rw [hgradual.nodes]
        exact hin
      · rw [hgradual.numShards]
        exact h.ofShard
      · intro node hin
        have hnode := h.nodes node (hkeys hin)
        rw [hsettled node (hkeys hin)] at hnode
        simp only [TestPos.mode, List.contains_iff_mem, if_pos (hkeys hin)]
        refine ⟨hnode.moving.swap (hnode.within rfl) hfits hgradual.numShards, ?_, ?_⟩
        · intro hmode
          cases hmode
        · intro hmode
          cases hmode
      · intro node hout
        rw [hgradual.nodes] at hout
        exact h.outside node hout
  | panic => exact absurd hplan id

theorem Ok.nonempty (h : s.Ok shard entries old) : s.shardMap.nodesForShard shard ≠ [] := by
  obtain ⟨node, _, hcur⟩ := h.kept
  exact List.ne_nil_of_mem hcur

theorem Ok.proceed (h : s.Ok shard entries old) {c : Choice} (hstep : s.proceed c = some t) :
    ∃ old, t.Ok shard entries old := by
  simp only [Setup.proceed] at hstep
  have hok := h.test
  split at hstep
  · rename_i next htest
    cases hstep
    rw [htest] at hok
    refine ⟨old, h.running, ⟨⟨s.shardMap.nodes.keys_nodup, fun _ => id⟩, hok.2⟩, h.map, h.ofShard,
      h.gradual, h.kept, ?_, h.outside⟩
    intro node hin
    have hnode := h.nodes node hin
    rw [htest] at hnode
    simp only [TestPos.mode, List.contains_iff_mem, List.not_mem_nil, if_false] at hnode
    have hkey : node ∈ s.shardMap.nodes.keys := hin
    simp only [TestPos.mode, List.contains_iff_mem, if_pos hkey]
    exact hnode
  · rename_i next htest
    obtain ⟨plan, hplan, rfl⟩ := Option.map_eq_some_iff.mp hstep
    rw [htest] at hok
    refine h.follow ?_ (ShardMapState.second_ok h.map.valid h.nonempty hok.2 hplan)
    intro node _
    rw [htest]
    rfl
  · cases hstep

theorem Ok.step (h : s.Ok shard entries old) {e : SetupEvent} (hu : s.Unexpired entries e)
    (hg : s.Graceful shard entries e) (hstep : s.step e = some t) :
    ∃ old, t.Ok shard entries old := by
  unfold Setup.step at hstep
  obtain ⟨_, hstep⟩ := Option.ite_none_left_eq_some.mp hstep
  cases e with
  | call w c =>
      simp only at hstep
      split at hstep
      · rename_i err htest
        obtain ⟨plan, hplan, rfl⟩ := Option.map_eq_some_iff.mp hstep
        refine h.follow ?_ (ShardMapState.first_ok h.map.pos h.map.valid h.nonempty hg.1 hg.2 hplan)
        intro node _
        rw [htest]
        rfl
      · cases hstep
  | notify node => exact ⟨old, h.notify hstep⟩
  | proceed c => exact h.proceed hstep
  | cluster e =>
      obtain ⟨cluster, hcluster, rfl⟩ := Option.map_eq_some_iff.mp hstep
      exact ⟨old, h.cluster hu hcluster⟩
  | serve node now clock r => exact ⟨old, h.serve hg.1 hg.2 hstep⟩

end Setup

/-- The setup begins settled. -/
theorem setup_init_ok {sm : ShardMapState} {servers : GoString → KvServerImpl} (hm : sm.Fits)
    (hs : ∀ e ∈ entries, shardFor e.1 sm.numShards = some shard)
    (hname : ∀ node ∈ sm.nodes, (servers node).nodeName = node)
    (hfiled : ∀ node ∈ sm.nodes, (servers node).Filed sm.numShards)
    (hhosts : ∀ node ∈ sm.nodes, ∀ u, u ∈ (servers node).availableShards ↔
      node ∈ sm.nodesForShard u)
    (hholds : ∀ node ∈ sm.nodesForShard shard, (servers node).Holds sm.numShards entries)
    (hne : sm.nodesForShard shard ≠ []) :
    (setup sm servers).init.Ok shard entries sm := by
  obtain ⟨host, hhost⟩ := List.exists_mem_of_ne_nil _ hne
  refine ⟨rfl, trivial, hm, hs, ⟨⟨rfl, rfl, hm.valid⟩, fun _ _ _ ha _ hna _ => absurd ha hna⟩,
    ⟨host, hhost, hhost⟩, fun node hin => ⟨⟨hname node hin, ⟨hfiled node hin, ?_, ?_⟩, trivial, ?_,
      trivial, ?_, ?_⟩, ?_, ?_⟩, fun _ _ => rfl⟩
  · by_cases hmem : node ∈ sm.nodesForShard shard
    · exact (hholds node hmem).consistent
    · exact consistent_of_notMem hs fun h => hmem ((hhosts node hin shard).mp h)
  · exact fun v hv => absurd hv List.not_mem_nil
  · exact fun u hcur _ => (hhosts node hin u).mpr hcur
  · exact fun hcur => Or.inl (.returned (hholds node hcur))
  · exact fun hcur _ => hholds node hcur
  · intro hmode
    cases hmode
  · exact fun _ u hu => (hhosts node hin u).mp hu

/-- Whatever workflows are called one after the other, as long as none is told to take the
shard from its last node, and whatever the servers, the cleaners and clients that write
other keys do in the meantime: nothing panics, the map stays valid, and at every moment some
node of the shard has all its entries. When a workflow has returned, every server hosts the
shards that the map gives it, and all nodes of the shard have the entries. -/
theorem workflows_lose_nothing {sm : ShardMapState} {servers : GoString → KvServerImpl}
    {shardID : Int} {entries : List (GoString × GoString)} (hm : sm.Fits)
    (hentries : ∀ e ∈ entries, getShardForKey e.1 sm.numShards = some shardID)
    (hname : ∀ node ∈ sm.nodes, (servers node).nodeName = node)
    (hfiled : ∀ node ∈ sm.nodes, (servers node).Filed sm.numShards)
    (hhosts : ∀ node ∈ sm.nodes, ∀ u, u ∈ (servers node).availableShards ↔
      node ∈ sm.nodesForShard u)
    (hholds : ∀ node ∈ sm.nodesForShard shardID, (servers node).Holds sm.numShards entries)
    (hne : sm.nodesForShard shardID ≠ []) {h : List Setup}
    (run : (setup sm servers).Run (fun s e => s.Unexpired entries e ∧
      s.Graceful shardID entries e) h) :
    ∀ s ∈ h, s.cluster.panicked = none ∧ s.test ≠ .panicked ∧ s.shardMap.isValid = true ∧
      (∃ node ∈ s.shardMap.nodesForShard shardID,
        (s.cluster.servers node).Holds s.shardMap.numShards entries) ∧
      ∀ err, s.test = .idle err →
        (∀ node ∈ s.shardMap.nodes, ∀ u, u ∈ (s.cluster.servers node).availableShards ↔
          node ∈ s.shardMap.nodesForShard u) ∧
        ∀ node ∈ s.shardMap.nodesForShard shardID,
          (s.cluster.servers node).Holds s.shardMap.numShards entries := by
  have hs : ∀ e ∈ entries, shardFor e.1 sm.numShards = some shardID := by
    intro e he
    obtain ⟨node, hnode⟩ := List.exists_mem_of_ne_nil _ hne
    obtain ⟨hlo, hhi⟩ := ShardMapState.range_of_mem_shardsForNode hm.valid
      (ShardMapState.mem_shardsForNode hnode)
    rw [shardFor, hentries e he, Option.map_some,
      int32_of_lt hlo (Int.lt_of_le_of_lt hhi hm.lt)]
  have hall : ∀ s ∈ h, ∃ old, s.Ok shardID entries old := by
    refine run.invariant (I := fun s => ∃ old, Setup.Ok shardID entries old s)
      ⟨sm, setup_init_ok hm hs hname hfiled hhosts hholds hne⟩ ?_
    rintro s e t ⟨old, hok⟩ hp hstep
    exact hok.step hp.1 hp.2 hstep
  intro s hmem
  obtain ⟨old, hok⟩ := hall s hmem
  have hexist : ∀ {node : GoString} {u : Int}, node ∈ s.shardMap.nodesForShard u →
      node ∈ s.shardMap.nodes := fun hnode =>
    (ShardMapState.listed_of_valid hok.map.valid _).exist _ hnode
  refine ⟨hok.running, ?_, hok.map.valid, ?_, ?_⟩
  · intro htest
    have htest' := hok.test
    rw [htest] at htest'
    exact htest'
  · obtain ⟨node, hold, hcur⟩ := hok.kept
    refine ⟨node, hcur, (hok.nodes node (hexist hcur)).moving.holds ?_ hcur⟩
    cases s.test.mode node with
    | waiting | signalled => exact hold
    | settled => exact hcur
  · intro err htest
    have hnode : ∀ node ∈ s.shardMap.nodes, NodeInv old s.shardMap shardID entries node .settled
        (s.cluster.servers node) (s.cluster.phases node) := by
      intro node hin
      have hnode := hok.nodes node hin
      rwa [htest] at hnode
    constructor
    · intro node hin u
      exact ⟨(hnode node hin).within rfl u, fun hcur => (hnode node hin).moving.keep u hcur hcur⟩
    · intro node hcur
      exact (hnode node (hexist hcur)).moving.holds hcur hcur

/-- The nodes in order, and one draw. -/
def anyChoice : Choice := ⟨fun _ => [[1], [2], [3]], fun _ => [0]⟩

/-- The handler of a node has nothing to copy. -/
def passes (node : GoString) (hosted removed : List Int) : List SetupEvent :=
  (([.lock] ++ hosted.map .check ++ [.register] ++ removed.map .remove ++ [.unlock] :
    List HandlerEvent).map fun e => .cluster (.handler node e))

/-- Shard 2 moves from node 3 to node 1. Node 3 sees the second map while it handles the
second notification of the first. -/
def moveAway : List SetupEvent :=
  [.call (.moveShard 2 [3] [1]) anyChoice, .notify [1], .notify [2], .notify [3],
    .cluster (.handler [1] .lock), .cluster (.handler [1] .register),
    .cluster (.handler [1] (.intn 0 0)), .cluster (.ask [1] 0 fun _ => (0, 0)),
    .cluster (.handler [1] .relock), .cluster (.handler [1] (.insert 0)),
    .cluster (.handler [1] .unlock)] ++ passes [2] [] [] ++ passes [3] [2] [] ++
  [.proceed anyChoice, .notify [1], .notify [2], .notify [3], .proceed anyChoice] ++
  passes [1] [2] [] ++ passes [2] [] [] ++ passes [3] [2] [2] ++
  [.notify [1], .notify [2], .notify [3], .proceed anyChoice] ++
  passes [1] [2] [] ++ passes [2] [] [] ++ passes [3] [] [] ++
  [.notify [1], .notify [2], .notify [3], .proceed anyChoice]

theorem oneHost_hosts (node : GoString) (u : Int) : u ∈ (oneHost node).availableShards ↔
    node ∈ (smallMap [] [[3]]).nodesForShard u := by
  have hnodes : (smallMap [] [[3]]).nodesForShard u = if u = 2 then [[3]] else [] := by
    by_cases hu : u = 2
    · subst hu
      rfl
    · rw [if_neg hu, ShardMapState.nodesForShard, smallMap, AList.lookup_insert_ne hu]
      cases hl : (AList.singleton 1 [] : GoMap Int (List GoString)).lookup u with
      | none => rfl
      | some nodes => exact (GoMap.lookup_singleton.mp hl).2
  rw [hnodes, oneHost]
  by_cases hnode : node = [3]
  · rw [if_pos hnode, hnode, ← AList.lookup_isSome, Option.isSome_iff_exists]
    simp only [GoMap.lookup_singleton]
    by_cases hu : u = 2
    · simp [hu]
    · simp [hu]
  · rw [if_neg hnode]
    by_cases hu : u = 2
    · simp [hu, hnode]
    · simp [hu]

theorem workflows_lose_nothing_move : ∃ h,
    (setup (smallMap [] [[3]]) oneHost).Run (fun s e => s.Unexpired [([2], [7])] e ∧
      s.Graceful 2 [([2], [7])] e) h ∧
    ∃ s ∈ h, s.test = .idle none ∧ s.shardMap.nodesForShard 2 = [[1]] ∧
      (s.cluster.servers [1]).Holds s.shardMap.numShards [([2], [7])] := by
  obtain ⟨h, run, s, hs, htest, hmap⟩ :=
    (setup (smallMap [] [[3]]) oneHost).exists_run_of_replay (fun s e =>
      s.Unexpired [([2], [7])] e ∧ s.Graceful 2 [([2], [7])] e) moveAway
      (fun h => ∃ s ∈ h, s.test = .idle none ∧ s.shardMap.nodesForShard 2 = [[1]])
      (by decide +kernel)
  have hall := workflows_lose_nothing ⟨by decide, by decide, by decide⟩ (by decide)
    (fun node _ => oneHost_name node) (fun node _ => oneHost_filed node)
    (fun node _ => oneHost_hosts node) (by decide) (by decide) run s hs
  refine ⟨h, run, s, hs, htest, hmap, (hall.2.2.2.2 none htest).2 [1] ?_⟩
  rw [hmap]
  exact List.mem_singleton_self [1]

end KvLab
