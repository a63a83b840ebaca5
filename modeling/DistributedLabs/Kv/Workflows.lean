import DistributedLabs.Kv.ShardMap
import DistributedLabs.Library.Sampling
import Mathlib.Data.Finset.Card
import Mathlib.Order.Interval.Finset.Nat
import Mathlib.Data.Int.Interval

/-!
The workflows of the test setup (test_setup.go) that move shards and adjust replicas, as far
as they compute shard maps. A workflow edits a copy of the state of the shard map and
publishes it; some take a second copy after that and publish again. What `range` over a map
and `rand.Perm` yield is given.
-/

namespace KvLab

/-- The errors of the workflows, with what their messages name. -/
inductive WorkflowError
  | notEnoughNodes (shard : Int)
  | alreadyAdded (dstNode : GoString) (shard : Int)
  | dropsTooMany (numReplicasToDrop numCurrentNodes : Nat) (shard : Int)
  | tooManySrcNodes (numSrcNodes numReplicasToDrop : Nat) (shard : Int)
  | notInNodeSet (srcNodesSet : Finset GoString) (shard : Int)
  deriving DecidableEq

/-- A workflow returns an error, or an index is out of range. -/
inductive Fault
  | error (err : WorkflowError)
  | panic
  deriving DecidableEq

/-- The order in which `range` yields the nodes of the shard map, and the result of
`rand.Perm`, while the replicas of a shard are adjusted. -/
structure Choice where
  order : Int → List GoString
  perm : Int → List Nat

/-- The loop of `addReplicasForShard` over `dstNodes`. -/
def addDstNodes (shard : Int) : List GoString → List GoString → Except Fault (List GoString)
  | nodes, [] => .ok nodes
  | nodes, node :: dstNodes =>
      if nodes.contains node then .error (.error (.alreadyAdded node shard))
      else addDstNodes shard (nodes ++ [node]) dstNodes

/-- The loop of `dropReplicasForShard` over the nodes of the shard: the candidates, and
what is left of `srcNodesSet`. -/
def dropSrcNodes : List GoString → Finset GoString → List GoString × Finset GoString
  | [], srcNodesSet => ([], srcNodesSet)
  | node :: nodes, srcNodesSet =>
      if node ∈ srcNodesSet then dropSrcNodes nodes (srcNodesSet.erase node)
      else ((node :: (dropSrcNodes nodes srcNodesSet).1), (dropSrcNodes nodes srcNodesSet).2)

namespace ShardMapState

variable (sm : ShardMapState)

/-- `smState.ShardsToNodes[shard] = nodes`. -/
def setNodes (shard : Int) (nodes : List GoString) : ShardMapState :=
  { sm with shardsToNodes := sm.shardsToNodes.insert shard nodes }

/-- `none` if the order or the permutation is not a possible one. -/
def addReplicasForShard (shard : Int) (numReplicasToAdd : Nat) (dstNodes : List GoString)
    (c : Choice) : Option (Except Fault ShardMapState) :=
  if (sm.nodesForShard shard).length + numReplicasToAdd > sm.nodes.entries.length then
    some (.error (.error (.notEnoughNodes shard)))
  else
    match addDstNodes shard (sm.nodesForShard shard) dstNodes with
    | .error fault => some (.error fault)
    | .ok nodes =>
        let dstOptions := (c.order shard).filter (!nodes.contains ·)
        -- The capacity of `dstOptions` is negative.
        if sm.nodes.entries.length < nodes.length then some (.error .panic)
        else if (c.order shard).Perm sm.nodes.keys ∧
            (c.perm shard).Perm (List.range dstOptions.length) then
          match Sampling.draw dstOptions (c.perm shard) (numReplicasToAdd - dstNodes.length) with
          | none => some (.error .panic)
          | some picked => some (.ok (sm.setNodes shard (nodes ++ picked)))
        else none

def dropReplicasForShard (shard : Int) (numReplicasToDrop : Nat) (srcNodes : List GoString)
    (c : Choice) : Option (Except Fault ShardMapState) :=
  let nodes := sm.nodesForShard shard
  if nodes.length < numReplicasToDrop then
    some (.error (.error (.dropsTooMany numReplicasToDrop nodes.length shard)))
  else if srcNodes.length > numReplicasToDrop then
    some (.error (.error (.tooManySrcNodes srcNodes.length numReplicasToDrop shard)))
  else
    let r := dropSrcNodes nodes srcNodes.toFinset
    if r.2.Nonempty then some (.error (.error (.notInNodeSet r.2 shard)))
    else if (c.perm shard).Perm (List.range (nodes.length - srcNodes.length)) then
      match Sampling.draw r.1 (c.perm shard) (nodes.length - numReplicasToDrop) with
      | none => some (.error .panic)
      | some picked => some (.ok (sm.setNodes shard picked))
    else none

/-- The first loop of `DrainNode`. -/
def addElsewhere (c : Choice) : List Int → ShardMapState → Option (Except Fault ShardMapState)
  | [], sm => some (.ok sm)
  | shard :: shards, sm =>
      if (sm.nodesForShard shard).length < sm.nodes.entries.length then
        match sm.addReplicasForShard shard 1 [] c with
        | none => none
        | some (.error fault) => some (.error fault)
        | some (.ok sm) => addElsewhere c shards sm
      else addElsewhere c shards sm

/-- The loop of `RemoveNode` and the second one of `DrainNode`. -/
def dropFrom (c : Choice) (node : GoString) :
    List Int → ShardMapState → Option (Except Fault ShardMapState)
  | [], sm => some (.ok sm)
  | shard :: shards, sm =>
      match sm.dropReplicasForShard shard 1 [node] c with
      | none => none
      | some (.error fault) => some (.error fault)
      | some (.ok sm) => dropFrom c node shards sm

end ShardMapState

/-- The two random workflows come with what they draw. -/
inductive Workflow
  | removeNode (node : GoString)
  | drainNode (node : GoString)
  | moveShard (shard : Int) (srcNode dstNode : GoString)
  | moveRandomShard (shard : Int) (srcNode dstNode : GoString)
  | dropShard (shard : Int)
  | dropRandomShard (shard : Int)

/-- What a workflow does after it has published: it returns, or it drops a node from some
shards and publishes again. -/
inductive Next
  | finish
  | drop (node : GoString) (shards : List Int)
  deriving DecidableEq

/-- What a workflow does first. -/
inductive Plan
  | returned (err : Option WorkflowError)
  | publish (sm : ShardMapState) (next : Next)
  | panic

/-- The copy that was edited is published, unless the edits failed. -/
def Plan.of (next : Next) : Except Fault ShardMapState → Plan
  | .error (.error err) => .returned (some err)
  | .error .panic => .panic
  | .ok sm => .publish sm next

namespace ShardMapState

variable (sm : ShardMapState)

def removeNode (node : GoString) (c : Choice) : Option Plan :=
  (dropFrom c node (sm.shardsForNode node) sm).map (Plan.of .finish)

def drainNode (node : GoString) (c : Choice) : Option Plan :=
  (addElsewhere c (sm.shardsForNode node) sm).map
    (Plan.of (.drop node (sm.shardsForNode node)))

def moveShard (shard : Int) (srcNode dstNode : GoString) (c : Choice) : Option Plan :=
  if srcNode = dstNode then some (.returned none)
  else (sm.addReplicasForShard shard 1 [dstNode] c).map (Plan.of (.drop srcNode [shard]))

def dropShard (shard : Int) (c : Choice) : Option Plan :=
  (sm.dropReplicasForShard shard (sm.nodesForShard shard).length [] c).map (Plan.of .finish)

/-- `rand.Int()%ts.NumShards() + 1` can be this shard. -/
def Draws (shard : Int) : Prop := 1 ≤ shard ∧ shard ≤ sm.numShards.natAbs

instance (shard : Int) : Decidable (sm.Draws shard) := inferInstanceAs (Decidable (_ ∧ _))

/-- The loop of `MoveRandomShard` ends with a shard that some nodes host, but not all. -/
def moveRandomShard (shard : Int) (srcNode dstNode : GoString) (c : Choice) : Option Plan :=
  if sm.numShards = 0 then some .panic
  else if sm.Draws shard ∧ (sm.nodesForShard shard).length < sm.nodes.entries.length ∧
      (sm.nodesForShard shard).contains srcNode ∧ dstNode ∈ sm.nodes ∧
      !(sm.nodesForShard shard).contains dstNode then
    sm.moveShard shard srcNode dstNode c
  else none

def dropRandomShard (shard : Int) (c : Choice) : Option Plan :=
  if sm.numShards = 0 then some .panic
  else if sm.Draws shard then sm.dropShard shard c
  else none

def first (c : Choice) : Workflow → Option Plan
  | .removeNode node => sm.removeNode node c
  | .drainNode node => sm.drainNode node c
  | .moveShard shard srcNode dstNode => sm.moveShard shard srcNode dstNode c
  | .moveRandomShard shard srcNode dstNode => sm.moveRandomShard shard srcNode dstNode c
  | .dropShard shard => sm.dropShard shard c
  | .dropRandomShard shard => sm.dropRandomShard shard c

/-- What a workflow does once its first map has been handled. -/
def second (c : Choice) : Next → Option Plan
  | .finish => some (.returned none)
  | .drop node shards => (dropFrom c node shards sm).map (Plan.of .finish)

end ShardMapState

section Nodes

theorem addDstNodes_ok {shard : Int} {nodes dstNodes l : List GoString}
    (h : addDstNodes shard nodes dstNodes = .ok l) :
    l = nodes ++ dstNodes ∧ dstNodes.Nodup ∧ ∀ node ∈ dstNodes, node ∉ nodes := by
  induction dstNodes generalizing nodes with
  | nil =>
      cases h
      exact ⟨by simp, List.nodup_nil, fun _ h => absurd h List.not_mem_nil⟩
  | cons node dstNodes ih =>
      simp only [addDstNodes] at h
      split at h
      · cases h
      · rename_i hnot
        obtain ⟨rfl, hnodup, hnew⟩ := ih h
        refine ⟨by simp, ?_, ?_⟩
        · refine List.nodup_cons.mpr ⟨fun hmem => hnew node hmem (by simp), hnodup⟩
        · intro other ho
          cases ho with
          | head => exact fun hmem => hnot (List.contains_iff_mem.mpr hmem)
          | tail _ ho => exact fun hmem => hnew other ho (List.mem_append_left _ hmem)

theorem addDstNodes_error {shard : Int} {nodes dstNodes : List GoString} {fault : Fault}
    (h : addDstNodes shard nodes dstNodes = .error fault) :
    (∃ err, fault = .error err) ∧ ¬ (nodes ++ dstNodes).Nodup := by
  induction dstNodes generalizing nodes with
  | nil => cases h
  | cons node dstNodes ih =>
      simp only [addDstNodes] at h
      split at h
      · rename_i hmem
        cases h
        refine ⟨⟨_, rfl⟩, fun hn => ?_⟩
        exact (List.nodup_append'.mp hn).2.2 (List.contains_iff_mem.mp hmem) List.mem_cons_self
      · obtain ⟨herr, hdup⟩ := ih h
        refine ⟨herr, fun hn => hdup ?_⟩
        rwa [List.append_assoc, List.singleton_append]

/-- The candidates are the other nodes of the shard. -/
theorem dropSrcNodes_eq {nodes : List GoString} (hn : nodes.Nodup) (srcs : Finset GoString) :
    dropSrcNodes nodes srcs = (nodes.filter (· ∉ srcs), srcs \ nodes.toFinset) := by
  induction nodes generalizing srcs with
  | nil => simp [dropSrcNodes]
  | cons node nodes ih =>
      obtain ⟨hnew, hn⟩ := List.nodup_cons.mp hn
      by_cases hmem : node ∈ srcs
      · rw [dropSrcNodes, if_pos hmem, ih hn]
        have hfilter : nodes.filter (· ∉ srcs.erase node) = nodes.filter (· ∉ srcs) := by
          apply List.filter_congr
          intro other ho
          have hne : other ≠ node := fun heq => hnew (heq ▸ ho)
          simp [hne]
        rw [hfilter, List.filter_cons_of_neg (by simpa using hmem), List.toFinset_cons,
          Finset.erase_sdiff_comm, Finset.sdiff_insert]
      · rw [dropSrcNodes, if_neg hmem, ih hn, List.filter_cons_of_pos (by simpa using hmem),
          List.toFinset_cons, Finset.sdiff_insert_of_notMem hmem]

end Nodes

namespace ShardMapState

variable {sm sm' : ShardMapState} {shard : Int} {c : Choice}

theorem nodesForShard_setNodes (sm : ShardMapState) (shard : Int) (nodes : List GoString)
    (other : Int) : (sm.setNodes shard nodes).nodesForShard other =
      if other = shard then nodes else sm.nodesForShard other := by
  rw [nodesForShard, setNodes]
  by_cases h : other = shard
  · rw [h, AList.lookup_insert, if_pos rfl]
  · rw [AList.lookup_insert_ne h, if_neg h]
    rfl

/-- A map is valid if its shards are, for the keys are different numbers in range. -/
theorem isValid_iff_lookup (hn : 0 ≤ sm.numShards) : sm.isValid = true ↔
    ∀ shard nodes, sm.shardsToNodes.lookup shard = some nodes →
      1 ≤ shard ∧ shard ≤ sm.numShards ∧ nodes.Nodup ∧ ∀ node ∈ nodes, node ∈ sm.nodes := by
  rw [isValid_iff]
  constructor
  · intro h shard nodes hl
    exact h.2 ⟨shard, nodes⟩ (AList.mem_lookup_iff.mp hl)
  · intro h
    refine ⟨?_, fun e he => h e.1 e.2 (AList.mem_lookup_iff.mpr he)⟩
    have hsub : sm.shardsToNodes.keys ⊆ (Finset.Icc 1 sm.numShards).toList := by
      intro shard hs
      obtain ⟨nodes, hl⟩ := Option.isSome_iff_exists.mp (AList.lookup_isSome.mpr hs)
      obtain ⟨hlo, hhi, _⟩ := h shard nodes hl
      rw [Finset.mem_toList, Finset.mem_Icc]
      exact ⟨hlo, hhi⟩
    have hlen := (sm.shardsToNodes.keys_nodup.subperm hsub).length_le
    rw [Finset.length_toList, Int.card_Icc, AList.keys, List.keys, List.length_map] at hlen
    omega

/-- The nodes of a shard of a valid map. -/
structure Listed (sm : ShardMapState) (nodes : List GoString) : Prop where
  nodup : nodes.Nodup
  exist : ∀ node ∈ nodes, node ∈ sm.nodes

theorem listed_of_valid (hv : sm.isValid = true) (shard : Int) :
    sm.Listed (sm.nodesForShard shard) := by
  rw [nodesForShard]
  split
  · exact ⟨List.nodup_nil, fun _ h => absurd h List.not_mem_nil⟩
  · rename_i nodes hl
    obtain ⟨_, _, hnodup, hexist⟩ :=
      (isValid_iff.mp hv).2 ⟨shard, nodes⟩ (AList.mem_lookup_iff.mp hl)
    exact ⟨hnodup, hexist⟩

theorem Listed.length_le {nodes : List GoString} (h : sm.Listed nodes) :
    nodes.length ≤ sm.nodes.entries.length := by
  have hsub : nodes ⊆ sm.nodes.keys := h.exist
  have hlen := (h.nodup.subperm hsub).length_le
  rwa [AList.keys, List.keys, List.length_map] at hlen

theorem isValid_setNodes {nodes : List GoString} (hv : sm.isValid = true)
    (hs : 1 ≤ shard ∧ shard ≤ sm.numShards) (hnodes : sm.Listed nodes) :
    (sm.setNodes shard nodes).isValid = true := by
  have hn : 0 ≤ sm.numShards := by omega
  refine (isValid_iff_lookup ?_).mpr ?_
  · exact hn
  intro other nodes' hl
  obtain ⟨rfl, rfl⟩ | ⟨_, hl⟩ := GoMap.lookup_insert_iff.mp hl
  · exact ⟨hs.1, hs.2, hnodes.nodup, hnodes.exist⟩
  · exact (isValid_iff_lookup hn).mp hv other nodes' hl

/-- `addReplicasForShard` keeps the nodes of the shard and adds others, `dstNodes` first, or
it returns an error. -/
theorem addReplicasForShard_cases {numReplicasToAdd : Nat} {dstNodes : List GoString}
    {r : Except Fault ShardMapState} (hnodes : sm.Listed (sm.nodesForShard shard))
    (hnum : dstNodes.length ≤ numReplicasToAdd) (hdst : ∀ node ∈ dstNodes, node ∈ sm.nodes)
    (h : sm.addReplicasForShard shard numReplicasToAdd dstNodes c = some r) :
    (∃ err, r = .error (.error err)) ∧
      ((sm.nodesForShard shard).length + numReplicasToAdd > sm.nodes.entries.length ∨
        ¬ (sm.nodesForShard shard ++ dstNodes).Nodup) ∨
    ∃ extra, r = .ok (sm.setNodes shard (sm.nodesForShard shard ++ (dstNodes ++ extra))) ∧
      (dstNodes ++ extra).length = numReplicasToAdd ∧
      sm.Listed (sm.nodesForShard shard ++ (dstNodes ++ extra)) := by
  simp only [addReplicasForShard] at h
  split at h
  · rename_i hfull
    cases h
    exact Or.inl ⟨⟨_, rfl⟩, Or.inl hfull⟩
  · rename_i hroom
    cases hadd : addDstNodes shard (sm.nodesForShard shard) dstNodes with
    | error fault =>
        simp only [hadd] at h
        cases h
        obtain ⟨⟨err, rfl⟩, hdup⟩ := addDstNodes_error hadd
        exact Or.inl ⟨⟨err, rfl⟩, Or.inr hdup⟩
    | ok nodes =>
        obtain ⟨rfl, hnodup, hnew⟩ := addDstNodes_ok hadd
        have hall : sm.Listed (sm.nodesForShard shard ++ dstNodes) := by
          refine ⟨List.nodup_append'.mpr ⟨hnodes.nodup, hnodup, ?_⟩, ?_⟩
          · exact fun node h h' => hnew node h' h
          · intro node hmem
            cases List.mem_append.mp hmem with
            | inl hmem => exact hnodes.exist node hmem
            | inr hmem => exact hdst node hmem
        simp only [hadd, if_neg (Nat.not_lt.mpr hall.length_le)] at h
        split at h
        · rename_i hchoice
          obtain ⟨horder, hperm⟩ := hchoice
          have hordered : (c.order shard).Nodup := horder.nodup_iff.mpr sm.nodes.keys_nodup
          have hroom' : numReplicasToAdd - dstNodes.length ≤
              ((c.order shard).filter
                (!(sm.nodesForShard shard ++ dstNodes).contains ·)).length := by
            have hlen := Sampling.length_filter_add hordered hall.nodup
              (fun node hnode => horder.mem_iff.mpr (hall.exist node hnode))
              (p := (!(sm.nodesForShard shard ++ dstNodes).contains ·)) (fun node => by simp)
            rw [horder.length_eq, AList.keys, List.keys, List.length_map,
              List.length_append] at hlen
            omega
          obtain ⟨extra, hdraw, hsub, hlen⟩ := Sampling.draw_shuffled hperm hroom'
          simp only [hdraw] at h
          cases h
          refine Or.inr ⟨extra, by rw [List.append_assoc], ?_, ?_, ?_⟩
          · rw [List.length_append]
            omega
          · rw [← List.append_assoc]
            refine List.nodup_append'.mpr ⟨hall.nodup,
              Sampling.nodup_of_subperm hsub (hordered.filter _), ?_⟩
            intro node hmem hextra
            have hnot := (List.mem_filter.mp (hsub.subset hextra)).2
            exact absurd hmem (by simpa using hnot)
          · rw [← List.append_assoc]
            intro node hmem
            cases List.mem_append.mp hmem with
            | inl hmem => exact hall.exist node hmem
            | inr hextra =>
                exact horder.mem_iff.mp (List.mem_filter.mp (hsub.subset hextra)).1
        · cases h

/-- `dropReplicasForShard` keeps some of the nodes of the shard, none of `srcNodes`, or it
returns an error. -/
theorem dropReplicasForShard_cases {numReplicasToDrop : Nat} {srcNodes : List GoString}
    {r : Except Fault ShardMapState} (hnodes : sm.Listed (sm.nodesForShard shard))
    (hsrc : srcNodes.Nodup)
    (h : sm.dropReplicasForShard shard numReplicasToDrop srcNodes c = some r) :
    (∃ err, r = .error (.error err)) ∧
      ((sm.nodesForShard shard).length < numReplicasToDrop ∨
        numReplicasToDrop < srcNodes.length ∨
        ∃ node ∈ srcNodes, node ∉ sm.nodesForShard shard) ∨
    ∃ left, r = .ok (sm.setNodes shard left) ∧
      left.Subperm ((sm.nodesForShard shard).filter (· ∉ srcNodes)) ∧
      left.length + numReplicasToDrop = (sm.nodesForShard shard).length ∧
      sm.Listed left ∧ ∀ node ∈ srcNodes, node ∈ sm.nodesForShard shard := by
  simp only [dropReplicasForShard, dropSrcNodes_eq hnodes.nodup] at h
  split at h
  · rename_i hmany
    cases h
    exact Or.inl ⟨⟨_, rfl⟩, Or.inl hmany⟩
  · rename_i hmany
    split at h
    · rename_i hfew
      cases h
      exact Or.inl ⟨⟨_, rfl⟩, Or.inr (Or.inl hfew)⟩
    · rename_i hfew
      split at h
      · rename_i hrest
        cases h
        obtain ⟨node, hnode⟩ := hrest
        rw [Finset.mem_sdiff, List.mem_toFinset, List.mem_toFinset] at hnode
        exact Or.inl ⟨⟨_, rfl⟩, Or.inr (Or.inr ⟨node, hnode.1, hnode.2⟩)⟩
      · rename_i hempty
        rw [Finset.not_nonempty_iff_eq_empty, Finset.sdiff_eq_empty_iff_subset] at hempty
        have hsub : srcNodes ⊆ sm.nodesForShard shard := fun node hnode =>
          List.mem_toFinset.mp (hempty (List.mem_toFinset.mpr hnode))
        simp only [List.mem_toFinset] at h
        have hlen := Sampling.length_filter_add hnodes.nodup hsrc hsub
          (p := (· ∉ srcNodes)) (fun _ => decide_eq_true_iff)
        split at h
        · rename_i hperm
          have hcount : (sm.nodesForShard shard).length - srcNodes.length =
              ((sm.nodesForShard shard).filter (· ∉ srcNodes)).length := by omega
          rw [hcount] at hperm
          obtain ⟨left, hdraw, hleft, hlength⟩ := Sampling.draw_shuffled hperm
            (k := (sm.nodesForShard shard).length - numReplicasToDrop) (by omega)
          simp only [hdraw] at h
          cases h
          refine Or.inr ⟨left, rfl, hleft, by omega, ⟨?_, ?_⟩, hsub⟩
          · exact Sampling.nodup_of_subperm hleft (hnodes.nodup.filter _)
          · intro node hnode
            exact hnodes.exist node (List.mem_filter.mp (hleft.subset hnode)).1
        · cases h

/-- Only the nodes of some shards have changed, and the map is still valid. -/
structure Edited (sm sm' : ShardMapState) : Prop where
  nodes : sm'.nodes = sm.nodes
  numShards : sm'.numShards = sm.numShards
  valid : sm'.isValid = true

theorem edited_setNodes {nodes : List GoString} (hv : sm.isValid = true)
    (hs : 1 ≤ shard ∧ shard ≤ sm.numShards) (hnodes : sm.Listed nodes) :
    sm.Edited (sm.setNodes shard nodes) :=
  ⟨rfl, rfl, isValid_setNodes hv hs hnodes⟩

theorem Edited.trans {sm'' : ShardMapState} (h : sm.Edited sm') (h' : sm'.Edited sm'') :
    sm.Edited sm'' :=
  ⟨h'.nodes.trans h.nodes, h'.numShards.trans h.numShards, h'.valid⟩

/-- `DrainNode` adds one node to each of the shards that are not on all nodes. -/
theorem addElsewhere_ok {shards : List Int} {r : Except Fault ShardMapState}
    (hv : sm.isValid = true) (hs : shards.Nodup)
    (hr : ∀ shard ∈ shards, 1 ≤ shard ∧ shard ≤ sm.numShards)
    (h : addElsewhere c shards sm = some r) : ∃ sm', r = .ok sm' ∧ sm.Edited sm' ∧
      ∀ shard, ∃ extra, sm'.nodesForShard shard = sm.nodesForShard shard ++ extra ∧
        extra.length = if shard ∈ shards ∧
          (sm.nodesForShard shard).length < sm.nodes.entries.length then 1 else 0 := by
  induction shards generalizing sm with
  | nil =>
      cases h
      exact ⟨sm, rfl, ⟨rfl, rfl, hv⟩, fun shard => ⟨[], by simp⟩⟩
  | cons shard shards ih =>
      obtain ⟨hnew, hs⟩ := List.nodup_cons.mp hs
      obtain ⟨hrange, hr⟩ := List.forall_mem_cons.mp hr
      simp only [addElsewhere] at h
      split at h
      · rename_i hroom
        cases hadd : sm.addReplicasForShard shard 1 [] c with
        | none =>
            simp only [hadd] at h
            cases h
        | some r₁ =>
            have hlisted := listed_of_valid hv shard
            rcases addReplicasForShard_cases hlisted (Nat.zero_le 1)
              (fun _ h => absurd h List.not_mem_nil) hadd with herr | ⟨extra, rfl, hlen, hall⟩
            · rcases herr.2 with hfull | hdup
              · omega
              · rw [List.append_nil] at hdup
                exact absurd hlisted.nodup hdup
            · simp only [hadd] at h
              have hedit := edited_setNodes hv hrange hall
              obtain ⟨sm', rfl, hedit', hextra⟩ := ih hedit.valid hs hr h
              refine ⟨sm', rfl, hedit.trans hedit', fun other => ?_⟩
              obtain ⟨extra', heq, hlen'⟩ := hextra other
              rw [nodesForShard_setNodes] at heq hlen'
              by_cases hother : other = shard
              · subst hother
                rw [if_pos rfl] at heq
                rw [if_neg (fun h => hnew h.1)] at hlen'
                obtain rfl := List.length_eq_zero_iff.mp hlen'
                rw [List.append_nil] at heq
                refine ⟨[] ++ extra, heq, ?_⟩
                rw [if_pos ⟨List.mem_cons_self, hroom⟩]
                exact hlen
              · rw [if_neg hother] at heq hlen'
                refine ⟨extra', heq, ?_⟩
                simp only [List.mem_cons, hother, false_or]
                exact hlen'
      · rename_i hroom
        obtain ⟨sm', rfl, hedit, hextra⟩ := ih hv hs hr h
        refine ⟨sm', rfl, hedit, fun other => ?_⟩
        obtain ⟨extra', heq, hlen'⟩ := hextra other
        refine ⟨extra', heq, ?_⟩
        by_cases hother : other = shard
        · subst hother
          rw [if_neg (fun h => hroom h.2)] at hlen' ⊢
          exact hlen'
        · simp only [List.mem_cons, hother, false_or]
          exact hlen'

/-- One node is dropped from each of the shards, or it is not a node of all of them. -/
theorem dropFrom_cases {node : GoString} {shards : List Int} {r : Except Fault ShardMapState}
    (hv : sm.isValid = true) (hs : shards.Nodup)
    (hr : ∀ shard ∈ shards, 1 ≤ shard ∧ shard ≤ sm.numShards)
    (h : dropFrom c node shards sm = some r) :
    (∃ err, r = .error (.error err)) ∧ (∃ shard ∈ shards, node ∉ sm.nodesForShard shard) ∨
    ∃ sm', r = .ok sm' ∧ sm.Edited sm' ∧ ∀ shard,
      (shard ∈ shards → (sm'.nodesForShard shard).Perm
        ((sm.nodesForShard shard).erase node)) ∧
      (shard ∉ shards → sm'.nodesForShard shard = sm.nodesForShard shard) := by
  induction shards generalizing sm with
  | nil =>
      cases h
      refine Or.inr ⟨sm, rfl, ⟨rfl, rfl, hv⟩, fun shard => ⟨?_, fun _ => rfl⟩⟩
      intro hmem
      cases hmem
  | cons shard shards ih =>
      obtain ⟨hnew, hs⟩ := List.nodup_cons.mp hs
      obtain ⟨hrange, hr⟩ := List.forall_mem_cons.mp hr
      simp only [dropFrom] at h
      cases hdrop : sm.dropReplicasForShard shard 1 [node] c with
      | none =>
          simp only [hdrop] at h
          cases h
      | some r₁ =>
          have hlisted := listed_of_valid hv shard
          rcases dropReplicasForShard_cases hlisted (List.nodup_singleton node) hdrop with
            ⟨⟨err, rfl⟩, hwhy⟩ | ⟨left, rfl, hleft, hlen, hall, hsrc⟩
          · simp only [hdrop] at h
            cases h
            refine Or.inl ⟨⟨err, rfl⟩, shard, List.mem_cons_self, ?_⟩
            rcases hwhy with hnone | hmany | ⟨node', hnode', hnot⟩
            · rw [List.length_eq_zero_iff.mp (Nat.lt_one_iff.mp hnone)]
              exact List.not_mem_nil
            · exact absurd hmany (by simp)
            · rw [List.mem_singleton] at hnode'
              rwa [hnode'] at hnot
          · simp only [hdrop] at h
            have hedit := edited_setNodes hv hrange hall
            have hperm : left.Perm ((sm.nodesForShard shard).erase node) := by
              have hmem := hsrc node (List.mem_singleton_self node)
              refine (hall.nodup.subperm ?_).perm_of_length_le ?_
              · intro x hx
                obtain ⟨hx, hne⟩ := List.mem_filter.mp (hleft.subset hx)
                exact hlisted.nodup.mem_erase_iff.mpr ⟨by simpa using hne, hx⟩
              · rw [List.length_erase_of_mem hmem]
                omega
            have hkeep : ∀ other ∈ shards, (sm.setNodes shard left).nodesForShard other =
                sm.nodesForShard other := by
              intro other ho
              exact (nodesForShard_setNodes _ _ _ _).trans (if_neg (ne_of_mem_of_not_mem ho hnew))
            rcases ih hedit.valid hs hr h with ⟨herr, other, ho, hnot⟩ | ⟨sm', rfl, hedit', hall'⟩
            · rw [hkeep other ho] at hnot
              exact Or.inl ⟨herr, other, List.mem_cons_of_mem _ ho, hnot⟩
            · refine Or.inr ⟨sm', rfl, hedit.trans hedit', fun other => ⟨?_, ?_⟩⟩
              · intro hmem
                by_cases ho : other ∈ shards
                · rw [← hkeep other ho]
                  exact (hall' other).1 ho
                · have heq : other = shard := by
                    cases hmem with
                    | head => rfl
                    | tail _ hmem => exact absurd hmem ho
                  subst heq
                  rw [(hall' other).2 ho, nodesForShard_setNodes, if_pos rfl]
                  exact hperm
              · intro hnot
                rw [List.mem_cons, not_or] at hnot
                rw [(hall' other).2 hnot.2, nodesForShard_setNodes, if_neg hnot.1]

theorem nodup_shardsForNode (hv : sm.isValid = true) (node : GoString) :
    (sm.shardsForNode node).Nodup := by
  have hmem : ∀ {shard : Int} {e : Sigma fun _ : Int => List GoString},
      shard ∈ e.2.filterMap (fun other => if other = node then some e.1 else none) →
      shard = e.1 := by
    intro shard e h
    obtain ⟨other, _, heq⟩ := List.mem_filterMap.mp h
    split at heq <;> cases heq
    rfl
  rw [shardsForNode, List.nodup_flatMap]
  constructor
  · intro e he
    obtain ⟨_, _, hnodup, _⟩ := (isValid_iff.mp hv).2 e he
    refine hnodup.filterMap ?_
    intro a b shard ha hb
    split at ha <;> cases ha
    split at hb <;> cases hb
    subst_vars
    rfl
  · have hkeys := sm.shardsToNodes.keys_nodup
    rw [AList.keys, List.keys, List.Nodup, List.pairwise_map] at hkeys
    refine hkeys.imp ?_
    intro e e' hne shard hs hs'
    exact hne ((hmem hs).symm.trans (hmem hs'))

theorem mem_nodesForShard {node : GoString} :
    shard ∈ sm.shardsForNode node ↔ node ∈ sm.nodesForShard shard := by
  constructor
  · intro h
    obtain ⟨nodes, hl, hnode⟩ := lookup_of_mem_shardsForNode h
    rw [nodesForShard, hl]
    exact hnode
  · exact mem_shardsForNode

theorem range_of_mem_shardsForNode (hv : sm.isValid = true) {node : GoString}
    (h : shard ∈ sm.shardsForNode node) : 1 ≤ shard ∧ shard ≤ sm.numShards := by
  obtain ⟨nodes, hl, _⟩ := lookup_of_mem_shardsForNode h
  exact range_of_valid hv hl

/-- At most one node of each shard is new. -/
structure Gradual (old cur : ShardMapState) : Prop extends Edited old cur where
  one : ∀ shard a b, a ∈ cur.nodesForShard shard → b ∈ cur.nodesForShard shard →
    a ∉ old.nodesForShard shard → b ∉ old.nodesForShard shard → a = b

/-- A node of the shard stays one. -/
def Keeps (shard : Int) (old cur : ShardMapState) : Prop :=
  ∃ node ∈ old.nodesForShard shard, node ∈ cur.nodesForShard shard

theorem gradual_of_subset (h : sm.Edited sm')
    (hsub : ∀ shard, sm'.nodesForShard shard ⊆ sm.nodesForShard shard) : sm.Gradual sm' :=
  ⟨h, fun shard _ _ ha _ hnew _ => absurd (hsub shard ha) hnew⟩

theorem gradual_of_append (h : sm.Edited sm')
    (hadd : ∀ shard, ∃ extra, sm'.nodesForShard shard = sm.nodesForShard shard ++ extra ∧
      extra.length ≤ 1) : sm.Gradual sm' := by
  refine ⟨h, fun shard a b ha hb hna hnb => ?_⟩
  obtain ⟨extra, heq, hlen⟩ := hadd shard
  rw [heq] at ha hb
  have ha' := (List.mem_append.mp ha).resolve_left hna
  have hb' := (List.mem_append.mp hb).resolve_left hnb
  match extra, hlen with
  | [], _ => cases ha'
  | [x], _ => rw [List.mem_singleton.mp ha', List.mem_singleton.mp hb']

end ShardMapState

/-- The arguments are as the comments ask for. -/
def Workflow.Proper (sm : ShardMapState) : Workflow → Prop
  | .moveShard shard _ dstNode => (1 ≤ shard ∧ shard ≤ sm.numShards) ∧ dstNode ∈ sm.nodes
  | .dropShard shard => 1 ≤ shard ∧ shard ≤ sm.numShards
  | .removeNode _ | .drainNode _ | .moveRandomShard _ _ _ | .dropRandomShard _ => True

instance (sm : ShardMapState) (w : Workflow) : Decidable (w.Proper sm) :=
  match w with
  | .moveShard _ _ _ => inferInstanceAs (Decidable ((_ ∧ _) ∧ _))
  | .dropShard _ => inferInstanceAs (Decidable (_ ∧ _))
  | .removeNode _ | .drainNode _ | .moveRandomShard _ _ _ | .dropRandomShard _ => isTrue trivial

/-- The workflow is not told to take the shard from its last node. -/
def Workflow.Spares (shard : Int) (sm : ShardMapState) : Workflow → Prop
  | .removeNode node => ∃ other ∈ sm.nodesForShard shard, other ≠ node
  | .drainNode _ => 2 ≤ sm.nodes.entries.length
  | .dropShard dropped | .dropRandomShard dropped => dropped ≠ shard
  | .moveShard _ _ _ | .moveRandomShard _ _ _ => True

instance (shard : Int) (sm : ShardMapState) (w : Workflow) : Decidable (w.Spares shard sm) :=
  match w with
  | .removeNode node =>
      inferInstanceAs (Decidable (∃ other ∈ sm.nodesForShard shard, other ≠ node))
  | .drainNode _ => inferInstanceAs (Decidable (_ ≤ _))
  | .dropShard _ | .dropRandomShard _ => inferInstanceAs (Decidable (_ ≠ _))
  | .moveShard _ _ _ | .moveRandomShard _ _ _ => isTrue trivial

/-- What is left to do can be done, and spares the shard. -/
def Next.Ok (shard : Int) (sm : ShardMapState) : Next → Prop
  | .finish => True
  | .drop node shards => shards.Nodup ∧ (∀ other ∈ shards, 1 ≤ other ∧ other ≤ sm.numShards) ∧
      (shard ∈ shards → ∃ other ∈ sm.nodesForShard shard, other ≠ node)

/-- A workflow publishes a map with at most one new node for each shard, and a node of the
spared shard stays. -/
def Plan.Ok (shard : Int) (sm : ShardMapState) : Plan → Prop
  | .returned _ => True
  | .publish sm' next => sm.Gradual sm' ∧ sm.Keeps shard sm' ∧ next.Ok shard sm'
  | .panic => False

namespace ShardMapState

variable {sm sm' : ShardMapState} {shard : Int} {c : Choice} {plan : Plan}

theorem planOk_dropFrom {node : GoString} {shards : List Int} (hv : sm.isValid = true)
    (hne : sm.nodesForShard shard ≠ [])
    (hok : (Next.drop node shards).Ok shard sm)
    (h : (dropFrom c node shards sm).map (Plan.of .finish) = some plan) :
    plan.Ok shard sm := by
  obtain ⟨r, hr, rfl⟩ := Option.map_eq_some_iff.mp h
  obtain ⟨hnodup, hrange, hother⟩ := hok
  rcases dropFrom_cases hv hnodup hrange hr with ⟨⟨err, rfl⟩, _⟩ | ⟨sm', rfl, hedit, hall⟩
  · trivial
  · refine ⟨gradual_of_subset hedit ?_, ?_, trivial⟩
    · intro other x hx
      by_cases ho : other ∈ shards
      · exact List.mem_of_mem_erase (((hall other).1 ho).mem_iff.mp hx)
      · rwa [(hall other).2 ho] at hx
    · by_cases hs : shard ∈ shards
      · obtain ⟨other, ho, hne⟩ := hother hs
        refine ⟨other, ho, ((hall shard).1 hs).mem_iff.mpr ?_⟩
        exact (List.mem_erase_of_ne hne).mpr ho
      · obtain ⟨x, hx⟩ := List.exists_mem_of_ne_nil _ hne
        exact ⟨x, hx, by rwa [(hall shard).2 hs]⟩

theorem planOk_removeNode {node : GoString} (hv : sm.isValid = true)
    (hsp : ∃ other ∈ sm.nodesForShard shard, other ≠ node)
    (h : sm.removeNode node c = some plan) : plan.Ok shard sm := by
  refine planOk_dropFrom hv ?_ ⟨nodup_shardsForNode hv node,
    fun _ => range_of_mem_shardsForNode hv, fun _ => hsp⟩ h
  obtain ⟨other, ho, _⟩ := hsp
  exact List.ne_nil_of_mem ho

theorem planOk_dropShard {dropped : Int} (hv : sm.isValid = true)
    (hne : sm.nodesForShard shard ≠ []) (hs : 1 ≤ dropped ∧ dropped ≤ sm.numShards)
    (hsp : dropped ≠ shard) (h : sm.dropShard dropped c = some plan) : plan.Ok shard sm := by
  obtain ⟨r, hr, rfl⟩ := Option.map_eq_some_iff.mp h
  rcases dropReplicasForShard_cases (listed_of_valid hv dropped) List.nodup_nil hr with
    ⟨⟨err, rfl⟩, _⟩ | ⟨left, rfl, hleft, hlen, hall, _⟩
  · trivial
  · refine ⟨gradual_of_subset (edited_setNodes hv hs hall) ?_, ?_, trivial⟩
    · intro other x hx
      rw [nodesForShard_setNodes] at hx
      split at hx
      · subst_vars
        exact (List.mem_filter.mp (hleft.subset hx)).1
      · exact hx
    · obtain ⟨x, hx⟩ := List.exists_mem_of_ne_nil _ hne
      exact ⟨x, hx, by rwa [nodesForShard_setNodes, if_neg hsp.symm]⟩

theorem planOk_moveShard {moved : Int} {srcNode dstNode : GoString} (hv : sm.isValid = true)
    (hne : sm.nodesForShard shard ≠ []) (hs : 1 ≤ moved ∧ moved ≤ sm.numShards)
    (hdst : dstNode ∈ sm.nodes) (h : sm.moveShard moved srcNode dstNode c = some plan) :
    plan.Ok shard sm := by
  rw [moveShard] at h
  split at h
  · cases h
    trivial
  · rename_i hsame
    obtain ⟨r, hr, rfl⟩ := Option.map_eq_some_iff.mp h
    rcases addReplicasForShard_cases (listed_of_valid hv moved) (Nat.le_refl 1)
      (by simpa using hdst) hr with ⟨⟨err, rfl⟩, _⟩ | ⟨extra, rfl, hlen, hall⟩
    · trivial
    · have hextra : extra = [] := by simpa using hlen
      subst hextra
      have hnodes : ∀ other, ∃ extra, (sm.setNodes moved (sm.nodesForShard moved ++
          [dstNode])).nodesForShard other = sm.nodesForShard other ++ extra ∧
          extra.length ≤ 1 := by
        intro other
        rw [nodesForShard_setNodes]
        split
        · subst_vars
          exact ⟨[dstNode], rfl, Nat.le_refl 1⟩
        · exact ⟨[], (List.append_nil _).symm, Nat.zero_le 1⟩
      refine ⟨gradual_of_append (edited_setNodes hv hs hall) hnodes, ?_,
        List.nodup_singleton moved, List.forall_mem_singleton.mpr hs, ?_⟩
      · obtain ⟨x, hx⟩ := List.exists_mem_of_ne_nil _ hne
        obtain ⟨extra, heq, _⟩ := hnodes shard
        exact ⟨x, hx, heq ▸ List.mem_append_left _ hx⟩
      · intro hmem
        obtain rfl := List.mem_singleton.mp hmem
        rw [nodesForShard_setNodes, if_pos rfl]
        exact ⟨dstNode, by simp, Ne.symm hsame⟩

theorem planOk_drainNode {node : GoString} (hv : sm.isValid = true)
    (hne : sm.nodesForShard shard ≠ []) (hsp : 2 ≤ sm.nodes.entries.length)
    (h : sm.drainNode node c = some plan) : plan.Ok shard sm := by
  obtain ⟨r, hr, rfl⟩ := Option.map_eq_some_iff.mp h
  obtain ⟨sm', rfl, hedit, hall⟩ := addElsewhere_ok hv (nodup_shardsForNode hv node)
    (fun _ => range_of_mem_shardsForNode hv) hr
  refine ⟨gradual_of_append hedit ?_, ?_, nodup_shardsForNode hv node, ?_, ?_⟩
  · intro other
    obtain ⟨extra, heq, hlen⟩ := hall other
    refine ⟨extra, heq, ?_⟩
    rw [hlen]
    split
    · exact Nat.le_refl 1
    · exact Nat.zero_le 1
  · obtain ⟨x, hx⟩ := List.exists_mem_of_ne_nil _ hne
    obtain ⟨extra, heq, _⟩ := hall shard
    exact ⟨x, hx, heq ▸ List.mem_append_left _ hx⟩
  · rw [hedit.numShards]
    exact fun _ => range_of_mem_shardsForNode hv
  · intro hmem
    -- The shard is on two nodes by now: on a new one, or on all.
    obtain ⟨extra, heq, hlen⟩ := hall shard
    have hlisted := listed_of_valid hedit.valid shard
    have htwo : 2 ≤ (sm'.nodesForShard shard).length := by
      rw [heq, List.length_append, hlen]
      split
      · have hpos := List.length_pos_iff.mpr hne
        omega
      · rename_i hfull
        have hlen := Nat.le_of_not_lt fun hlt => hfull ⟨hmem, hlt⟩
        omega
    by_contra hnone
    have hsub : sm'.nodesForShard shard ⊆ [node] := by
      intro other ho
      rw [List.mem_singleton]
      by_contra hother
      exact hnone ⟨other, ho, hother⟩
    have hle := (hlisted.nodup.subperm hsub).length_le
    rw [List.length_singleton] at hle
    omega

theorem Draws.range (hn : 1 ≤ sm.numShards) (h : sm.Draws shard) :
    1 ≤ shard ∧ shard ≤ sm.numShards := by
  have hhi := h.2
  exact ⟨h.1, by omega⟩

theorem first_ok {w : Workflow} (hn : 1 ≤ sm.numShards) (hv : sm.isValid = true)
    (hne : sm.nodesForShard shard ≠ []) (hp : w.Proper sm) (hsp : w.Spares shard sm)
    (h : sm.first c w = some plan) : plan.Ok shard sm := by
  have hn0 : sm.numShards ≠ 0 := by omega
  cases w with
  | removeNode node => exact planOk_removeNode hv hsp h
  | drainNode node => exact planOk_drainNode hv hne hsp h
  | moveShard moved srcNode dstNode => exact planOk_moveShard hv hne hp.1 hp.2 h
  | moveRandomShard moved srcNode dstNode =>
      rw [first, moveRandomShard, if_neg hn0] at h
      split at h
      · rename_i hdraws
        exact planOk_moveShard hv hne (hdraws.1.range hn) hdraws.2.2.2.1 h
      · cases h
  | dropShard dropped => exact planOk_dropShard hv hne hp hsp h
  | dropRandomShard dropped =>
      rw [first, dropRandomShard, if_neg hn0] at h
      split at h
      · rename_i hdraws
        exact planOk_dropShard hv hne (hdraws.range hn) hsp h
      · cases h

theorem second_ok {next : Next} (hv : sm.isValid = true) (hne : sm.nodesForShard shard ≠ [])
    (hok : next.Ok shard sm) (h : sm.second c next = some plan) : plan.Ok shard sm := by
  cases next with
  | finish =>
      cases h
      trivial
  | drop node shards => exact planOk_dropFrom hv hne hok h

/-- What `range` and `rand.Perm` can yield when one node is added to the shard. -/
def CanAdd (sm : ShardMapState) (c : Choice) (shard : Int) : Prop :=
  (c.order shard).Perm sm.nodes.keys ∧ (c.perm shard).Perm
    (List.range ((c.order shard).filter (!(sm.nodesForShard shard).contains ·)).length)

/-- What `rand.Perm` can yield when one given node is dropped from the shard. -/
def CanDrop (sm : ShardMapState) (c : Choice) (shard : Int) : Prop :=
  (c.perm shard).Perm (List.range ((sm.nodesForShard shard).length - 1))

theorem canAdd_setNodes {nodes : List GoString} {other : Int} (h : other ≠ shard) :
    (sm.setNodes shard nodes).CanAdd c other ↔ sm.CanAdd c other := by
  rw [CanAdd, CanAdd, nodesForShard_setNodes, if_neg h]
  rfl

theorem canDrop_setNodes {nodes : List GoString} {other : Int} (h : other ≠ shard) :
    (sm.setNodes shard nodes).CanDrop c other ↔ sm.CanDrop c other := by
  rw [CanDrop, CanDrop, nodesForShard_setNodes, if_neg h]

/-- A choice that is possible leads to a map, one that is not to none. -/
theorem addReplicasForShard_total (hv : sm.isValid = true)
    (hroom : (sm.nodesForShard shard).length < sm.nodes.entries.length) :
    (sm.CanAdd c shard ∧ ∃ nodes, sm.addReplicasForShard shard 1 [] c =
        some (.ok (sm.setNodes shard nodes)) ∧ sm.Listed nodes) ∨
      (¬ sm.CanAdd c shard ∧ sm.addReplicasForShard shard 1 [] c = none) := by
  have hlisted := listed_of_valid hv shard
  cases hadd : sm.addReplicasForShard shard 1 [] c with
  | none =>
      refine Or.inr ⟨?_, rfl⟩
      intro hcan
      simp only [addReplicasForShard, addDstNodes, if_neg (Nat.not_lt.mpr hroom),
        if_neg (Nat.not_lt.mpr hlisted.length_le)] at hadd
      split at hadd
      · split at hadd <;> cases hadd
      · rename_i hnot
        exact hnot hcan
  | some r =>
      refine Or.inl ⟨?_, ?_⟩
      · simp only [addReplicasForShard, addDstNodes, if_neg (Nat.not_lt.mpr hroom),
          if_neg (Nat.not_lt.mpr hlisted.length_le)] at hadd
        split at hadd
        · assumption
        · cases hadd
      · rcases addReplicasForShard_cases hlisted (Nat.zero_le 1)
          (fun _ h => absurd h List.not_mem_nil) hadd with herr | ⟨extra, rfl, _, hall⟩
        · rcases herr.2 with hfull | hdup
          · omega
          · rw [List.append_nil] at hdup
            exact absurd hlisted.nodup hdup
        · exact ⟨_, rfl, hall⟩

theorem addElsewhere_isSome {shards : List Int} (hv : sm.isValid = true) (hs : shards.Nodup)
    (hr : ∀ shard ∈ shards, 1 ≤ shard ∧ shard ≤ sm.numShards) :
    (addElsewhere c shards sm).isSome = true ↔ ∀ shard ∈ shards,
      (sm.nodesForShard shard).length < sm.nodes.entries.length → sm.CanAdd c shard := by
  induction shards generalizing sm with
  | nil => simp [addElsewhere]
  | cons shard shards ih =>
      obtain ⟨hnew, hs⟩ := List.nodup_cons.mp hs
      obtain ⟨hrange, hr⟩ := List.forall_mem_cons.mp hr
      rw [List.forall_mem_cons, addElsewhere]
      split
      · rename_i hroom
        rcases addReplicasForShard_total (c := c) hv hroom with
          ⟨hcan, nodes, hadd, hall⟩ | ⟨hcan, hadd⟩
        · rw [hadd]
          simp only
          rw [ih (isValid_setNodes hv hrange hall) hs hr]
          simp only [hcan, implies_true, true_and]
          refine forall₂_congr fun other ho => ?_
          have hne : other ≠ shard := ne_of_mem_of_not_mem ho hnew
          rw [canAdd_setNodes hne, nodesForShard_setNodes, if_neg hne]
          rfl
        · rw [hadd]
          simp [hroom, hcan]
      · rename_i hroom
        rw [ih hv hs hr]
        simp [hroom]

theorem dropReplicasForShard_total {node : GoString} (hv : sm.isValid = true)
    (hnode : node ∈ sm.nodesForShard shard) :
    (sm.CanDrop c shard ∧ ∃ nodes, sm.dropReplicasForShard shard 1 [node] c =
        some (.ok (sm.setNodes shard nodes)) ∧ sm.Listed nodes) ∨
      (¬ sm.CanDrop c shard ∧ sm.dropReplicasForShard shard 1 [node] c = none) := by
  have hlisted := listed_of_valid hv shard
  have hpos := List.length_pos_of_mem hnode
  have hempty : ¬ (([node] : List GoString).toFinset \
      (sm.nodesForShard shard).toFinset).Nonempty := by
    simp [hnode]
  cases hdrop : sm.dropReplicasForShard shard 1 [node] c with
  | none =>
      refine Or.inr ⟨?_, rfl⟩
      intro hcan
      simp only [dropReplicasForShard, dropSrcNodes_eq hlisted.nodup,
        if_neg (Nat.not_lt.mpr hpos), List.length_singleton, lt_irrefl, if_false,
        if_neg hempty, if_pos (show (c.perm shard).Perm _ from hcan)] at hdrop
      split at hdrop <;> cases hdrop
  | some r =>
      refine Or.inl ⟨?_, ?_⟩
      · simp only [dropReplicasForShard, dropSrcNodes_eq hlisted.nodup,
          if_neg (Nat.not_lt.mpr hpos), List.length_singleton, lt_irrefl, if_false,
          if_neg hempty] at hdrop
        split at hdrop
        · assumption
        · cases hdrop
      · rcases dropReplicasForShard_cases hlisted (List.nodup_singleton node) hdrop with
          ⟨_, hnone | hmany | ⟨node', hnode', hnot⟩⟩ | ⟨left, rfl, _, _, hall, _⟩
        · omega
        · exact absurd hmany (by simp)
        · rw [List.mem_singleton.mp hnode'] at hnot
          exact absurd hnode hnot
        · exact ⟨left, rfl, hall⟩

theorem dropFrom_isSome {node : GoString} {shards : List Int} (hv : sm.isValid = true)
    (hs : shards.Nodup) (hr : ∀ shard ∈ shards, 1 ≤ shard ∧ shard ≤ sm.numShards)
    (hnode : ∀ shard ∈ shards, node ∈ sm.nodesForShard shard) :
    (dropFrom c node shards sm).isSome = true ↔ ∀ shard ∈ shards, sm.CanDrop c shard := by
  induction shards generalizing sm with
  | nil => simp [dropFrom]
  | cons shard shards ih =>
      obtain ⟨hnew, hs⟩ := List.nodup_cons.mp hs
      obtain ⟨hrange, hr⟩ := List.forall_mem_cons.mp hr
      obtain ⟨hfirst, hnode⟩ := List.forall_mem_cons.mp hnode
      rw [List.forall_mem_cons, dropFrom]
      rcases dropReplicasForShard_total (c := c) hv hfirst with
        ⟨hcan, nodes, hdrop, hall⟩ | ⟨hcan, hdrop⟩
      · have hkeep : ∀ other ∈ shards, other ≠ shard := fun other ho =>
          ne_of_mem_of_not_mem ho hnew
        rw [hdrop]
        simp only
        rw [ih (isValid_setNodes hv hrange hall) hs hr ?_]
        · simp only [hcan, true_and]
          exact forall₂_congr fun other ho => canDrop_setNodes (hkeep other ho)
        · intro other ho
          rw [nodesForShard_setNodes, if_neg (hkeep other ho)]
          exact hnode other ho
      · rw [hdrop]
        simp [hcan]

/-- A shard whose nodes lose `node`, after one more node has been added if not all of them
had the shard. -/
theorem drained_nodes {sm₁ sm₂ : ShardMapState} {node : GoString} (hv : sm.isValid = true)
    (hv₁ : sm₁.isValid = true)
    (hadd : ∃ extra, sm₁.nodesForShard shard = sm.nodesForShard shard ++ extra ∧
      extra.length = if shard ∈ sm.shardsForNode node ∧
        (sm.nodesForShard shard).length < sm.nodes.entries.length then 1 else 0)
    (hdrop : (shard ∈ sm.shardsForNode node →
        (sm₂.nodesForShard shard).Perm ((sm₁.nodesForShard shard).erase node)) ∧
      (shard ∉ sm.shardsForNode node →
        sm₂.nodesForShard shard = sm₁.nodesForShard shard)) :
    node ∉ sm₂.nodesForShard shard ∧
    (∀ other ∈ sm.nodesForShard shard, other ≠ node → other ∈ sm₂.nodesForShard shard) ∧
    (sm₂.nodesForShard shard).length = (sm.nodesForShard shard).length -
      if node ∈ sm.nodesForShard shard ∧
        (sm.nodesForShard shard).length = sm.nodes.entries.length then 1 else 0 := by
  obtain ⟨extra, heq, hlen⟩ := hadd
  by_cases hs : shard ∈ sm.shardsForNode node
  · have hnode := mem_nodesForShard.mp hs
    have hnode₁ : node ∈ sm₁.nodesForShard shard := heq ▸ List.mem_append_left _ hnode
    have hperm := hdrop.1 hs
    refine ⟨?_, fun other hother hne => ?_, ?_⟩
    · rw [hperm.mem_iff]
      exact (listed_of_valid hv₁ shard).nodup.not_mem_erase
    · rw [hperm.mem_iff, List.mem_erase_of_ne hne, heq]
      exact List.mem_append_left _ hother
    · have hpos := List.length_pos_of_mem hnode
      have hle := (listed_of_valid hv shard).length_le
      rw [hperm.length_eq, List.length_erase_of_mem hnode₁, heq, List.length_append, hlen]
      simp only [hs, hnode, true_and]
      split <;> split <;> omega
  · have hnode : node ∉ sm.nodesForShard shard := fun h => hs (mem_nodesForShard.mpr h)
    rw [if_neg (fun h => hs h.1)] at hlen
    rw [hdrop.2 hs, heq, List.length_eq_zero_iff.mp hlen, List.append_nil,
      if_neg (fun h => hnode h.1)]
    exact ⟨hnode, fun _ h _ => h, rfl⟩

/-- `DrainNode` does not fail: it goes through for every order and permutation that can be
drawn. In the end the node has no shard, the other nodes have kept theirs, and a shard has as
many nodes as before unless it was on all of them. -/
theorem drainNode_moves_away (c : Choice) (node : GoString) (hv : sm.isValid = true) :
    ((sm.drainNode node c).isSome = true ↔ ∀ shard ∈ sm.shardsForNode node,
      (sm.nodesForShard shard).length < sm.nodes.entries.length → sm.CanAdd c shard) ∧
    ∀ plan, sm.drainNode node c = some plan →
    ∃ sm₁, plan = .publish sm₁ (.drop node (sm.shardsForNode node)) ∧ ∀ c',
      ((sm₁.second c' (.drop node (sm.shardsForNode node))).isSome = true ↔
        ∀ shard ∈ sm.shardsForNode node, sm₁.CanDrop c' shard) ∧ ∀ plan',
      sm₁.second c' (.drop node (sm.shardsForNode node)) = some plan' →
      ∃ sm₂, plan' = .publish sm₂ .finish ∧ sm₂.isValid = true ∧
        sm₂.shardsForNode node = [] ∧ ∀ shard,
          (∀ other ∈ sm.nodesForShard shard, other ≠ node →
            other ∈ sm₂.nodesForShard shard) ∧
          (sm₂.nodesForShard shard).length = (sm.nodesForShard shard).length -
            if node ∈ sm.nodesForShard shard ∧
              (sm.nodesForShard shard).length = sm.nodes.entries.length then 1 else 0 := by
  have hnodup := nodup_shardsForNode hv node
  refine ⟨?_, fun plan h => ?_⟩
  · rw [drainNode, Option.isSome_map]
    exact addElsewhere_isSome hv hnodup (fun _ => range_of_mem_shardsForNode hv)
  obtain ⟨r, hr, rfl⟩ := Option.map_eq_some_iff.mp h
  obtain ⟨sm₁, rfl, hedit₁, hadd⟩ := addElsewhere_ok hv hnodup
    (fun _ => range_of_mem_shardsForNode hv) hr
  have hrange : ∀ shard ∈ sm.shardsForNode node, 1 ≤ shard ∧ shard ≤ sm₁.numShards := by
    rw [hedit₁.numShards]
    exact fun _ => range_of_mem_shardsForNode hv
  have hlisted : ∀ shard ∈ sm.shardsForNode node, node ∈ sm₁.nodesForShard shard := by
    intro shard hs
    obtain ⟨extra, heq, _⟩ := hadd shard
    rw [heq]
    exact List.mem_append_left _ (mem_nodesForShard.mp hs)
  refine ⟨sm₁, rfl, fun c' => ⟨?_, fun plan' h' => ?_⟩⟩
  · rw [second, Option.isSome_map]
    exact dropFrom_isSome hedit₁.valid hnodup hrange hlisted
  obtain ⟨r', hr', rfl⟩ := Option.map_eq_some_iff.mp h'
  rcases dropFrom_cases hedit₁.valid hnodup hrange hr' with
    ⟨_, shard, hs, hnot⟩ | ⟨sm₂, rfl, hedit₂, hdrop⟩
  · exact absurd (hlisted shard hs) hnot
  · have hshard := fun shard => drained_nodes hv hedit₁.valid (hadd shard) (hdrop shard)
    refine ⟨sm₂, rfl, hedit₂.valid, ?_, fun shard => (hshard shard).2⟩
    apply List.eq_nil_iff_forall_not_mem.mpr
    exact fun shard hs => (hshard shard).1 (mem_nodesForShard.mp hs)

/-- Node 3 leaves a shard that is also on node 1: the shard moves to node 2. -/
theorem drainNode_moves_away_free_node :
    ∃ sm₁ sm₂,
      (smallMap [] [[3], [1]]).drainNode [3] ⟨fun _ => [[1], [2], [3]], fun _ => [0]⟩ =
        some (.publish sm₁ (.drop [3] [2])) ∧
      sm₁.nodesForShard 2 = [[3], [1], [2]] ∧
      sm₁.second ⟨fun _ => [], fun _ => [1, 0]⟩ (.drop [3] [2]) =
        some (.publish sm₂ .finish) ∧
      sm₂.shardsForNode [3] = [] ∧ (sm₂.nodesForShard 2).length = 2 := by
  have hvalid : (smallMap [] [[3], [1]]).isValid = true := by decide
  obtain ⟨_, hall⟩ := drainNode_moves_away ⟨fun _ => [[1], [2], [3]], fun _ => [0]⟩ [3] hvalid
  have hdrain : (smallMap [] [[3], [1]]).drainNode [3]
      ⟨fun _ => [[1], [2], [3]], fun _ => [0]⟩ = some (.publish
        ((smallMap [] [[3], [1]]).setNodes 2 [[3], [1], [2]]) (.drop [3] [2])) := rfl
  obtain ⟨sm₁, heq, hsecond⟩ := hall _ hdrain
  cases heq
  have hdrop : ((smallMap [] [[3], [1]]).setNodes 2 [[3], [1], [2]]).second
      ⟨fun _ => [], fun _ => [1, 0]⟩ (.drop [3] [2]) = some (.publish
        (((smallMap [] [[3], [1]]).setNodes 2 [[3], [1], [2]]).setNodes 2 [[2], [1]])
        .finish) := rfl
  obtain ⟨sm₂, heq, _, hnone, hshards⟩ := (hsecond _).2 _ hdrop
  cases heq
  exact ⟨_, _, hdrain, rfl, hdrop, hnone, (hshards 2).2⟩

end ShardMapState

end KvLab
