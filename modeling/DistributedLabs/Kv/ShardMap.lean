import DistributedLabs.Library.GoMap
import Mathlib.Algebra.Group.Nat.Defs
import Mathlib.Algebra.Ring.Int.Defs

/-!
The shard map: which nodes host which shard, and the shard of a key. A Go string is a
sequence of bytes. A `ShardMapState` is never changed in place; readers see one state or
another as a whole.
-/

namespace KvLab

abbrev GoString := List UInt8

/-- Conversion of an `int` to `int32`. -/
def int32 (x : Int) : Int := x.bmod (2 ^ 32)

/-- The FNV-1 hash of `hash/fnv.New32`. -/
def sum32 (key : GoString) : UInt32 :=
  key.foldl (fun hash b => (hash * 16777619) ^^^ b.toUInt32) 2166136261

/-- The remainder by zero panics. -/
def getShardForKey (key : GoString) (numShards : Int) : Option Int :=
  if numShards = 0 then none
  else some (((sum32 key).toNat : Int).tmod numShards + 1)

structure NodeInfo where
  address : GoString
  port : Int

structure ShardMapState where
  nodes : GoMap GoString NodeInfo
  shardsToNodes : GoMap Int (List GoString)
  numShards : Int

namespace ShardMapState

variable (sm : ShardMapState)

/-- The nodes of a shard exist and are listed once. -/
def validNodes : List GoString → List GoString → Bool
  | _, [] => true
  | nodeSet, node :: rest =>
      if node ∉ sm.nodes then false
      else if node ∈ nodeSet then false
      else validNodes (node :: nodeSet) rest

def isValid : Bool :=
  if (sm.shardsToNodes.entries.length : Int) > sm.numShards then false
  else sm.shardsToNodes.entries.all fun e =>
    if e.1 < 1 ∨ e.1 > sm.numShards then false else sm.validNodes [] e.2

def shardsForNode (nodeName : GoString) : List Int :=
  sm.shardsToNodes.entries.flatMap fun e =>
    e.2.filterMap fun node => if node = nodeName then some e.1 else none

def nodesForShard (shard : Int) : List GoString :=
  match sm.shardsToNodes.lookup shard with
  | none => []
  | some nodeNames => nodeNames

variable {sm}

theorem validNodes_iff {nodeSet nodes : List GoString} :
    sm.validNodes nodeSet nodes = true ↔
      nodes.Nodup ∧ ∀ node ∈ nodes, node ∈ sm.nodes ∧ node ∉ nodeSet := by
  induction nodes generalizing nodeSet with
  | nil => simp [validNodes]
  | cons node rest ih =>
      rw [validNodes]
      by_cases hnode : node ∈ sm.nodes
      · by_cases hseen : node ∈ nodeSet
        · simp [hnode, hseen]
        · rw [if_neg (not_not.mpr hnode), if_neg hseen, ih]
          simp only [List.nodup_cons, List.mem_cons, not_or, forall_eq_or_imp]
          constructor
          · rintro ⟨hnodup, hrest⟩
            exact ⟨⟨fun hmem => (hrest node hmem).2.1 rfl, hnodup⟩, ⟨hnode, hseen⟩,
              fun x hx => ⟨(hrest x hx).1, (hrest x hx).2.2⟩⟩
          · rintro ⟨⟨hnew, hnodup⟩, _, hrest⟩
            refine ⟨hnodup, fun x hx => ⟨(hrest x hx).1, ?_, (hrest x hx).2⟩⟩
            rintro rfl
            exact hnew hx
      · simp [hnode]

/-- What `IsValid` asks for: not too many shards, each with an index from one to
`NumShards` and with nodes that exist and are listed once. -/
theorem isValid_iff : sm.isValid = true ↔
    (sm.shardsToNodes.entries.length : Int) ≤ sm.numShards ∧
      ∀ e ∈ sm.shardsToNodes.entries, 1 ≤ e.1 ∧ e.1 ≤ sm.numShards ∧ e.2.Nodup ∧
        ∀ node ∈ e.2, node ∈ sm.nodes := by
  rw [isValid]
  split
  · rename_i hmany
    simp [Int.not_le.mpr hmany]
  · rename_i hfew
    rw [List.all_eq_true]
    refine ⟨fun h => ⟨Int.not_lt.mp hfew, fun e he => ?_⟩, fun h e he => ?_⟩
    · have hentry := h e he
      split at hentry
      · cases hentry
      · rename_i hrange
        obtain ⟨hnodup, hnodes⟩ := validNodes_iff.mp hentry
        exact ⟨by omega, by omega, hnodup, fun node hnode => (hnodes node hnode).1⟩
    · obtain ⟨hlo, hhi, hnodup, hnodes⟩ := h.2 e he
      rw [if_neg (by omega), validNodes_iff]
      exact ⟨hnodup, fun node hnode => ⟨hnodes node hnode, List.not_mem_nil⟩⟩

/-- A node has as many shards as there are places where it is listed. -/
theorem length_shardsForNode (nodeName : GoString) :
    (sm.shardsForNode nodeName).length =
      (sm.shardsToNodes.entries.flatMap fun e => e.2).count nodeName := by
  rw [shardsForNode]
  induction sm.shardsToNodes.entries with
  | nil => rfl
  | cons e rest ih =>
      rw [List.flatMap_cons, List.length_append, ih, List.flatMap_cons, List.count_append]
      congr 1
      induction e.2 with
      | nil => rfl
      | cons node nodes ihn =>
          by_cases hnode : node = nodeName
          · simp [hnode, ihn]
          · simp [hnode, ihn]

/-- A node of a shard has the shard among its own. -/
theorem mem_shardsForNode {node : GoString} {shard : Int}
    (h : node ∈ sm.nodesForShard shard) : shard ∈ sm.shardsForNode node := by
  rw [nodesForShard] at h
  split at h
  · cases h
  · rename_i nodes hl
    refine List.mem_flatMap.mpr ⟨⟨shard, nodes⟩, AList.mem_lookup_iff.mp hl, ?_⟩
    exact List.mem_filterMap.mpr ⟨node, h, if_pos rfl⟩

/-- The shards of a node are those that list it. -/
theorem lookup_of_mem_shardsForNode {node : GoString} {shard : Int}
    (h : shard ∈ sm.shardsForNode node) :
    ∃ nodes, sm.shardsToNodes.lookup shard = some nodes ∧ node ∈ nodes := by
  obtain ⟨⟨shard', nodes⟩, hmem, hin⟩ := List.mem_flatMap.mp h
  obtain ⟨node', hnode, heq⟩ := List.mem_filterMap.mp hin
  obtain ⟨rfl, hshard⟩ := Option.ite_none_right_eq_some.mp heq
  obtain rfl := Option.some.inj hshard
  exact ⟨nodes, AList.mem_lookup_iff.mpr hmem, hnode⟩

end ShardMapState

/-- Three nodes and two shards, for examples. -/
def smallMap (nodes₁ nodes₂ : List GoString) : ShardMapState :=
  ⟨((AList.singleton [1] ⟨[], 9001⟩).insert [2] ⟨[], 9002⟩).insert [3] ⟨[], 9003⟩,
    (AList.singleton 1 nodes₁).insert 2 nodes₂, 2⟩

theorem getShardForKey_eq {numShards : Int} (h : 1 ≤ numShards) (key : GoString) :
    getShardForKey key numShards = some (((sum32 key).toNat : Int).tmod numShards + 1) :=
  if_neg (by omega)

theorem int32_int32 (x : Int) : int32 (int32 x) = int32 x := Int.bmod_bmod

/-- The shard of a key is its own index if that index is positive. -/
theorem int32_eq_self {key : GoString} {numShards shardID : Int} (hn : 1 ≤ numShards)
    (hk : getShardForKey key numShards = some shardID) (hs : 1 ≤ int32 shardID) :
    int32 shardID = shardID := by
  rw [getShardForKey_eq hn, Option.some.injEq] at hk
  have hlt := (sum32 key).toNat_lt
  have hpos : 0 ≤ ((sum32 key).toNat : Int) := Int.natCast_nonneg _
  have hlo := Int.tmod_nonneg numShards hpos
  have habs := Int.natAbs_tmod ((sum32 key).toNat : Int) numShards
  have hhi := Nat.mod_le ((sum32 key).toNat : Int).natAbs numShards.natAbs
  simp only [int32, Int.bmod_def] at hs ⊢
  omega

theorem int32_of_lt {x : Int} (h : 1 ≤ x) (hx : x < 2 ^ 31) : int32 x = x := by
  simp only [int32, Int.bmod_def]
  omega

/-- The shards of a valid map are numbered from one. -/
theorem range_of_valid {sm : ShardMapState} (hv : sm.isValid = true) {shard : Int}
    {nodes : List GoString} (h : sm.shardsToNodes.lookup shard = some nodes) :
    1 ≤ shard ∧ shard ≤ sm.numShards := by
  obtain ⟨hlo, hhi, _⟩ :=
    (ShardMapState.isValid_iff.mp hv).2 ⟨shard, nodes⟩ (AList.mem_lookup_iff.mp h)
  exact ⟨hlo, hhi⟩

theorem pos_of_valid {sm : ShardMapState} (hv : sm.isValid = true) {shard : Int}
    (h : sm.nodesForShard shard ≠ []) : 1 ≤ shard := by
  rw [ShardMapState.nodesForShard] at h
  split at h
  · exact absurd rfl h
  · exact (range_of_valid hv ‹_›).1

end KvLab
