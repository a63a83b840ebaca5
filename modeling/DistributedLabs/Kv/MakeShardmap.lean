import DistributedLabs.Kv.ShardMap
import DistributedLabs.Library.PyDict
import DistributedLabs.Library.RoundRobin

/-!
The script make-shardmap.py, which writes the shard maps that the servers read. A dictionary
of the script is written out as a JSON object and read back as a Go map with the same keys
and values, so the map that the script returns is a `ShardMapState`; json.Unmarshal, which
refuses numbers that do not fit their fields, is left out.

The script's numbers are unbounded. What the module `random` answers is a parameter, of
which the script relies on what the documentation of `random` says.
-/

namespace KvLab

/-- The exceptions that the script can end with. -/
inductive PyError
  | typeError
  | zeroDivisionError
  | valueError
  deriving DecidableEq, Repr

/-- `--base-port` has no type: the default is a number, a port that is given stays text. -/
inductive BasePort
  | number (port : Int)
  | text (port : GoString)
  deriving DecidableEq, Repr

/-- `args.base_port + i`. -/
def BasePort.add : BasePort → Nat → Except PyError Int
  | .number port, i => .ok (port + i)
  | .text _, _ => .error .typeError

/-- The options of the script. -/
structure ShardmapArgs where
  nodes : Int
  shards : Int
  replicas : Int
  maxReplicas : Option Int
  stripe : Bool
  address : GoString
  basePort : BasePort
  deriving DecidableEq, Repr

/-- The answers of the module `random` to the calls for shard number `i`. `randint` gives a
number between its bounds, `sample` as many different places of the list as are asked for. -/
structure Random where
  randint : Nat → Int → Int → Int
  sample : Nat → List GoString → Nat → List GoString
  randint_range : ∀ i lo hi, lo ≤ hi → lo ≤ randint i lo hi ∧ randint i lo hi ≤ hi
  sample_length : ∀ i names k, k ≤ names.length → (sample i names k).length = k
  sample_subperm : ∀ i names k, k ≤ names.length → (sample i names k).Subperm names

/-- The bytes of a text without characters beyond ASCII. -/
def ascii (s : List Char) : GoString := s.map Char.toUInt8

/-- `f"n{i+1}"`. -/
def nodeName (i : Nat) : GoString := ascii ('n' :: Nat.toDigits 10 (i + 1))

namespace ShardmapArgs

variable (args : ShardmapArgs) (random : Random)

/-- The loop over `range(args.nodes)`. -/
def makeNodes : Except PyError (PyDict GoString NodeInfo) :=
  (List.range args.nodes.toNat).foldlM
    (fun nodes i => do
      let port ← args.basePort.add i
      return nodes.set (nodeName i) ⟨args.address, port⟩) ∅

/-- The number of replicas of a shard; `randint` raises if its bounds are reversed. -/
def numReplicas (i : Nat) : Except PyError Int :=
  match args.maxReplicas with
  | none => .ok args.replicas
  | some maxReplicas =>
      if maxReplicas < args.replicas then .error .valueError
      else .ok (random.randint i args.replicas maxReplicas)

/-- The loop over `range(num_replicas)`: `k` more nodes for a shard, with the counter that
all shards share. -/
def stripeShard (nodeNames : List GoString) :
    Nat → List GoString → Nat → Except PyError (List GoString × Nat)
  | 0, nodesForShard, counter => .ok (nodesForShard, counter)
  | k + 1, nodesForShard, counter =>
      if h : 0 < nodeNames.length then
        stripeShard nodeNames k
          (nodesForShard ++
            [nodeNames.get ⟨counter % nodeNames.length, Nat.mod_lt counter h⟩])
          (counter + 1)
      else .error .zeroDivisionError

/-- `random.sample(node_names, k=num_replicas)`. -/
def sampleShard (nodeNames : List GoString) (i : Nat) (numReplicas : Int) :
    Except PyError (List GoString) :=
  if 0 ≤ numReplicas ∧ numReplicas ≤ nodeNames.length then
    .ok (random.sample i nodeNames numReplicas.toNat)
  else .error .valueError

/-- The variables that a turn of the loop over `range(args.shards)` changes. -/
structure Placing where
  shards : PyDict Int (List GoString)
  counter : Nat

/-- One turn of that loop. -/
def placeShard (nodeNames : List GoString) (s : Placing) (i : Nat) :
    Except PyError Placing := do
  let numReplicas ← args.numReplicas random i
  let shards := s.shards.set (i + 1) [ascii ['n', '1']]
  if args.stripe then do
    let (nodesForShard, counter) ← stripeShard nodeNames numReplicas.toNat [] s.counter
    return ⟨shards.set (i + 1) nodesForShard, counter⟩
  else do
    let nodesForShard ← sampleShard random nodeNames i numReplicas
    return ⟨shards.set (i + 1) nodesForShard, s.counter⟩

def makeShardmap : Except PyError ShardMapState := do
  let nodes ← args.makeNodes
  let s ← (List.range args.shards.toNat).foldlM (args.placeShard random nodes.keys) ⟨∅, 0⟩
  return ⟨nodes, s.shards, args.shards⟩

end ShardmapArgs

theorem ofNat_toUInt8 {c : Char} (h : c.isDigit = true) : Char.ofNat c.toUInt8.toNat = c := by
  have hle : c.toNat ≤ '9'.toNat := (Char.isDigit_iff_toNat.mp h).2
  have hnat : c.toUInt8.toNat = c.toNat := Nat.mod_eq_of_lt (Nat.lt_of_le_of_lt hle (by decide))
  rw [hnat, Char.ofNat_toNat]

/-- The digits can be read back. -/
theorem nodeName_injective : Function.Injective nodeName := by
  intro i j h
  have hread : ∀ k, Nat.ofDigitChars 10
      (((nodeName k).drop 1).map fun b => Char.ofNat b.toNat) 0 = k + 1 := by
    intro k
    have hmap : (Nat.toDigits 10 (k + 1)).map ((fun b => Char.ofNat b.toNat) ∘ Char.toUInt8) =
        Nat.toDigits 10 (k + 1) := by
      rw [← List.map_id (Nat.toDigits 10 (k + 1)), List.map_map]
      apply List.map_congr_left
      intro c hc
      exact ofNat_toUInt8 (Nat.isDigit_of_mem_toDigits (by decide) (by decide) hc)
    rw [nodeName, ascii, List.map_cons, List.drop_one, List.tail_cons, List.map_map, hmap,
      Nat.ofDigitChars_ten_toDigits]
  have hi := hread i
  rw [h, hread j] at hi
  omega

theorem nodup_nodeNames (n : Nat) : ((List.range n).map nodeName).Nodup :=
  List.nodup_range.map nodeName_injective

namespace ShardmapArgs

variable {args : ShardmapArgs} {random : Random}

/-- There is a node, and the bounds on the replicas of a shard are in order: between one and
the number of nodes. -/
structure Placeable (args : ShardmapArgs) : Prop where
  nodes : 1 ≤ args.nodes
  shards : 0 ≤ args.shards
  least : 1 ≤ args.replicas
  order : args.replicas ≤ args.maxReplicas.getD args.replicas
  most : args.maxReplicas.getD args.replicas ≤ args.nodes

theorem Placeable.length_nodeNames (h : args.Placeable) :
    (((List.range args.nodes.toNat).map nodeName).length : Int) = args.nodes := by
  have hnodes := h.nodes
  rw [List.length_map, List.length_range]
  omega

theorem makeNodes_number {port : Int} (h : args.basePort = .number port) :
    ∃ nodes, args.makeNodes = .ok nodes ∧
      nodes.keys = (List.range args.nodes.toNat).map nodeName := by
  refine List.foldlM_range_ok
    (fun i (nodes : PyDict GoString NodeInfo) => nodes.keys = (List.range i).map nodeName) rfl ?_
  intro i _ nodes hkeys
  have hnew : nodeName i ∉ nodes := by
    rw [AList.mem_keys, hkeys]
    intro hmem
    obtain ⟨j, hj, hji⟩ := List.mem_map.mp hmem
    rw [nodeName_injective hji, List.mem_range] at hj
    omega
  refine ⟨_, by rw [h]; rfl, ?_⟩
  rw [AList.keys, PyDict.entries_set_of_notMem hnew, List.range_succ, List.map_append, ← hkeys]
  simp [List.keys, AList.keys]

/-- A port that is text ends the script at the first node. -/
theorem makeNodes_text {port : GoString} (h : args.basePort = .text port)
    (hnodes : 1 ≤ args.nodes) : args.makeNodes = .error .typeError := by
  obtain ⟨n, hn⟩ : ∃ n, args.nodes.toNat = n + 1 := ⟨args.nodes.toNat - 1, by omega⟩
  rw [makeNodes, hn, List.range_succ_eq_map, List.foldlM_cons, h]
  rfl

theorem stripeShard_eq {nodeNames : List GoString} (h : 0 < nodeNames.length) (k : Nat)
    (nodesForShard : List GoString) (counter : Nat) :
    stripeShard nodeNames k nodesForShard counter =
      .ok (nodesForShard ++ RoundRobin.deal nodeNames counter k, counter + k) := by
  induction k generalizing nodesForShard counter with
  | zero => simp [stripeShard]
  | succ k ih =>
      rw [stripeShard, dif_pos h, ih, List.append_assoc, ← RoundRobin.deal_one h,
        RoundRobin.deal_append, Nat.add_comm 1 k, Nat.add_assoc, Nat.add_comm 1 k]

variable (args random) in
/-- The number of replicas of a shard, if one was found. -/
def count (i : Nat) : Nat :=
  match args.numReplicas random i with
  | .ok numReplicas => numReplicas.toNat
  | .error _ => 0

variable (args random) in
/-- The replicas of the shards before shard `i`. -/
def offset (i : Nat) : Nat := ((List.range i).map (args.count random)).sum

variable (args random) in
/-- Where the script is to put a shard. -/
def place (nodeNames : List GoString) (i : Nat) : List GoString :=
  if args.stripe then
    RoundRobin.deal nodeNames (args.offset random i) (args.count random i)
  else random.sample i nodeNames (args.count random i)

theorem place_stripe (hstripe : args.stripe = true) (nodeNames : List GoString) (i : Nat) :
    args.place random nodeNames i =
      RoundRobin.deal nodeNames (args.offset random i) (args.count random i) :=
  if_pos hstripe

theorem offset_succ (i : Nat) :
    args.offset random (i + 1) = args.offset random i + args.count random i := by
  simp [offset, List.range_succ]

/-- Every shard gets between one replica and one on every node. -/
theorem numReplicas_range (h : args.Placeable) (random : Random) (i : Nat) :
    ∃ k, args.numReplicas random i = .ok k ∧ 1 ≤ k ∧ k ≤ args.nodes := by
  have horder := h.order
  have hmost := h.most
  rw [numReplicas]
  cases hmax : args.maxReplicas with
  | none =>
      rw [hmax, Option.getD_none] at hmost
      exact ⟨args.replicas, rfl, h.least, hmost⟩
  | some most =>
      rw [hmax, Option.getD_some] at horder hmost
      obtain ⟨hlo, hhi⟩ := random.randint_range i args.replicas most horder
      exact ⟨_, if_neg (Int.not_lt.mpr horder), le_trans h.least hlo, le_trans hhi hmost⟩

theorem numReplicas_eq (h : args.Placeable) (random : Random) (i : Nat) :
    args.numReplicas random i = .ok (args.count random i : Int) ∧
      1 ≤ args.count random i ∧ (args.count random i : Int) ≤ args.nodes := by
  obtain ⟨k, hk, hlo, hhi⟩ := numReplicas_range h random i
  have hcount : (args.count random i : Int) = k := by
    rw [count, hk]
    exact Int.toNat_of_nonneg (by omega)
  exact ⟨by rw [hcount, hk], by omega, by omega⟩

/-- A place is a choice of as many nodes as the shard has replicas. -/
theorem place_spec (h : args.Placeable) (random : Random) {nodeNames : List GoString}
    (hnodup : nodeNames.Nodup) (hlength : (nodeNames.length : Int) = args.nodes) (i : Nat) :
    (args.place random nodeNames i).length = args.count random i ∧
      (args.place random nodeNames i).Nodup ∧
      ∀ node ∈ args.place random nodeNames i, node ∈ nodeNames := by
  obtain ⟨_, _, hmost⟩ := numReplicas_eq h random i
  have hnodes := h.nodes
  have hle : args.count random i ≤ nodeNames.length := by omega
  rw [place]
  split
  · exact ⟨RoundRobin.length_deal (by omega) _ _, RoundRobin.nodup_deal hnodup hle,
      fun node => RoundRobin.mem_of_mem_deal⟩
  · have hsub := random.sample_subperm i nodeNames _ hle
    refine ⟨random.sample_length i nodeNames _ hle, ?_, fun node hnode => hsub.subset hnode⟩
    obtain ⟨l, hperm, hsublist⟩ := hsub
    exact hperm.nodup_iff.mp (hnodup.sublist hsublist)

variable (args random) in
/-- The entries that the loop makes in `i` turns. -/
def placedEntries (nodeNames : List GoString) (i : Nat) :
    List (Sigma fun _ : Int => List GoString) :=
  (List.range i).map fun j : Nat =>
    PyDict.entry ((j : Int) + 1) (args.place random nodeNames j)

theorem placedEntries_succ (nodeNames : List GoString) (i : Nat) :
    args.placedEntries random nodeNames (i + 1) =
      args.placedEntries random nodeNames i ++
        [PyDict.entry ((i : Int) + 1) (args.place random nodeNames i)] := by
  rw [placedEntries, List.range_succ, List.map_append]
  rfl

theorem notMem_placedEntries (nodeNames : List GoString) (i : Nat) :
    (i : Int) + 1 ∉ (args.placedEntries random nodeNames i).keys := by
  rw [placedEntries, List.keys, List.map_map]
  intro hmem
  obtain ⟨j, hj, hji⟩ := List.mem_map.mp hmem
  rw [List.mem_range] at hj
  simp only [Function.comp_apply] at hji
  omega

/-- What the loop has done after `i` turns. -/
structure Placed (args : ShardmapArgs) (random : Random) (nodeNames : List GoString) (i : Nat)
    (s : Placing) : Prop where
  shards : s.shards.entries = args.placedEntries random nodeNames i
  counter : args.stripe = true → s.counter = args.offset random i

/-- The assignment of `["n1"]` at the start of a turn is overwritten. -/
theorem Placed.set_set {nodeNames : List GoString} {i : Nat} {s : Placing}
    (hs : Placed args random nodeNames i s) (v : List GoString) :
    ((s.shards.set ((i : Int) + 1) v).set ((i : Int) + 1)
        (args.place random nodeNames i)).entries =
      args.placedEntries random nodeNames (i + 1) := by
  have hnew : (i : Int) + 1 ∉ s.shards := by
    rw [AList.mem_keys, AList.keys, hs.shards]
    exact notMem_placedEntries nodeNames i
  rw [PyDict.entries_set_set_of_notMem hnew, hs.shards, placedEntries_succ]

theorem Placed.turn (h : args.Placeable) {nodeNames : List GoString}
    (hlength : (nodeNames.length : Int) = args.nodes) {i : Nat} {s : Placing}
    (hs : Placed args random nodeNames i s) :
    ∃ s', args.placeShard random nodeNames s i = .ok s' ∧
      Placed args random nodeNames (i + 1) s' := by
  obtain ⟨hnum, _, hmost⟩ := numReplicas_eq h random i
  have hnodes := h.nodes
  cases hstripe : args.stripe with
  | true =>
      refine ⟨⟨(s.shards.set (i + 1) [ascii ['n', '1']]).set (i + 1)
        (args.place random nodeNames i), args.offset random (i + 1)⟩, ?_,
        hs.set_set _, fun _ => rfl⟩
      rw [placeShard, hnum, place_stripe hstripe, offset_succ, ← hs.counter hstripe, hstripe]
      show (stripeShard nodeNames _ [] s.counter >>= _) = _
      rw [Int.toNat_natCast, stripeShard_eq (by omega)]
      rfl
  | false =>
      have hplace : args.place random nodeNames i =
          random.sample i nodeNames (args.count random i) := by
        rw [place, hstripe]
        rfl
      refine ⟨⟨(s.shards.set (i + 1) [ascii ['n', '1']]).set (i + 1)
        (args.place random nodeNames i), s.counter⟩, ?_, hs.set_set _, ?_⟩
      · rw [placeShard, hnum, hplace, hstripe]
        show (sampleShard random nodeNames i _ >>= _) = _
        rw [sampleShard, if_pos (by omega), Int.toNat_natCast]
        rfl
      · rw [hstripe]
        intro hno
        cases hno

/-- What the script returns: nodes n1, n2 and so on, and every shard in its place. -/
structure Made (args : ShardmapArgs) (random : Random) (sm : ShardMapState) : Prop where
  nodes : sm.nodes.keys = (List.range args.nodes.toNat).map nodeName
  shards : sm.shardsToNodes.entries =
    args.placedEntries random sm.nodes.keys args.shards.toNat
  numShards : sm.numShards = args.shards

theorem makeShardmap_number (h : args.Placeable) (random : Random) {port : Int}
    (hport : args.basePort = .number port) :
    ∃ sm, args.makeShardmap random = .ok sm ∧ Made args random sm := by
  obtain ⟨nodes, hmake, hkeys⟩ := makeNodes_number hport
  have hlength : (nodes.keys.length : Int) = args.nodes := by
    rw [hkeys]
    exact h.length_nodeNames
  have hstart : Placed args random nodes.keys 0 ⟨∅, 0⟩ := ⟨rfl, fun _ => rfl⟩
  obtain ⟨s, hloop, hs⟩ := List.foldlM_range_ok
    (Placed args random nodes.keys) (n := args.shards.toNat) hstart
    (fun i _ t ht => ht.turn h hlength)
  refine ⟨⟨nodes, s.shards, args.shards⟩, ?_, hkeys, hs.shards, rfl⟩
  rw [makeShardmap, hmake]
  show ((List.range args.shards.toNat).foldlM (args.placeShard random nodes.keys) ⟨∅, 0⟩ >>= _)
    = _
  rw [hloop]
  rfl

theorem makeShardmap_text (h : args.Placeable) (random : Random) {port : GoString}
    (hport : args.basePort = .text port) :
    args.makeShardmap random = .error .typeError := by
  rw [makeShardmap, makeNodes_text hport h.nodes]
  rfl

/-- The script returns a map if its base port is a number. -/
theorem makeShardmap_cases (h : args.Placeable) {sm : ShardMapState}
    (hsm : args.makeShardmap random = .ok sm) :
    (∃ port, args.basePort = .number port) ∧ Made args random sm := by
  cases hport : args.basePort with
  | text port =>
      rw [makeShardmap_text h random hport] at hsm
      cases hsm
  | number port =>
      obtain ⟨sm', hok, hmade⟩ := makeShardmap_number h random hport
      rw [hok] at hsm
      obtain rfl := Except.ok.inj hsm
      exact ⟨⟨port, rfl⟩, hmade⟩

namespace Made

variable {sm : ShardMapState}

theorem nodup_nodes (hm : Made args random sm) : sm.nodes.keys.Nodup := by
  rw [hm.nodes]
  exact nodup_nodeNames _

theorem length_nodes (h : args.Placeable) (hm : Made args random sm) :
    (sm.nodes.keys.length : Int) = args.nodes := by
  rw [hm.nodes]
  exact h.length_nodeNames

theorem place_spec (h : args.Placeable) (hm : Made args random sm) (i : Nat) :
    (args.place random sm.nodes.keys i).length = args.count random i ∧
      (args.place random sm.nodes.keys i).Nodup ∧
      ∀ node ∈ args.place random sm.nodes.keys i, node ∈ sm.nodes.keys :=
  ShardmapArgs.place_spec h random hm.nodup_nodes (hm.length_nodes h) i

/-- Striped or not, the map is one that the servers accept. -/
theorem isValid (h : args.Placeable) (hm : Made args random sm) : sm.isValid = true := by
  have hshards := h.shards
  rw [ShardMapState.isValid_iff, hm.shards, hm.numShards, placedEntries]
  refine ⟨?_, ?_⟩
  · rw [List.length_map, List.length_range]
    omega
  · intro e he
    obtain ⟨i, hi, rfl⟩ := List.mem_map.mp he
    rw [List.mem_range] at hi
    obtain ⟨_, hnodup, hmem⟩ := hm.place_spec h i
    exact ⟨by simp only; omega, by simp only; omega, hnodup, hmem⟩

theorem nodesForShard (hm : Made args random sm) {i : Nat} (hi : (i : Int) < args.shards) :
    sm.nodesForShard ((i : Int) + 1) = args.place random sm.nodes.keys i := by
  have hmem : PyDict.entry ((i : Int) + 1) (args.place random sm.nodes.keys i) ∈
      sm.shardsToNodes.entries := by
    rw [hm.shards, placedEntries]
    exact List.mem_map.mpr ⟨i, List.mem_range.mpr (by omega), rfl⟩
  have hlookup := Option.mem_def.mp (AList.mem_lookup_iff.mpr hmem)
  rw [ShardMapState.nodesForShard, hlookup]

end Made

/-- Striped shards are dealt out in one go. -/
theorem flatMap_placedEntries (hstripe : args.stripe = true) (random : Random)
    (nodeNames : List GoString) (i : Nat) :
    ((args.placedEntries random nodeNames i).flatMap fun e => e.2) =
      RoundRobin.deal nodeNames 0 (args.offset random i) := by
  induction i with
  | zero => rfl
  | succ i ih =>
      rw [placedEntries_succ, List.flatMap_append, ih, offset_succ, ← RoundRobin.deal_append,
        Nat.zero_add, List.flatMap_singleton, place_stripe hstripe]

theorem Made.balanced (hstripe : args.stripe = true) {sm : ShardMapState}
    (hm : Made args random sm) {a b : GoString} (ha : a ∈ sm.nodes) (hb : b ∈ sm.nodes) :
    (sm.shardsForNode a).length ≤ (sm.shardsForNode b).length + 1 := by
  rw [ShardMapState.length_shardsForNode, ShardMapState.length_shardsForNode, hm.shards,
    flatMap_placedEntries hstripe]
  exact RoundRobin.count_deal_le hm.nodup_nodes ha hb _

end ShardmapArgs

/-- The map that the script makes with `--stripe`, for at least one node, any number of
shards, and replica counts between one and the number of nodes, fixed or drawn for each
shard. There is one as long as the base port is a number. The servers accept it, every shard
is on as many nodes as were asked for, and no node has over one shard more than another. -/
theorem striped_shardmap_balanced (args : ShardmapArgs) (random : Random)
    (h : args.Placeable) (hstripe : args.stripe = true) :
    ((∃ sm, args.makeShardmap random = .ok sm) ↔ ∃ port, args.basePort = .number port) ∧
    ∀ sm, args.makeShardmap random = .ok sm →
      sm.isValid = true ∧ sm.numShards = args.shards ∧
      (sm.nodes.keys.length : Int) = args.nodes ∧
      (∀ i : Nat, (i : Int) < args.shards → ∃ k, args.numReplicas random i = .ok k ∧
        1 ≤ k ∧ k ≤ args.nodes ∧ ((sm.nodesForShard (i + 1)).length : Int) = k) ∧
      ∀ a ∈ sm.nodes, ∀ b ∈ sm.nodes,
        (sm.shardsForNode a).length ≤ (sm.shardsForNode b).length + 1 := by
  refine ⟨⟨?_, ?_⟩, ?_⟩
  · rintro ⟨sm, hsm⟩
    exact (ShardmapArgs.makeShardmap_cases h hsm).1
  · rintro ⟨port, hport⟩
    obtain ⟨sm, hsm, _⟩ := ShardmapArgs.makeShardmap_number h random hport
    exact ⟨sm, hsm⟩
  · intro sm hsm
    have hm := (ShardmapArgs.makeShardmap_cases h hsm).2
    refine ⟨hm.isValid h, hm.numShards, hm.length_nodes h, ?_, ?_⟩
    · intro i hi
      obtain ⟨hnum, hlo, hhi⟩ := ShardmapArgs.numReplicas_eq h random i
      refine ⟨args.count random i, hnum, by omega, hhi, ?_⟩
      rw [hm.nodesForShard hi, (hm.place_spec h i).1]
    · intro a ha b hb
      exact hm.balanced hstripe ha hb

/-- A source of numbers that goes through its range, and takes the first of a list. -/
def cyclic : Random where
  randint i lo hi := lo + (i : Int) % (hi - lo + 1)
  sample _ names k := names.take k
  randint_range := by
    intro i lo hi h
    have hlo := Int.emod_nonneg (i : Int) (show hi - lo + 1 ≠ 0 by omega)
    have hhi := Int.emod_lt_of_pos (i : Int) (show 0 < hi - lo + 1 by omega)
    omega
  sample_length := by
    intro i names k h
    rw [List.length_take, Nat.min_eq_left h]
  sample_subperm := by
    intro i names k _
    exact (List.take_sublist k names).subperm

/-- Three nodes and five shards with one to three replicas each. -/
def fiveShards : ShardmapArgs where
  nodes := 3
  shards := 5
  replicas := 1
  maxReplicas := some 3
  stripe := true
  address := []
  basePort := .number 9000

theorem striped_shardmap_balanced_five_shards :
    fiveShards.Placeable ∧ ∃ sm, fiveShards.makeShardmap cyclic = .ok sm ∧
      sm.isValid = true ∧ (sm.nodesForShard 3).length = 3 ∧
      ∀ a ∈ sm.nodes, ∀ b ∈ sm.nodes,
        (sm.shardsForNode a).length ≤ (sm.shardsForNode b).length + 1 := by
  have hplaceable : fiveShards.Placeable :=
    ⟨by decide, by decide, by decide, by decide, by decide⟩
  obtain ⟨hmakes, hall⟩ := striped_shardmap_balanced fiveShards cyclic hplaceable rfl
  obtain ⟨sm, hsm⟩ := hmakes.mpr ⟨9000, rfl⟩
  obtain ⟨hvalid, _, _, hcount, hbalanced⟩ := hall sm hsm
  obtain ⟨k, hk, _, _, hlength⟩ := hcount 2 (by decide)
  have hthree : k = 3 := (Except.ok.inj hk).symm
  refine ⟨hplaceable, sm, hsm, hvalid, ?_, hbalanced⟩
  have h3 : (((2 : Nat) : Int) + 1) = 3 := rfl
  rw [h3] at hlength
  omega

end KvLab
