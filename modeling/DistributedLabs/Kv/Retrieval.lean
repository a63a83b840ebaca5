import DistributedLabs.Kv.Handler
import Mathlib.Order.Monotone.Defs

/-!
One call of `retrieveShardData` from start to end. The node list is read once for its
length and again in every iteration, and an `Update` may swap the shard map between any
two of these readings. The iterations are those of the handler (`fetchNext`); what is
added here is the whole loop, the requests that it sends and the states that it reads.
-/

namespace KvLab

/-- The states that the shard map goes through, and the number of the state that each
reading sees. -/
structure Readings where
  states : Nat → ShardMapState
  states_valid : ∀ n, (states n).isValid = true
  seen : Nat → Nat
  seen_mono : Monotone seen

def Readings.read (r : Readings) (k : Nat) : ShardMapState := r.states (r.seen k)

/-- `GetClient` returns an error, the request returns an error, or the peer answers. -/
inductive PeerAnswer where
  | noClient
  | failed
  | contents (values : List GetShardValue)

namespace PeerAnswer

def values : PeerAnswer → Option (List GetShardValue)
  | .contents values => some values
  | .noClient | .failed => none

/-- The request has been sent. -/
def sent : PeerAnswer → Bool
  | .noClient => false
  | .failed | .contents _ => true

end PeerAnswer

/-- The nodes that were sent a `GetShardContents` request, and how the call ended. -/
structure Retrieval where
  asked : List GoString
  result : Except Panic (List GetShardValue)

namespace Readings

variable (r : Readings) (nodeName : GoString) (shard : Int) (answers : Nat → PeerAnswer)

def numNodes : Nat := ((r.read 0).nodesForShard shard).length

/-- The node list that iteration `i` reads. -/
def nodesAt (i : Nat) : List GoString := (r.read (i + 1)).nodesForShard shard

/-- The node that iteration `i` sends a request to, if it sends one. -/
def asks (numNodes startIndex i : Nat) : List GoString :=
  match fetchNode (r.read (i + 1)) shard numNodes startIndex i with
  | none => []
  | some node => if node ≠ nodeName ∧ (answers i).sent = true then [node] else []

/-- The loop from iteration `i` on. -/
def retrieveLoop (numNodes startIndex : Nat) : Nat → Nat → Retrieval
  | 0, _ => ⟨[], .ok []⟩
  | todo + 1, i =>
      match fetchNext (r.read (i + 1)) nodeName shard numNodes startIndex i
        (answers i).values with
      | .error panic => ⟨[], .error panic⟩
      | .ok (.done values) =>
          ⟨r.asks nodeName shard answers numNodes startIndex i, .ok values⟩
      | .ok (.next _) =>
          ⟨r.asks nodeName shard answers numNodes startIndex i ++
            (retrieveLoop numNodes startIndex todo (i + 1)).asked,
            (retrieveLoop numNodes startIndex todo (i + 1)).result⟩

/-- `rand.Intn` returns some number below its argument, and panics if that is zero. -/
def retrieveShardData (choice : Nat) : Retrieval :=
  if r.numNodes shard = 0 then ⟨[], .error .intnZero⟩
  else r.retrieveLoop nodeName shard answers (r.numNodes shard)
    (choice % r.numNodes shard) (r.numNodes shard) 0

/-- Another node answers in iteration `i`. -/
def Answered (numNodes startIndex i : Nat) : Prop :=
  ∃ node, fetchNode (r.read (i + 1)) shard numNodes startIndex i = some node ∧
    node ≠ nodeName ∧ (answers i).values ≠ none

/-- The first reading finds a node, and the reading of every iteration that is reached
finds one at the index that was computed from the length of the first. -/
def Covered (choice : Nat) : Prop :=
  0 < r.numNodes shard ∧ ∀ i < r.numNodes shard,
    (∀ j < i, ¬ r.Answered nodeName shard answers (r.numNodes shard)
      (choice % r.numNodes shard) j) →
    (choice % r.numNodes shard + i) % r.numNodes shard < (r.nodesAt shard i).length

variable {r nodeName shard answers}

theorem fetchNode_eq_none {numNodes startIndex i : Nat} :
    fetchNode (r.read (i + 1)) shard numNodes startIndex i = none ↔
      (r.nodesAt shard i).length ≤ (startIndex + i) % numNodes := by
  rw [fetchNode, nodesAt, List.getElem?_eq_none_iff]

theorem lt_of_fetchNode {numNodes startIndex i : Nat} {node : GoString}
    (h : fetchNode (r.read (i + 1)) shard numNodes startIndex i = some node) :
    (startIndex + i) % numNodes < (r.nodesAt shard i).length :=
  (List.getElem?_eq_some_iff.mp h).1

theorem notMem_asks {numNodes startIndex i : Nat} :
    nodeName ∉ r.asks nodeName shard answers numNodes startIndex i := by
  rw [asks]
  split
  · exact List.not_mem_nil
  · split
    · rename_i h
      intro hmem
      exact h.1 (List.mem_singleton.mp hmem).symm
    · exact List.not_mem_nil

theorem notMem_retrieveLoop {numNodes startIndex : Nat} (todo i : Nat) :
    nodeName ∉ (r.retrieveLoop nodeName shard answers numNodes startIndex todo i).asked := by
  induction todo generalizing i with
  | zero => exact List.not_mem_nil
  | succ todo ih =>
      rw [retrieveLoop]
      split
      · exact List.not_mem_nil
      · exact notMem_asks
      · intro hmem
        cases List.mem_append.mp hmem with
        | inl hmem => exact notMem_asks hmem
        | inr hmem => exact ih (i + 1) hmem

theorem answered_of_done {numNodes startIndex i : Nat} {values : List GetShardValue}
    (hi : i < numNodes)
    (h : fetchNext (r.read (i + 1)) nodeName shard numNodes startIndex i (answers i).values =
      .ok (.done values)) :
    r.Answered nodeName shard answers numNodes startIndex i := by
  cases fetchNext_done h with
  | inr hend => omega
  | inl hanswer =>
      obtain ⟨hvalues, _, node, hnode, hne⟩ := hanswer
      exact ⟨node, hnode, hne, by rw [hvalues]; exact Option.some_ne_none values⟩

theorem not_answered_of_next {numNodes startIndex i : Nat} {phase : FetchPhase}
    (h : fetchNext (r.read (i + 1)) nodeName shard numNodes startIndex i (answers i).values =
      .ok (.next phase)) :
    (startIndex + i) % numNodes < (r.nodesAt shard i).length ∧
      ¬ r.Answered nodeName shard answers numNodes startIndex i := by
  obtain ⟨_, _, node, hnode, hskip⟩ := fetchNext_next h
  refine ⟨lt_of_fetchNode hnode, fun hanswered => ?_⟩
  obtain ⟨node', hnode', hne, hvalues⟩ := hanswered
  obtain rfl := Option.some.inj (hnode.symm.trans hnode')
  cases hskip with
  | inl heq => exact hne heq
  | inr hnone => exact hvalues hnone

/-- What `Covered` says of the iterations from `i` on. -/
def CoveredFrom (r : Readings) (nodeName : GoString) (shard : Int) (answers : Nat → PeerAnswer)
    (numNodes startIndex i : Nat) : Prop :=
  ∀ k, i ≤ k → k < numNodes →
    (∀ j, i ≤ j → j < k → ¬ r.Answered nodeName shard answers numNodes startIndex j) →
    (startIndex + k) % numNodes < (r.nodesAt shard k).length

/-- The first iteration is in range, and unless it is answered so are the others. -/
theorem coveredFrom_iff {numNodes startIndex i : Nat} (hi : i < numNodes) :
    r.CoveredFrom nodeName shard answers numNodes startIndex i ↔
      (startIndex + i) % numNodes < (r.nodesAt shard i).length ∧
      (¬ r.Answered nodeName shard answers numNodes startIndex i →
        r.CoveredFrom nodeName shard answers numNodes startIndex (i + 1)) := by
  constructor
  · intro h
    refine ⟨h i (Nat.le_refl i) hi (fun j _ _ => by omega), fun hnot k hik hk hj => ?_⟩
    apply h k (by omega) hk
    intro j hij hjk
    by_cases heq : i = j
    · exact heq ▸ hnot
    · exact hj j (by omega) hjk
  · intro h k hik hk hj
    by_cases heq : i = k
    · exact heq ▸ h.1
    · exact h.2 (hj i (Nat.le_refl i) (by omega)) k (by omega) hk (fun j hij => hj j (by omega))

/-- The loop returns if and only if no iteration that it reaches is out of range. -/
theorem retrieveLoop_returns {numNodes startIndex todo i : Nat} (hi : i + todo = numNodes) :
    (∃ values, (r.retrieveLoop nodeName shard answers numNodes startIndex todo i).result =
      .ok values) ↔ r.CoveredFrom nodeName shard answers numNodes startIndex i := by
  induction todo generalizing i with
  | zero => exact iff_of_true ⟨[], rfl⟩ (fun k _ _ _ => by omega)
  | succ todo ih =>
      have hlt : i < numNodes := by omega
      rw [retrieveLoop, coveredFrom_iff hlt]
      cases hn : fetchNext (r.read (i + 1)) nodeName shard numNodes startIndex i
          (answers i).values with
      | error panic =>
          obtain ⟨_, _, hnode⟩ := fetchNext_error hn
          refine iff_of_false (fun h => ?_) (fun h => ?_)
          · cases h.choose_spec
          · exact absurd h.1 (Nat.not_lt.mpr (fetchNode_eq_none.mp hnode))
      | ok result =>
          cases result with
          | done values =>
              have hanswered := answered_of_done hlt hn
              have hrange := lt_of_fetchNode hanswered.choose_spec.1
              exact iff_of_true ⟨values, rfl⟩ ⟨hrange, fun hnot => absurd hanswered hnot⟩
          | next phase =>
              obtain ⟨hrange, hnot⟩ := not_answered_of_next hn
              refine (ih (by omega)).trans ?_
              exact ⟨fun h => ⟨hrange, fun _ => h⟩, fun h => h.2 hnot⟩

end Readings

/-- Copying a shard never asks the node itself, and it returns if and only if every
reading that it makes still has a node at the index that it looks up. -/
theorem retrieveShardData_returns_iff (r : Readings) (nodeName : GoString) (shard : Int)
    (answers : Nat → PeerAnswer) (choice : Nat) :
    nodeName ∉ (r.retrieveShardData nodeName shard answers choice).asked ∧
    ((∃ values, (r.retrieveShardData nodeName shard answers choice).result = .ok values) ↔
      r.Covered nodeName shard answers choice) := by
  rw [Readings.retrieveShardData]
  split
  · rename_i hzero
    refine ⟨List.not_mem_nil, ?_⟩
    constructor
    · rintro ⟨values, hv⟩
      cases hv
    · intro h
      exact absurd hzero (Nat.ne_of_gt h.1)
  · rename_i hpos
    refine ⟨Readings.notMem_retrieveLoop _ _, ?_⟩
    refine (Readings.retrieveLoop_returns (Nat.zero_add _)).trans ⟨?_, ?_⟩
    · intro h
      refine ⟨Nat.pos_of_ne_zero hpos, fun i hi hj => ?_⟩
      exact h i (Nat.zero_le i) hi (fun j _ => hj j)
    · intro h i _ hi hj
      exact h.2 i hi (fun j => hj j (Nat.zero_le j))

/-- A shard that two nodes host, then one, with the swap after the first reading. The other
shard has no nodes. -/
def shrinkingMap : Readings where
  states n := if n = 0 then smallMap [[1], [2]] [] else smallMap [[1]] []
  states_valid n := by
    split
    · decide
    · decide
  seen k := k
  seen_mono _ _ h := h

/-- The index from the first reading lies behind the end of the second list, and a shard
that has lost its nodes leaves `rand.Intn` nothing to choose from. -/
theorem retrieveShardData_shrinking_panics :
    (shrinkingMap.retrieveShardData [1] 1 (fun _ => .failed) 1).result =
      .error .indexOutOfRange ∧
    (shrinkingMap.retrieveShardData [1] 2 (fun _ => .failed) 0).result = .error .intnZero :=
  ⟨rfl, rfl⟩

end KvLab
