import DistributedLabs.Kv.Handler
import DistributedLabs.Library.History

/-!
All the servers of a cluster while they handle one shard map. A goroutine that asks for a
shard gets its answer from the server of the peer, at a time when no handler holds the
lock of that server. A peer that does not host the shard panics.
-/

namespace KvLab

structure Cluster where
  servers : GoString → KvServerImpl
  phases : GoString → HandlerPhase
  panicked : Option Panic

inductive ClusterEvent where
  | handler (node : GoString) (e : HandlerEvent)
  | ask (node : GoString) (i : Nat) (clock : GoString → Int × Int)
  | clean (node : GoString) (shard now : Int)

/-- The shard that a goroutine asks for and the node that it looks at. -/
def HandlerPhase.asks (sm : ShardMapState) (i : Nat) :
    HandlerPhase → Option (Int × GoString)
  | .copying fetches _ _ =>
      match fetches[i]? with
      | some ⟨shard, .asking numNodes startIndex k⟩ =>
          if k < numNodes then
            (fetchNode sm shard numNodes startIndex k).map fun node => (shard, node)
          else none
      | _ => none
  | _ => none

def HandlerEvent.isAsk : HandlerEvent → Bool
  | .ask _ _ => true
  | _ => false

namespace Cluster

variable (s : Cluster) (sm : ShardMapState)

def handler (node : GoString) (e : HandlerEvent) : Option Cluster :=
  match (s.servers node).handlerStep sm true (s.phases node) e with
  | none => none
  | some (.error panic) => some { s with panicked := some panic }
  | some (.ok (server, phase)) => some { s with
      servers := Function.update s.servers node server
      phases := Function.update s.phases node phase }

def ask (node : GoString) (i : Nat) (clock : GoString → Int × Int) : Option Cluster :=
  match (s.phases node).asks sm i with
  | none => s.handler sm node (.ask i none)
  | some (shard, peer) =>
      if peer = (s.servers node).nodeName then s.handler sm node (.ask i none)
      else if (s.phases peer).holdsLock then none
      else
        match (s.servers peer).getShardContents shard clock with
        | none => some { s with panicked := some .contentsOfMissing }
        | some reply =>
            s.handler sm node (.ask i (if reply.err = none then reply.response else none))

def step (e : ClusterEvent) : Option Cluster :=
  if s.panicked ≠ none then none
  else
    match e with
    | .handler node e => if e.isAsk then none else s.handler sm node e
    | .ask node i clock => s.ask sm node i clock
    | .clean node shard now => ((s.servers node).clean shard now).map fun server =>
        { s with servers := Function.update s.servers node server }

/-- No entry has expired when the contents of a shard are read or a cleaner runs. -/
def Unexpired (entries : List (GoString × GoString)) : ClusterEvent → Prop
  | .ask node i clock => ∀ q ∈ (s.phases node).asks sm i, ∀ e ∈ entries,
      ∀ item ∈ (s.servers q.2).held sm.numShards e.1, item.expired (clock e.1).1 = false
  | .clean node _ now => ∀ e ∈ entries,
      ∀ item ∈ (s.servers node).held sm.numShards e.1, item.expired now = false
  | .handler _ _ => True

instance (entries : List (GoString × GoString)) (e : ClusterEvent) :
    Decidable (s.Unexpired sm entries e) :=
  match e with
  | .ask node i _ => Option.decidableForallMem ((s.phases node).asks sm i)
  | .clean _ _ _ => inferInstanceAs (Decidable (∀ e ∈ entries, _))
  | .handler _ _ => isTrue trivial

/-- A node that is asked for the shard hosted it before or has handled the shard map. -/
def AsksSettled (before : GoString → KvServerImpl) (shard : Int) : ClusterEvent → Prop
  | .ask node i _ => ∀ q ∈ (s.phases node).asks sm i, q.1 = shard → q.2 = node ∨
      shard ∈ (before q.2).availableShards ∨ s.phases q.2 = .returned
  | _ => True

instance (before : GoString → KvServerImpl) (shard : Int) (e : ClusterEvent) :
    Decidable (s.AsksSettled sm before shard e) :=
  match e with
  | .ask node i _ => Option.decidableForallMem ((s.phases node).asks sm i)
  | .clean _ _ _ | .handler _ _ => isTrue trivial

end Cluster

/-- The entries that a server holds. -/
def KvServerImpl.Holds (server : KvServerImpl) (numShards : Int)
    (entries : List (GoString × GoString)) : Prop :=
  ∀ e ∈ entries, (server.held numShards e.1).map (·.value) = some e.2

instance (server : KvServerImpl) (numShards : Int) (entries : List (GoString × GoString)) :
    Decidable (server.Holds numShards entries) :=
  inferInstanceAs (Decidable (∀ e ∈ entries, _))

/-- All nodes of the shard have handled the shard map. -/
def Cluster.Finished (sm : ShardMapState) (shardID : Int) (s : Cluster) : Prop :=
  ∀ node ∈ sm.nodesForShard shardID, s.phases node = .returned

instance (sm : ShardMapState) (shardID : Int) (s : Cluster) :
    Decidable (s.Finished sm shardID) :=
  inferInstanceAs (Decidable (∀ node ∈ sm.nodesForShard shardID, _))

def cluster (sm : ShardMapState) (servers : GoString → KvServerImpl) :
    Machine Cluster ClusterEvent where
  init := ⟨servers, fun _ => .locking, none⟩
  step s e := s.step sm e

end KvLab
