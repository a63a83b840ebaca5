import DistributedLabs.Kv.Cluster
import DistributedLabs.Kv.Workflows

/-!
The test setup while workflows run. `UpdateShardMapping` calls `Update` twice with the same
state. An `Update` swaps the map and then notifies the servers one after the other; a server
takes a notification when its listen loop is in its select, that is when it has handled the
one before. The handlers read the current map whenever they read it, so a server may see a
new map before it is notified, and a workflow goes on while servers still handle the second
notification. Clients send requests all the while.
-/

namespace KvLab

/-- Where the goroutine of the test stands: between two workflows, with what the last one
returned, or in `Update` with the servers that it has yet to notify; `again` says that it is
the first `Update` of the two. -/
inductive TestPos
  | idle (err : Option WorkflowError)
  | updating (again : Bool) (todo : List GoString) (next : Next)
  | panicked
  deriving DecidableEq

structure Setup where
  shardMap : ShardMapState
  cluster : Cluster
  test : TestPos

inductive SetupEvent
  | call (w : Workflow) (c : Choice)
  | notify (node : GoString)
  | proceed (c : Choice)
  | cluster (e : ClusterEvent)
  | serve (node : GoString) (now : Int) (clock : GoString → Int × Int) (r : Request)

/-- How a request panics. -/
def Request.panic : Request → Panic
  | .getShardContents _ => .contentsOfMissing
  | .get _ | .set _ _ _ | .delete _ => .divideByZero

/-- The requests of clients; `GetShardContents` is for servers. -/
def Request.byClient : Request → Bool
  | .getShardContents _ => false
  | .get _ | .set _ _ _ | .delete _ => true

namespace Setup

variable (s : Setup)

/-- The first `Update` of `UpdateShardMapping` swaps the map. -/
def follow : Plan → Setup
  | .returned err => { s with test := .idle err }
  | .publish sm next => { s with
      shardMap := { s.shardMap with shardsToNodes := sm.shardsToNodes }
      test := .updating true s.shardMap.nodes.keys next }
  | .panic => { s with test := .panicked }

def notify (node : GoString) : Option Setup :=
  match s.test with
  | .updating again todo next =>
      if todo.contains node ∧ s.cluster.phases node = .returned then
        some { s with
          cluster := { s.cluster with
            phases := Function.update s.cluster.phases node .locking }
          test := .updating again (todo.erase node) next }
      else none
  | _ => none

/-- An `Update` that has notified all servers returns. -/
def proceed (c : Choice) : Option Setup :=
  match s.test with
  | .updating true [] next =>
      some { s with test := .updating false s.shardMap.nodes.keys next }
  | .updating false [] next => (s.shardMap.second c next).map s.follow
  | _ => none

/-- A request waits while a handler holds the lock of the server. -/
def serve (node : GoString) (now : Int) (clock : GoString → Int × Int) (r : Request) :
    Option Setup :=
  if (s.cluster.phases node).holdsLock then none
  else
    match (s.cluster.servers node).serve s.shardMap.numShards now clock r with
    | none => some { s with cluster := { s.cluster with panicked := some r.panic } }
    | some (server, _) => some { s with cluster := { s.cluster with
        servers := Function.update s.cluster.servers node server } }

def step (e : SetupEvent) : Option Setup :=
  if s.cluster.panicked ≠ none then none
  else
    match e with
    | .call w c =>
        match s.test with
        | .idle _ => (s.shardMap.first c w).map s.follow
        | _ => none
    | .notify node => s.notify node
    | .proceed c => s.proceed c
    | .cluster e => (s.cluster.step s.shardMap e).map fun cluster => { s with cluster }
    | .serve node now clock r => s.serve node now clock r

/-- No entry has expired when the contents of a shard are read or a cleaner runs. -/
def Unexpired (entries : List (GoString × GoString)) : SetupEvent → Prop
  | .cluster e => s.cluster.Unexpired s.shardMap entries e
  | _ => True

instance (entries : List (GoString × GoString)) (e : SetupEvent) :
    Decidable (s.Unexpired entries e) :=
  match e with
  | .cluster e => inferInstanceAs (Decidable (s.cluster.Unexpired s.shardMap entries e))
  | .call _ _ | .notify _ | .proceed _ | .serve _ _ _ _ => isTrue trivial

/-- The workflows are called as their comments ask for, and none is told to take the shard
from its last node. The clients send `Get`, `Set` and `Delete`, and write other keys. -/
def Graceful (shard : Int) (entries : List (GoString × GoString)) : SetupEvent → Prop
  | .call w _ => w.Proper s.shardMap ∧ w.Spares shard s.shardMap
  | .serve _ _ _ r => r.byClient = true ∧ ∀ e ∈ entries, r.written ≠ some e.1
  | _ => True

instance (shard : Int) (entries : List (GoString × GoString)) (e : SetupEvent) :
    Decidable (s.Graceful shard entries e) :=
  match e with
  | .call w _ =>
      inferInstanceAs (Decidable (w.Proper s.shardMap ∧ w.Spares shard s.shardMap))
  | .serve _ _ _ r =>
      inferInstanceAs (Decidable (r.byClient = true ∧ ∀ e ∈ entries, r.written ≠ some e.1))
  | .notify _ | .proceed _ | .cluster _ => isTrue trivial

end Setup

/-- The setup when `MakeTestSetup` has returned and some entries have been stored. -/
def setup (sm : ShardMapState) (servers : GoString → KvServerImpl) :
    Machine Setup SetupEvent where
  init := ⟨sm, ⟨servers, fun _ => .returned, none⟩, .idle none⟩
  step s e := s.step e

end KvLab
