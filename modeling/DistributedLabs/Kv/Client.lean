import DistributedLabs.Kv.Handler
import DistributedLabs.Library.History

/-!
The client of the key-value store, and the store that a client sees which makes one call
after the other while the shard map does not change. `Set` and `Delete` send one request
to every node of the shard, in any order; `Get` asks the nodes one by one from a random
start until one answers. Requests and cleaners take the time of one shared clock.
-/

namespace KvLab

open GoTime

inductive Op where
  | get (key : GoString)
  | set (key value : GoString) (ttl : Duration)
  | delete (key : GoString)
  deriving DecidableEq

/-- An error of a server or of the client, or a failure of `GetClient` or of the
connection. -/
inductive CallErr where
  | status (s : Status)
  | failure (text : String)
  deriving DecidableEq

/-- What `Get` returns, and what `Set` and `Delete` return. -/
inductive Outcome where
  | read (value : GoString) (wasFound : Bool) (err : Option CallErr)
  | written (err : Option CallErr)
  deriving DecidableEq

namespace Op

def key : Op → GoString
  | .get key | .set key _ _ | .delete key => key

def isWrite : Op → Bool
  | .get _ => false
  | .set _ _ _ | .delete _ => true

def request : Op → Request
  | .get key => .get key
  | .set key value ttl => .set key value (milliseconds ttl.ns)
  | .delete key => .delete key

def failed (err : CallErr) : Op → Outcome
  | .get _ => .read [] false (some err)
  | .set _ _ _ | .delete _ => .written (some err)

end Op

/-- The loop of `Get` before iteration `i`, and the goroutines of `Set` or `Delete` that
have not finished, with the errors sent so far. -/
inductive CallPhase where
  | getting (nodes : List GoString) (startIndex i : Nat) (lastErr : Option CallErr)
  | writing (todo : List GoString) (errs : List CallErr)
  | returning (outcome : Outcome)
  deriving DecidableEq

def noNodes : CallErr := .status ⟨.notFound, "no nodes available"⟩

/-- The nodes that host the shard of a key. -/
def ShardMapState.nodesForKey (sm : ShardMapState) (key : GoString) : List GoString :=
  match getShardForKey key sm.numShards with
  | none => []
  | some shardID => sm.nodesForShard shardID

/-- A call up to its first request. The random start of a `Get` is an index of the nodes. -/
def Op.start (op : Op) (sm : ShardMapState) (startIndex : Nat) :
    Option (Except Panic CallPhase) :=
  if getShardForKey op.key sm.numShards = none then some (.error .divideByZero)
  else if sm.nodesForKey op.key = [] then some (.ok (.returning (op.failed noNodes)))
  else if op.isWrite then some (.ok (.writing (sm.nodesForKey op.key) []))
  else if startIndex < (sm.nodesForKey op.key).length then
    some (.ok (.getting (sm.nodesForKey op.key) startIndex 0 none))
  else none

/-- The `GetResponse` that a client reads. -/
def Response.read : Option Response → GetResponse
  | some (.get response) => response
  | _ => ⟨[], false⟩

def Reply.answer {ρ : Type} (reply : Reply ρ) : Except CallErr (Option ρ) :=
  match reply.err with
  | some err => .error (.status err)
  | none => .ok reply.response

namespace CallPhase

/-- A request to the node is under way. -/
def Awaits (node : GoString) : CallPhase → Prop
  | .getting nodes startIndex i _ =>
      i < nodes.length ∧ nodes[(i + startIndex) % nodes.length]? = some node
  | .writing todo _ => node ∈ todo
  | .returning _ => False

instance (node : GoString) (phase : CallPhase) : Decidable (phase.Awaits node) :=
  match phase with
  | .getting _ _ _ _ => inferInstanceAs (Decidable (_ ∧ _))
  | .writing todo _ => inferInstanceAs (Decidable (node ∈ todo))
  | .returning _ => isFalse id

/-- The answer of a node, or the error of `GetClient`. -/
def onAnswer (node : GoString) (answer : Except CallErr (Option Response)) :
    CallPhase → CallPhase
  | .getting nodes startIndex i _ =>
      match answer with
      | .ok response =>
          .returning (.read (Response.read response).value (Response.read response).wasFound
            none)
      | .error err => .getting nodes startIndex (i + 1) (some err)
  | .writing todo errs =>
      match answer with
      | .ok _ => .writing (todo.erase node) errs
      | .error err => .writing (todo.erase node) (errs ++ [err])
  | .returning outcome => .returning outcome

/-- What the call returns, once it can return. -/
def result : CallPhase → Option Outcome
  | .getting nodes _ i lastErr => if nodes.length ≤ i then some (.read [] false lastErr) else none
  | .writing [] errs => some (.written errs.head?)
  | .writing (_ :: _) _ => none
  | .returning outcome => some outcome

/-- The steps that the call has yet to make, at most. -/
def remaining : CallPhase → Nat
  | .getting nodes _ i _ => nodes.length - i + 2
  | .writing todo _ => todo.length + 1
  | .returning _ => 1

end CallPhase

inductive Client where
  | idle
  | calling (op : Op) (began : Int) (phase : CallPhase)
  deriving DecidableEq

/-- A call that has returned, with the times of its start and its end. -/
structure Call where
  op : Op
  began : Int
  ended : Int
  outcome : Outcome
  deriving DecidableEq

/-- The completed calls are listed newest first. -/
structure Store where
  servers : GoString → KvServerImpl
  now : Int
  client : Client
  calls : List Call
  panicked : Bool

inductive StoreEvent where
  | tick (now : Int)
  | clean (node : GoString) (shard : Int)
  | call (op : Op) (startIndex : Nat)
  | serve (node : GoString)
  | fail (node : GoString) (err : CallErr)
  | finish

namespace Store

variable (s : Store)

def setServer (node : GoString) (server : KvServerImpl) : Store :=
  { s with servers := Function.update s.servers node server }

/-- The server of a node handles the request of the call. -/
def serve (sm : ShardMapState) (node : GoString) (op : Op) (began : Int)
    (phase : CallPhase) : Store :=
  match (s.servers node).serve sm.numShards s.now (fun _ => (s.now, s.now)) op.request with
  | none => { s with panicked := true }
  | some (server, reply) =>
      { s.setServer node server with
        client := .calling op began (phase.onAnswer node reply.answer) }

def step (sm : ShardMapState) (e : StoreEvent) : Option Store :=
  if s.panicked then none
  else
    match e, s.client with
    | .tick now, _ => if s.now ≤ now then some { s with now } else none
    | .clean node shard, _ => ((s.servers node).clean shard s.now).map (s.setServer node)
    | .call op startIndex, .idle =>
        (op.start sm startIndex).map fun
          | .error _ => { s with panicked := true }
          | .ok phase => { s with client := .calling op s.now phase }
    | .serve node, .calling op began phase =>
        if phase.Awaits node then some (s.serve sm node op began phase) else none
    | .fail node err, .calling op began phase =>
        if phase.Awaits node then
          some { s with client := .calling op began (phase.onAnswer node (.error err)) }
        else none
    | .finish, .calling op began phase => phase.result.map fun outcome =>
        { s with client := .idle, calls := ⟨op, began, s.now, outcome⟩ :: s.calls }
    | _, _ => none

/-- What a step needs and what it leads to. -/
inductive Step (sm : ShardMapState) : StoreEvent → Store → Prop
  | tick {now : Int} (hn : s.now ≤ now) : Step sm (.tick now) { s with now }
  | clean {node : GoString} {shard : Int} {server : KvServerImpl}
      (hc : (s.servers node).clean shard s.now = some server) :
      Step sm (.clean node shard) (s.setServer node server)
  | callPanic {op : Op} {startIndex : Nat} {panic : Panic} (hc : s.client = .idle)
      (hs : op.start sm startIndex = some (.error panic)) :
      Step sm (.call op startIndex) { s with panicked := true }
  | call {op : Op} {startIndex : Nat} {phase : CallPhase} (hc : s.client = .idle)
      (hs : op.start sm startIndex = some (.ok phase)) :
      Step sm (.call op startIndex) { s with client := .calling op s.now phase }
  | serve {node : GoString} {op : Op} {began : Int} {phase : CallPhase}
      (hc : s.client = .calling op began phase) (ha : phase.Awaits node) :
      Step sm (.serve node) (s.serve sm node op began phase)
  | fail {node : GoString} {err : CallErr} {op : Op} {began : Int} {phase : CallPhase}
      (hc : s.client = .calling op began phase) (ha : phase.Awaits node) :
      Step sm (.fail node err)
        { s with client := .calling op began (phase.onAnswer node (.error err)) }
  | finish {op : Op} {began : Int} {phase : CallPhase} {outcome : Outcome}
      (hc : s.client = .calling op began phase) (hr : phase.result = some outcome) :
      Step sm .finish
        { s with client := .idle, calls := ⟨op, began, s.now, outcome⟩ :: s.calls }

theorem step_cases {sm : ShardMapState} {e : StoreEvent} {t : Store}
    (h : s.step sm e = some t) : Step s sm e t := by
  unfold step at h
  split at h
  · cases h
  · split at h
    · split at h <;> cases h
      exact .tick ‹_›
    · obtain ⟨server, hc, rfl⟩ := Option.map_eq_some_iff.mp h
      exact .clean hc
    · rename_i hc
      obtain ⟨r, hr, rfl⟩ := Option.map_eq_some_iff.mp h
      cases r with
      | error panic => exact .callPanic hc hr
      | ok phase => exact .call hc hr
    · split at h <;> cases h
      exact .serve ‹_› ‹_›
    · split at h <;> cases h
      exact .fail ‹_› ‹_›
    · obtain ⟨outcome, hr, rfl⟩ := Option.map_eq_some_iff.mp h
      exact .finish ‹_› hr
    · cases h

end Store

def store (sm : ShardMapState) (servers : GoString → KvServerImpl) (now : Int) :
    Machine Store StoreEvent where
  init := ⟨servers, now, .idle, [], false⟩
  step s e := s.step sm e

end KvLab
