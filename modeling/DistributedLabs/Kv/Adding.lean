import DistributedLabs.Kv.Handler
import DistributedLabs.Library.History

/-!
A server to which a shard is added while requests for the shard come in. The shard is
registered before its values are there, and the lock is released until the peers have
answered: a request that lands in this gap is accepted. The requests that were accepted
are compared with the same requests made after the copied values were inserted.
-/

namespace KvLab

namespace Request

/-- The request is for a key of the shard, or for the shard. -/
def For (numShards shard : Int) : Request → Prop
  | .get key | .set key _ _ | .delete key => key ≠ [] ∧ shardFor key numShards = some shard
  | .getShardContents other => int32 other = shard

instance (numShards shard : Int) (r : Request) : Decidable (r.For numShards shard) :=
  match r with
  | .get _ | .set _ _ _ | .delete _ => inferInstanceAs (Decidable (_ ∧ _))
  | .getShardContents _ => inferInstanceAs (Decidable (_ = _))

/-- The request reads and writes only keys with a property. -/
def Within (p : GoString → Prop) : Request → Prop
  | .get key | .set key _ _ | .delete key => p key
  | .getShardContents _ => ∀ key, p key

/-- The request reads and writes none of the keys. -/
def Avoids (keys : List GoString) : Request → Prop
  | .get key | .set key _ _ | .delete key => key ∉ keys
  | .getShardContents _ => keys = []

instance (keys : List GoString) (r : Request) : Decidable (r.Avoids keys) :=
  match r with
  | .get _ | .set _ _ _ | .delete _ => inferInstanceAs (Decidable (_ ∉ _))
  | .getShardContents _ => inferInstanceAs (Decidable (keys = []))

def isContents : Request → Bool
  | .getShardContents _ => true
  | .get _ | .set _ _ _ | .delete _ => false

end Request

/-- The values of a shard may be listed in any order. -/
def Response.Same : Response → Response → Prop
  | .getShardContents values, .getShardContents values' => values.Perm values'
  | .get r, .get r' => r = r'
  | .set, .set | .delete, .delete => True
  | _, _ => False

instance (r r' : Response) : Decidable (r.Same r') :=
  match r, r' with
  | .getShardContents _, .getShardContents _ => inferInstanceAs (Decidable (List.Perm _ _))
  | .get _, .get _ => inferInstanceAs (Decidable (_ = _))
  | .set, .set | .delete, .delete => isTrue trivial
  | .get _, .set | .get _, .delete | .get _, .getShardContents _
  | .set, .get _ | .set, .delete | .set, .getShardContents _
  | .delete, .get _ | .delete, .set | .delete, .getShardContents _
  | .getShardContents _, .get _ | .getShardContents _, .set
  | .getShardContents _, .delete => isFalse id

def Reply.Same (reply reply' : Reply Response) : Prop :=
  reply.err = reply'.err ∧ match reply.response, reply'.response with
    | some r, some r' => r.Same r'
    | none, none => True
    | _, _ => False

instance (reply reply' : Reply Response) : Decidable (reply.Same reply') :=
  match reply, reply' with
  | ⟨some r, err⟩, ⟨some r', err'⟩ => inferInstanceAs (Decidable (err = err' ∧ r.Same r'))
  | ⟨none, err⟩, ⟨none, err'⟩ => inferInstanceAs (Decidable (err = err' ∧ True))
  | ⟨some _, err⟩, ⟨none, err'⟩ | ⟨none, err⟩, ⟨some _, err'⟩ =>
      inferInstanceAs (Decidable (err = err' ∧ False))

/-- A request that was accepted, with the times that it read and its reply. -/
structure Served where
  request : Request
  now : Int
  clock : GoString → Int × Int
  reply : Reply Response

/-- A server that hosts one shard. -/
def single (shard : Int) (data : ShardData) : KvServerImpl := ⟨[], AList.singleton shard data⟩

/-- Makes the requests of a log, the newest last, if all the replies are the same. -/
def replay (numShards : Int) (server : KvServerImpl) : List Served → Option KvServerImpl
  | [] => some server
  | r :: log =>
      (replay numShards server log).bind fun server =>
        (server.serve numShards r.now r.clock r.request).bind fun (server', reply) =>
          if reply.Same r.reply then some server' else none

/-- The shard right after the copied values were inserted at their times. -/
def copyOf (copied : List (GetShardValue × Int)) : ShardData :=
  copied.foldl (fun data e => data.set e.1.key e.1.value e.1.ttlMsRemaining e.2) ⟨∅⟩

/-- The accepted requests for the shard are listed newest first, the values that were
inserted into it oldest first. -/
structure Adding where
  server : KvServerImpl
  phase : HandlerPhase
  now : Int
  copied : List (GetShardValue × Int)
  log : List Served
  panicked : Option Panic

inductive AddEvent where
  | tick (now : Int)
  | clean (shard : Int)
  | handler (e : HandlerEvent)
  | request (r : Request) (delay : GoString → Nat × Nat)

namespace Adding

variable (s : Adding) (sm : ShardMapState) (shard : Int)

/-- What a step of the handler inserts into the shard. -/
def inserted : HandlerPhase → HandlerEvent → List (GetShardValue × Int)
  | .finishing (v :: _) _, .insert now =>
      if KvServerImpl.entryOf sm v = some shard then [(v, now)] else []
  | _, _ => []

/-- The clock is read while the request runs. -/
def readings (delay : GoString → Nat × Nat) (key : GoString) : Int × Int :=
  (s.now + (delay key).1, s.now + (delay key).1 + (delay key).2)

def Timely : HandlerEvent → Prop
  | .insert now => now = s.now
  | _ => True

instance (e : HandlerEvent) : Decidable (s.Timely e) :=
  match e with
  | .insert now => inferInstanceAs (Decidable (now = s.now))
  | .lock | .check _ | .register | .intn _ _ | .ask _ _ | .relock | .remove _
  | .unlock => isTrue trivial

def handler (e : HandlerEvent) : Option Adding :=
  match s.server.handlerStep sm true s.phase e with
  | none => none
  | some (.error panic) => some { s with panicked := some panic }
  | some (.ok (server, phase)) =>
      some { s with server, phase, copied := s.copied ++ inserted sm shard s.phase e }

/-- A request for the shard. It panics only if the shard's contents are not there. -/
def request (r : Request) (clock : GoString → Int × Int) : Adding :=
  match s.server.serve sm.numShards s.now clock r with
  | none => { s with panicked := some .contentsOfMissing }
  | some (server, reply) =>
      if reply.err = some notFound then { s with server }
      else { s with server, log := ⟨r, s.now, clock, reply⟩ :: s.log }

def step (e : AddEvent) : Option Adding :=
  if s.panicked ≠ none then none
  else
    match e with
    | .tick now => if s.now ≤ now then some { s with now } else none
    | .clean other => (s.server.clean other s.now).map fun server => { s with server }
    | .handler e => if s.Timely e then s.handler sm shard e else none
    | .request r delay =>
        if s.phase.holdsLock then none else some (s.request sm r (s.readings delay))

/-- The requests are for the shard, a peer returns values of the shard it is asked for,
and those of the shard that is added have the keys that the copy brings. -/
def Proper (brought : List GoString) : AddEvent → Prop
  | .request r _ => r.For sm.numShards shard
  | .handler (.ask i (some values)) => ∀ other ∈ s.phase.fetchShard i, ∀ v ∈ values,
      KvServerImpl.entryOf sm v = some other ∧ (other = shard → v.key ∈ brought)
  | _ => True

instance (brought : List GoString) (e : AddEvent) :
    Decidable (s.Proper sm shard brought e) :=
  match e with
  | .request r _ => inferInstanceAs (Decidable (r.For sm.numShards shard))
  | .handler (.ask i (some values)) => inferInstanceAs
      (Decidable (∀ other ∈ s.phase.fetchShard i, ∀ v ∈ values, _ ∧ (_ → _)))
  | .handler (.ask _ none) | .handler .lock | .handler (.check _) | .handler .register
  | .handler (.intn _ _) | .handler .relock | .handler (.insert _) | .handler (.remove _)
  | .handler .unlock | .tick _ | .clean _ => isTrue trivial

/-- While the peers are asked no request is for a key that the copy brings, and the
contents are asked for only if the shard is there. -/
def Quiet (brought : List GoString) : AddEvent → Prop
  | .request r _ => (s.phase.isCopying = true → r.Avoids brought) ∧
      (r.isContents = true → shard ∈ s.server.availableShards)
  | _ => True

instance (brought : List GoString) (e : AddEvent) : Decidable (s.Quiet shard brought e) :=
  match e with
  | .request _ _ => inferInstanceAs (Decidable ((_ → _) ∧ (_ → _)))
  | .handler _ | .tick _ | .clean _ => isTrue trivial

/-- The accepted requests had the replies that they have after the copy was inserted, and
the shard is as they leave it. -/
def Atomic : Prop :=
  ∃ server data data', replay sm.numShards (single shard (copyOf s.copied)) s.log =
      some server ∧ server.availableShards.lookup shard = some data ∧
    s.server.availableShards.lookup shard = some data' ∧
    ∀ key, live s.now (data.data.lookup key) = live s.now (data'.data.lookup key)

end Adding

/-- A server that handles a shard map. -/
def adding (sm : ShardMapState) (shard : Int) (server : KvServerImpl) (now : Int) :
    Machine Adding AddEvent where
  init := ⟨server, .locking, now, [], [], none⟩
  step s e := s.step sm shard e

end KvLab
