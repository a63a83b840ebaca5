import DistributedLabs.Kv.ShardMap
import DistributedLabs.Library.GoTime

/-!
A server of the key-value store and its four requests. Every request holds the lock of
the server from start to end, so each one is a single step. `none` is a panic. The
number of shards is read from the shard map and never changes.
-/

namespace KvLab

open GoTime

/-- An entry expires when `ttl` whole milliseconds have passed since `timeElapsed`. -/
structure CacheItem where
  value : GoString
  ttl : Int
  timeElapsed : Int
  deriving DecidableEq

structure ShardData where
  data : GoMap GoString CacheItem

structure KvServerImpl where
  nodeName : GoString
  availableShards : GoMap Int ShardData

inductive Code where
  | invalidArgument
  | notFound
  deriving DecidableEq

structure Status where
  code : Code
  message : String
  deriving DecidableEq

/-- What a handler returns; a nil response is `none`. -/
structure Reply (ρ : Type) where
  response : Option ρ
  err : Option Status

structure GetResponse where
  value : GoString
  wasFound : Bool
  deriving DecidableEq

structure GetShardValue where
  key : GoString
  value : GoString
  ttlMsRemaining : Int
  deriving DecidableEq

def emptyKey : Status := ⟨.invalidArgument, "empty key is not allowed"⟩

def notFound : Status := ⟨.notFound, "NotFound"⟩

/-- The whole milliseconds since the entry was stored. -/
def CacheItem.elapsed (item : CacheItem) (now : Int) : Int :=
  milliseconds (timeSub now item.timeElapsed)

def CacheItem.expired (item : CacheItem) (now : Int) : Bool :=
  item.ttl ≤ item.elapsed now

namespace ShardData

variable (shard : ShardData)

def get (key : GoString) (now : Int) : GetResponse :=
  match shard.data.lookup key with
  | none => ⟨[], false⟩
  | some item => if item.expired now then ⟨[], false⟩ else ⟨item.value, true⟩

def set (key value : GoString) (ttlMs now : Int) : ShardData :=
  ⟨shard.data.insert key ⟨value, ttlMs, now⟩⟩

def delete (key : GoString) : ShardData := ⟨shard.data.erase key⟩

/-- The clock is read twice for each entry: to compare and to compute what is left. -/
def contents (clock : GoString → Int × Int) : List GetShardValue :=
  (GoMap.items shard.data).filterMap fun (key, item) =>
    if item.elapsed (clock key).1 < item.ttl then
      some ⟨key, item.value, item.ttl - item.elapsed (clock key).2⟩
    else none

/-- One tick of the cleaner. -/
def clean (now : Int) : ShardData :=
  ⟨(GoMap.items shard.data).foldl
    (fun data (key, item) => if item.expired now then data.erase key else data) shard.data⟩

end ShardData

namespace KvServerImpl

variable (server : KvServerImpl) (numShards : Int)

/-- Replaces the data of a shard that is hosted. -/
def update (shard : Int) (data : ShardData) : KvServerImpl :=
  { server with availableShards := server.availableShards.insert shard data }

/-- The lookup that `Get`, `Set` and `Delete` start with. -/
def withShard {ρ : Type} (key : GoString) (empty missing : ρ)
    (hosted : Int → ShardData → ρ) : Option ρ :=
  if key = [] then some empty
  else
    match getShardForKey key numShards with
    | none => none
    | some shardID =>
        match server.availableShards.lookup (int32 shardID) with
        | none => some missing
        | some shard => some (hosted (int32 shardID) shard)

def get (key : GoString) (now : Int) : Option (Reply GetResponse) :=
  server.withShard numShards key ⟨some ⟨[], false⟩, some emptyKey⟩
    ⟨some ⟨[], false⟩, some notFound⟩
    fun _ shard => ⟨some (shard.get key now), none⟩

def set (key value : GoString) (ttlMs now : Int) : Option (KvServerImpl × Reply Unit) :=
  server.withShard numShards key (server, ⟨none, some emptyKey⟩)
    (server, ⟨some (), some notFound⟩)
    fun shardID shard => (server.update shardID (shard.set key value ttlMs now),
      ⟨some (), none⟩)

def delete (key : GoString) : Option (KvServerImpl × Reply Unit) :=
  server.withShard numShards key (server, ⟨none, some emptyKey⟩)
    (server, ⟨some (), some notFound⟩)
    fun shardID shard => (server.update shardID (shard.delete key), ⟨some (), none⟩)

/-- The lock of the shard is taken before the shard is known to exist. -/
def getShardContents (shard : Int) (clock : GoString → Int × Int) :
    Option (Reply (List GetShardValue)) :=
  match server.availableShards.lookup (int32 shard) with
  | none => none
  | some data => some ⟨some (data.contents clock), none⟩

/-- A tick of the cleaner of a hosted shard. -/
def clean (shard now : Int) : Option KvServerImpl :=
  (server.availableShards.lookup shard).map fun data => server.update shard (data.clean now)

end KvServerImpl

inductive Request where
  | get (key : GoString)
  | set (key value : GoString) (ttlMs : Int)
  | delete (key : GoString)
  | getShardContents (shard : Int)
  deriving DecidableEq

inductive Response where
  | get (response : GetResponse)
  | set
  | delete
  | getShardContents (values : List GetShardValue)

def Reply.map {ρ σ : Type} (f : ρ → σ) (reply : Reply ρ) : Reply σ :=
  ⟨reply.response.map f, reply.err⟩

/-- Any request, with the readings of the clock that it makes. -/
def KvServerImpl.serve (server : KvServerImpl) (numShards : Int) (now : Int)
    (clock : GoString → Int × Int) : Request → Option (KvServerImpl × Reply Response)
  | .get key => (server.get numShards key now).map fun r => (server, r.map .get)
  | .set key value ttlMs => (server.set numShards key value ttlMs now).map fun r =>
      (r.1, r.2.map fun _ => .set)
  | .delete key => (server.delete numShards key).map fun r => (r.1, r.2.map fun _ => .delete)
  | .getShardContents shard => (server.getShardContents shard clock).map fun r =>
      (server, r.map .getShardContents)

end KvLab
