import DistributedLabs.Kv.Server

/-!
Which requests a server answers, and how. `Get`, `Set` and `Delete` answer every
request. `GetShardContents` dereferences the shard before it knows that the shard is
there, so a request for a shard that is not hosted is a panic and not an error.
-/

namespace KvLab

namespace Request

/-- The key is empty; `GetShardContents` has none. -/
def keyEmpty : Request → Bool
  | .get key | .set key _ _ | .delete key => key = []
  | .getShardContents _ => false

/-- The entry of `availableShards` that the request is for. -/
def shard (numShards : Int) : Request → Option Int
  | .get key | .set key _ _ | .delete key => (getShardForKey key numShards).map int32
  | .getShardContents shard => some (int32 shard)

/-- The shard of the request is hosted. -/
def Hosted (server : KvServerImpl) (numShards : Int) (r : Request) : Prop :=
  ∃ shard ∈ server.availableShards, r.shard numShards = some shard

/-- The code of the error that the request should be answered with. -/
inductive Expected (server : KvServerImpl) (numShards : Int) (r : Request) :
    Option Code → Prop
  | invalidArgument (h : r.keyEmpty = true) : Expected server numShards r (some .invalidArgument)
  | notFound (he : r.keyEmpty = false) (h : ¬ r.Hosted server numShards) :
      Expected server numShards r (some .notFound)
  | ok (he : r.keyEmpty = false) (h : r.Hosted server numShards) :
      Expected server numShards r none

/-- The request is answered as expected, and an error leaves the server unchanged. -/
def Handled (server : KvServerImpl) (numShards now : Int) (clock : GoString → Int × Int)
    (r : Request) : Prop :=
  ∃ server' reply, server.serve numShards now clock r = some (server', reply) ∧
    r.Expected server numShards (reply.err.map (·.code)) ∧
    (reply.err ≠ none → server' = server)

end Request

section Lookup

variable {ρ : Type} {server : KvServerImpl} {numShards : Int}

/-- The three ways in which a request with a key is answered. -/
theorem withShard_cases (hn : 1 ≤ numShards) (server : KvServerImpl) (key : GoString)
    (empty missing : ρ) (hosted : Int → ShardData → ρ) :
    (key = [] ∧ server.withShard numShards key empty missing hosted = some empty) ∨
    (key ≠ [] ∧ ∃ shard, (getShardForKey key numShards).map int32 = some shard ∧
      ((shard ∉ server.availableShards ∧
        server.withShard numShards key empty missing hosted = some missing) ∨
      ∃ data, server.availableShards.lookup shard = some data ∧
        server.withShard numShards key empty missing hosted = some (hosted shard data))) := by
  by_cases hk : key = []
  · exact Or.inl ⟨hk, if_pos hk⟩
  · refine Or.inr ⟨hk, _, by rw [getShardForKey_eq hn]; rfl, ?_⟩
    simp only [KvServerImpl.withShard, if_neg hk, getShardForKey_eq hn]
    cases hl : server.availableShards.lookup
        (int32 (((sum32 key).toNat : Int).tmod numShards + 1)) with
    | none => exact Or.inl ⟨AList.lookup_eq_none.mp hl, rfl⟩
    | some data => exact Or.inr ⟨data, rfl, rfl⟩

theorem map_withShard {σ : Type} (f : ρ → σ) (key : GoString) (empty missing : ρ)
    (hosted : Int → ShardData → ρ) :
    (server.withShard numShards key empty missing hosted).map f =
      server.withShard numShards key (f empty) (f missing) fun i data => f (hosted i data) := by
  simp only [KvServerImpl.withShard]
  split
  · rfl
  · split
    · rfl
    · split <;> rfl

end Lookup

section Requests

variable {server : KvServerImpl} {numShards now : Int} {clock : GoString → Int × Int}
  {r : Request}

/-- A request that starts with the common lookup is handled. -/
theorem handled_withShard (hn : 1 ≤ numShards) {key : GoString} {empty missing : Reply Response}
    {hosted : Int → ShardData → KvServerImpl × Reply Response}
    (hempty : empty.err = some emptyKey) (hmissing : missing.err = some notFound)
    (hhosted : ∀ i data, (hosted i data).2.err = none)
    (hkey : r.keyEmpty = decide (key = []))
    (hshard : r.shard numShards = (getShardForKey key numShards).map int32)
    (hserve : server.serve numShards now clock r =
      server.withShard numShards key (server, empty) (server, missing) hosted) :
    r.Handled server numShards now clock := by
  rcases withShard_cases hn server key (server, empty) (server, missing) hosted with
    ⟨hk, heq⟩ | ⟨hk, shard, hsh, ⟨hno, heq⟩ | ⟨data, hdata, heq⟩⟩
  · refine ⟨server, empty, hserve.trans heq, ?_, fun _ => rfl⟩
    rw [hempty]
    exact .invalidArgument (by simp [hkey, hk])
  · refine ⟨server, missing, hserve.trans heq, ?_, fun _ => rfl⟩
    rw [hmissing]
    refine .notFound (by simp [hkey, hk]) ?_
    rintro ⟨shard', hmem, hsh'⟩
    rw [hshard, hsh] at hsh'
    obtain rfl := Option.some.inj hsh'
    exact hno hmem
  · refine ⟨_, _, hserve.trans heq, ?_, fun hne => absurd (hhosted shard data) hne⟩
    rw [hhosted]
    refine .ok (by simp [hkey, hk]) ⟨shard, ?_, hshard.trans hsh⟩
    exact AList.lookup_isSome.mp (by rw [hdata]; rfl)

theorem handled_get (hn : 1 ≤ numShards) (key : GoString) :
    (Request.get key).Handled server numShards now clock :=
  handled_withShard hn rfl rfl (fun _ _ => rfl) rfl rfl (map_withShard _ key _ _ _)

theorem handled_set (hn : 1 ≤ numShards) (key value : GoString) (ttlMs : Int) :
    (Request.set key value ttlMs).Handled server numShards now clock :=
  handled_withShard hn rfl rfl (fun _ _ => rfl) rfl rfl (map_withShard _ key _ _ _)

theorem handled_delete (hn : 1 ≤ numShards) (key : GoString) :
    (Request.delete key).Handled server numShards now clock :=
  handled_withShard hn rfl rfl (fun _ _ => rfl) rfl rfl (map_withShard _ key _ _ _)

theorem handled_getShardContents_iff (shard : Int) :
    (Request.getShardContents shard).Handled server numShards now clock ↔
      int32 shard ∈ server.availableShards := by
  rw [← AList.lookup_isSome]
  constructor
  · rintro ⟨server', reply, hserve, _⟩
    simp only [KvServerImpl.serve, KvServerImpl.getShardContents] at hserve
    split at hserve
    · cases hserve
    · simp [*]
  · intro hmem
    obtain ⟨data, hdata⟩ := Option.isSome_iff_exists.mp hmem
    refine ⟨server, _, by simp [KvServerImpl.serve, KvServerImpl.getShardContents, hdata]; rfl,
      .ok rfl ⟨int32 shard, AList.lookup_isSome.mp hmem, rfl⟩, fun hne => absurd rfl hne⟩

/-- A request is handled unless it is for the contents of a shard that is not hosted. -/
theorem request_handled_iff (hn : 1 ≤ numShards) (server : KvServerImpl) (now : Int)
    (clock : GoString → Int × Int) (r : Request) :
    r.Handled server numShards now clock ↔
      ∀ shard, r = .getShardContents shard → int32 shard ∈ server.availableShards := by
  cases r with
  | get key => simp [handled_get hn]
  | set key value ttlMs => simp [handled_set hn]
  | delete key => simp [handled_delete hn]
  | getShardContents shard => simp [handled_getShardContents_iff]

/-- Node 1 hosts shard 2 with one entry, which expires after a second. -/
def oneEntry : KvServerImpl :=
  ⟨[1], AList.singleton 2 ⟨AList.singleton [2] ⟨[7], 1000, 0⟩⟩⟩

/-- The entry is read, and is copied with what is left of its TTL after 400 ms. -/
theorem request_handled_hosted :
    ((Request.get [2]).Handled oneEntry 2 0 (fun _ => (0, 0)) ∧
      (oneEntry.serve 2 0 (fun _ => (0, 0)) (.get [2])).map Prod.snd =
        some ⟨some (.get ⟨[7], true⟩), none⟩) ∧
    (Request.getShardContents 2).Handled oneEntry 2 0 (fun _ => (0, 400000000)) ∧
      (oneEntry.serve 2 0 (fun _ => (0, 400000000)) (.getShardContents 2)).map Prod.snd =
        some ⟨some (.getShardContents [⟨[2], [7], 600⟩]), none⟩ := by
  refine ⟨⟨?_, rfl⟩, ?_, rfl⟩
  · exact (request_handled_iff (by decide) _ _ _ _).mpr fun shard h => by cases h
  · refine (request_handled_iff (by decide) _ _ _ _).mpr fun shard h => ?_
    obtain rfl := Request.getShardContents.inj h
    decide

/-- A node without shards is asked for the contents of shard 1. -/
theorem contents_of_missing_shard :
    (⟨[1], ∅⟩ : KvServerImpl).serve 5 0 (fun _ => (0, 0)) (.getShardContents 1) = none ∧
      ¬ (Request.getShardContents 1).Handled ⟨[1], ∅⟩ 5 0 (fun _ => (0, 0)) := by
  refine ⟨rfl, ?_⟩
  rintro ⟨server', reply, hserve, _⟩
  cases hserve

end Requests

end KvLab
