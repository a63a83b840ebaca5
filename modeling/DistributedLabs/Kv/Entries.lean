import DistributedLabs.Kv.Server

/-!
What a server holds under a key, and how its requests and its cleaners change it. A
request for a key of a hosted shard reads or writes the entry of that key and nothing
else.
-/

namespace KvLab

/-- The index into `availableShards` for a key. -/
def shardFor (key : GoString) (numShards : Int) : Option Int :=
  (getShardForKey key numShards).map int32

section Live

open GoTime

variable {item : CacheItem} {entry : Option CacheItem} {now now' : Int}

theorem CacheItem.expired_mono (h : now ≤ now') (he : item.expired now = true) :
    item.expired now' = true := by
  simp only [CacheItem.expired, decide_eq_true_eq] at he ⊢
  exact Int.le_trans he (milliseconds_timeSub_mono h)

/-- What is left of an entry that may have expired. -/
def live (now : Int) (entry : Option CacheItem) : Option CacheItem :=
  entry.filter fun item => !item.expired now

theorem live_eq_some : live now entry = some item ↔
    entry = some item ∧ item.expired now = false := by
  simp [live, Option.filter_eq_some_iff]

theorem live_live (h : now ≤ now') : live now' (live now entry) = live now' entry := by
  ext item
  simp only [live_eq_some]
  constructor
  · exact fun hl => ⟨hl.1.1, hl.2⟩
  · rintro ⟨hentry, hexp⟩
    refine ⟨⟨hentry, ?_⟩, hexp⟩
    cases hnow : item.expired now with
    | false => rfl
    | true => rw [CacheItem.expired_mono h hnow] at hexp; cases hexp

theorem live_congr {entry' : Option CacheItem} (h : now ≤ now')
    (he : live now entry' = live now entry) : live now' entry' = live now' entry := by
  rw [← live_live h, he, live_live h]

end Live

/-- The answer of `Get` to an entry. -/
def response (now : Int) : Option CacheItem → GetResponse
  | none => ⟨[], false⟩
  | some item => if item.expired now then ⟨[], false⟩ else ⟨item.value, true⟩

theorem response_eq_live {now : Int} {entry : Option CacheItem} :
    response now entry = match live now entry with
      | none => ⟨[], false⟩
      | some item => ⟨item.value, true⟩ := by
  cases entry with
  | none => rfl
  | some item =>
      simp only [response, live, Option.filter_some]
      cases item.expired now with
      | false => rfl
      | true => rfl

theorem response_found {now : Int} {entry : Option CacheItem} {value : GoString} :
    response now entry = ⟨value, true⟩ ↔
      ∃ item, live now entry = some item ∧ item.value = value := by
  rw [response_eq_live]
  cases live now entry with
  | none => simp
  | some item => simp

namespace ShardData

variable {data : ShardData} {key : GoString} {now : Int}

theorem get_eq_response : data.get key now = response now (data.data.lookup key) := by
  cases h : data.data.lookup key with
  | none => simp only [get, response, h]
  | some item => simp only [get, response, h]

theorem lookup_set {k value : GoString} {ttlMs : Int} :
    (data.set key value ttlMs now).data.lookup k =
      if k = key then some ⟨value, ttlMs, now⟩ else data.data.lookup k := by
  rcases eq_or_ne k key with rfl | hne
  · rw [if_pos rfl, set, AList.lookup_insert]
  · rw [if_neg hne, set, AList.lookup_insert_ne hne]

theorem lookup_delete {k : GoString} :
    (data.delete key).data.lookup k = if k = key then none else data.data.lookup k := by
  rcases eq_or_ne k key with rfl | hne
  · rw [if_pos rfl, delete, AList.lookup_erase]
  · rw [if_neg hne, delete, AList.lookup_erase_ne hne]

/-- The cleaner deletes the expired entries. -/
theorem lookup_clean : (data.clean now).data.lookup key = live now (data.data.lookup key) := by
  have hfold : (data.clean now).data.lookup key =
      if ∃ e ∈ GoMap.items data.data, e.1 = key ∧ e.2.expired now = true then none
      else data.data.lookup key :=
    GoMap.lookup_foldl_erase
  rw [hfold]
  cases hl : data.data.lookup key with
  | none => simp [live]
  | some item =>
      have hiff : (∃ e ∈ GoMap.items data.data, e.1 = key ∧ e.2.expired now = true) ↔
          item.expired now = true := by
        constructor
        · rintro ⟨⟨k, other⟩, hmem, rfl, hexp⟩
          obtain rfl := Option.some.inj (hl.symm.trans (GoMap.mem_items.mp hmem))
          exact hexp
        · exact fun hexp => ⟨(key, item), GoMap.mem_items.mpr hl, rfl, hexp⟩
      simp only [hiff, live, Option.filter_some, Bool.not_eq_true']
      cases item.expired now with
      | false => rfl
      | true => rfl

/-- The values of a shard are the entries that have not expired. -/
theorem mem_contents {clock : GoString → Int × Int} {v : GetShardValue} :
    v ∈ data.contents clock ↔ ∃ item, live (clock v.key).1 (data.data.lookup v.key) =
      some item ∧ v = ⟨v.key, item.value, item.ttl - item.elapsed (clock v.key).2⟩ := by
  simp only [contents, List.mem_filterMap, live_eq_some, ← GoMap.mem_items]
  constructor
  · rintro ⟨⟨k, item⟩, hmem, hv⟩
    split at hv <;> cases hv
    rename_i hlt
    exact ⟨item, ⟨hmem, by simpa [CacheItem.expired] using hlt⟩, rfl⟩
  · rintro ⟨item, ⟨hmem, hexp⟩, hv⟩
    refine ⟨(v.key, item), hmem, ?_⟩
    rw [if_pos (by simpa [CacheItem.expired] using hexp), ← hv]

theorem nodup_contents_keys {clock : GoString → Int × Int} :
    ((data.contents clock).map (·.key)).Nodup := by
  refine List.pairwise_map.mpr
    ((List.pairwise_map.mp (GoMap.nodup_items data.data)).filterMap _ ?_)
  intro e e' hne v hv v' hv'
  simp only [Option.ite_none_right_eq_some, Option.some.injEq] at hv hv'
  obtain ⟨_, rfl⟩ := hv
  obtain ⟨_, rfl⟩ := hv'
  exact hne

theorem nodup_contents {clock : GoString → Int × Int} : (data.contents clock).Nodup :=
  nodup_contents_keys.of_map _

/-- Shards with the same entries, expired ones apart, have the same values. -/
theorem contents_perm {data' : ShardData} {clock : GoString → Int × Int}
    (hc : ∀ k, now ≤ (clock k).1)
    (h : ∀ k, live now (data'.data.lookup k) = live now (data.data.lookup k)) :
    (data'.contents clock).Perm (data.contents clock) := by
  refine (List.perm_ext_iff_of_nodup nodup_contents nodup_contents).mpr fun v => ?_
  simp only [mem_contents, live_congr (hc v.key) (h v.key)]

end ShardData

namespace Request

/-- The key that a request writes. -/
def written : Request → Option GoString
  | .set key _ _ | .delete key => some key
  | .get _ | .getShardContents _ => none

/-- The entry that a write leaves. -/
def leaves (now : Int) : Request → Option CacheItem
  | .set _ value ttlMs => some ⟨value, ttlMs, now⟩
  | .get _ | .delete _ | .getShardContents _ => none

end Request

namespace KvServerImpl

variable {server server' : KvServerImpl} {numShards now shard : Int} {key : GoString}
  {clock : GoString → Int × Int} {data : ShardData}

/-- The entry of a key, if its shard is hosted. -/
def held (server : KvServerImpl) (numShards : Int) (key : GoString) : Option CacheItem :=
  (shardFor key numShards).bind fun shard =>
    (server.availableShards.lookup shard).bind fun data => data.data.lookup key

/-- The shard of the key is hosted. -/
def Hosts (server : KvServerImpl) (numShards : Int) (key : GoString) : Prop :=
  ∃ shard, shardFor key numShards = some shard ∧ shard ∈ server.availableShards

theorem mem_of_lookup (h : server.availableShards.lookup shard = some data) :
    shard ∈ server.availableShards :=
  AList.lookup_isSome.mp (by rw [h]; rfl)

theorem mem_update {other : Int} (h : other ∈ server.availableShards) :
    shard ∈ (server.update other data).availableShards ↔ shard ∈ server.availableShards := by
  simp only [update, AList.mem_insert]
  constructor
  · rintro (rfl | hs)
    · exact h
    · exact hs
  · exact Or.inr

theorem Hosts.exists_data (h : server.Hosts numShards key) :
    ∃ shard data, shardFor key numShards = some shard ∧
      server.availableShards.lookup shard = some data := by
  obtain ⟨shard, hs, hmem⟩ := h
  obtain ⟨data, hl⟩ := Option.isSome_iff_exists.mp (AList.lookup_isSome.mpr hmem)
  exact ⟨shard, data, hs, hl⟩

theorem Hosts.congr (hm : ∀ shard, shard ∈ server'.availableShards ↔
    shard ∈ server.availableShards) (h : server.Hosts numShards key) :
    server'.Hosts numShards key := by
  obtain ⟨shard, hs, hmem⟩ := h
  exact ⟨shard, hs, (hm shard).mpr hmem⟩

theorem held_eq (hs : shardFor key numShards = some shard)
    (hl : server.availableShards.lookup shard = some data) :
    server.held numShards key = data.data.lookup key := by
  rw [held, hs, Option.bind_some, hl, Option.bind_some]

theorem held_update {key : GoString} :
    (server.update shard data).held numShards key =
      if shardFor key numShards = some shard then data.data.lookup key
      else server.held numShards key := by
  simp only [held, update]
  cases hs : shardFor key numShards with
  | none => simp
  | some other =>
      simp only [Option.bind_some, Option.some.injEq]
      rcases eq_or_ne other shard with rfl | hne
      · rw [if_pos rfl, AList.lookup_insert, Option.bind_some]
      · rw [if_neg hne, AList.lookup_insert_ne hne]

/-- The same shards, and the entry of one key replaced. -/
structure Wrote (server server' : KvServerImpl) (numShards : Int) (key : GoString)
    (item : Option CacheItem) : Prop where
  shards : ∀ shard, shard ∈ server'.availableShards ↔ shard ∈ server.availableShards
  self : server'.held numShards key = item
  other : ∀ k, k ≠ key → server'.held numShards k = server.held numShards k

theorem wrote_update {data' : ShardData} {item : Option CacheItem}
    (hs : shardFor key numShards = some shard)
    (hl : server.availableShards.lookup shard = some data)
    (hdata : ∀ k, data'.data.lookup k = if k = key then item else data.data.lookup k) :
    Wrote server (server.update shard data') numShards key item := by
  refine ⟨fun _ => mem_update (mem_of_lookup hl), ?_, ?_⟩
  · rw [held_update, if_pos hs, hdata, if_pos rfl]
  · intro k hk
    rw [held_update, hdata, if_neg hk]
    split
    · rename_i hsk
      exact (held_eq hsk hl).symm
    · rfl

theorem withShard_hosted {ρ : Type} {empty missing : ρ} {hosted : Int → ShardData → ρ}
    (hk : key ≠ []) (hs : shardFor key numShards = some shard)
    (hl : server.availableShards.lookup shard = some data) :
    server.withShard numShards key empty missing hosted = some (hosted shard data) := by
  obtain ⟨shardID, hid, rfl⟩ := Option.map_eq_some_iff.mp hs
  simp only [withShard, if_neg hk, hid, hl]

theorem withShard_missing {ρ : Type} {empty missing : ρ} {hosted : Int → ShardData → ρ}
    (hk : key ≠ []) (hs : shardFor key numShards = some shard)
    (hl : shard ∉ server.availableShards) :
    server.withShard numShards key empty missing hosted = some missing := by
  obtain ⟨shardID, hid, rfl⟩ := Option.map_eq_some_iff.mp hs
  simp only [withShard, if_neg hk, hid, AList.lookup_eq_none.mpr hl]

/-- How a request with a key was answered. -/
theorem withShard_eq_some {ρ : Type} {empty missing x : ρ} {hosted : Int → ShardData → ρ}
    (h : server.withShard numShards key empty missing hosted = some x) :
    (x = empty ∧ key = []) ∨ (x = missing ∧ ¬ server.Hosts numShards key) ∨
      ∃ shard data, key ≠ [] ∧ shardFor key numShards = some shard ∧
        server.availableShards.lookup shard = some data ∧ x = hosted shard data := by
  simp only [withShard] at h
  split at h
  · exact Or.inl ⟨(Option.some.inj h).symm, ‹_›⟩
  · split at h
    · cases h
    · rename_i hk _ shardID hid
      have hs : shardFor key numShards = some (int32 shardID) := by
        rw [shardFor, hid]
        rfl
      split at h
      · rename_i hl
        refine Or.inr (Or.inl ⟨(Option.some.inj h).symm, ?_⟩)
        rintro ⟨shard, hshard, hmem⟩
        obtain rfl := Option.some.inj (hs.symm.trans hshard)
        exact AList.lookup_eq_none.mp hl hmem
      · rename_i data hl
        exact Or.inr (Or.inr ⟨_, data, hk, hs, hl, (Option.some.inj h).symm⟩)

theorem get_hosted (hk : key ≠ []) (h : server.Hosts numShards key) :
    server.get numShards key now =
      some ⟨some (response now (server.held numShards key)), none⟩ := by
  obtain ⟨shard, data, hs, hl⟩ := h.exists_data
  rw [get, withShard_hosted hk hs hl, held_eq hs hl, ShardData.get_eq_response]

theorem serve_get (hk : key ≠ []) (h : server.Hosts numShards key) :
    server.serve numShards now clock (.get key) =
      some (server, ⟨some (.get (response now (server.held numShards key))), none⟩) := by
  rw [serve, get_hosted hk h]
  rfl

theorem serve_set {value : GoString} {ttlMs : Int} (hk : key ≠ [])
    (h : server.Hosts numShards key) :
    ∃ server', server.serve numShards now clock (.set key value ttlMs) =
        some (server', ⟨some .set, none⟩) ∧
      Wrote server server' numShards key (some ⟨value, ttlMs, now⟩) := by
  obtain ⟨shard, data, hs, hl⟩ := h.exists_data
  refine ⟨_, ?_, wrote_update hs hl fun k => ShardData.lookup_set⟩
  rw [serve, set, withShard_hosted hk hs hl]
  rfl

theorem serve_delete (hk : key ≠ []) (h : server.Hosts numShards key) :
    ∃ server', server.serve numShards now clock (.delete key) =
        some (server', ⟨some .delete, none⟩) ∧
      Wrote server server' numShards key none := by
  obtain ⟨shard, data, hs, hl⟩ := h.exists_data
  refine ⟨_, ?_, wrote_update hs hl fun k => ShardData.lookup_delete⟩
  rw [serve, delete, withShard_hosted hk hs hl]
  rfl

/-- A request that writes a key does so in the data of the key's shard, if that is here. -/
theorem withShard_write_cases {x : KvServerImpl × Reply Unit} {empty missing done : Reply Unit}
    {write : ShardData → ShardData} {item : Option CacheItem}
    (hwrite : ∀ data k, (write data).data.lookup k =
      if k = key then item else data.data.lookup k)
    (h : server.withShard numShards key (server, empty) (server, missing)
      (fun shard data => (server.update shard (write data), done)) = some x) :
    (x.1 = server ∧ (key ≠ [] → ¬ server.Hosts numShards key)) ∨
      ∃ shard data data', key ≠ [] ∧ shardFor key numShards = some shard ∧
        server.availableShards.lookup shard = some data ∧
        x.1 = server.update shard data' ∧
        ∀ k, data'.data.lookup k = if k = key then item else data.data.lookup k := by
  rcases withShard_eq_some h with ⟨rfl, hk⟩ | ⟨rfl, hno⟩ | ⟨shard, data, hk, hs, hl, rfl⟩
  · exact Or.inl ⟨rfl, fun hne => absurd hk hne⟩
  · exact Or.inl ⟨rfl, fun _ => hno⟩
  · exact Or.inr ⟨shard, data, _, hk, hs, hl, rfl, hwrite data⟩

/-- A request replaces the entry of the key that it writes, in the data of the shard of
that key, or it changes nothing. -/
theorem serve_cases {r : Request} {reply : Reply Response}
    (h : server.serve numShards now clock r = some (server', reply)) :
    (server' = server ∧
      ∀ key, r.written = some key → key ≠ [] → ¬ server.Hosts numShards key) ∨
    ∃ key shard data data', r.written = some key ∧ key ≠ [] ∧
      shardFor key numShards = some shard ∧
      server.availableShards.lookup shard = some data ∧
      server' = server.update shard data' ∧
      ∀ k, data'.data.lookup k = if k = key then r.leaves now else data.data.lookup k := by
  cases r with
  | get key | getShardContents shard =>
      obtain ⟨_, _, heq⟩ := Option.map_eq_some_iff.mp h
      cases heq
      exact Or.inl ⟨rfl, fun _ hw => nomatch hw⟩
  | set key value ttlMs =>
      obtain ⟨x, hx, heq⟩ := Option.map_eq_some_iff.mp h
      cases heq
      rcases withShard_write_cases (fun data k => ShardData.lookup_set) hx with
        ⟨hsame, hno⟩ | ⟨shard, data, data', hwrites⟩
      · exact Or.inl ⟨hsame, fun k hw => Option.some.inj hw ▸ hno⟩
      · exact Or.inr ⟨key, shard, data, data', rfl, hwrites⟩
  | delete key =>
      obtain ⟨x, hx, heq⟩ := Option.map_eq_some_iff.mp h
      cases heq
      rcases withShard_write_cases (fun data k => ShardData.lookup_delete) hx with
        ⟨hsame, hno⟩ | ⟨shard, data, data', hwrites⟩
      · exact Or.inl ⟨hsame, fun k hw => Option.some.inj hw ▸ hno⟩
      · exact Or.inr ⟨key, shard, data, data', rfl, hwrites⟩

/-- A tick of a cleaner keeps an entry or deletes it because it has expired. -/
theorem held_clean (numShards : Int) (h : server.clean shard now = some server') :
    (∀ other, other ∈ server'.availableShards ↔ other ∈ server.availableShards) ∧
    ∀ k, server'.held numShards k = server.held numShards k ∨
      server'.held numShards k = none ∧
        ∃ item, server.held numShards k = some item ∧ item.expired now = true := by
  obtain ⟨data, hl, rfl⟩ := Option.map_eq_some_iff.mp h
  refine ⟨fun _ => mem_update (mem_of_lookup hl), fun k => ?_⟩
  rw [held_update]
  split
  · rename_i hs
    rw [held_eq hs hl, ShardData.lookup_clean, live]
    cases data.data.lookup k with
    | none => exact Or.inl rfl
    | some item =>
        cases hexp : item.expired now with
        | false => exact Or.inl (by simp [hexp])
        | true => exact Or.inr ⟨by simp [hexp], item, rfl, hexp⟩
  · exact Or.inl rfl

end KvServerImpl

end KvLab
