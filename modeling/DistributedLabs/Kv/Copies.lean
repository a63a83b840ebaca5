import DistributedLabs.Kv.Cluster

/-!
What a handler does to the entries of a shard: the values that a peer returns are the
entries that it stores, and registering, inserting, removing and cleaning neither move a
key to another shard nor give it another value.
-/

namespace KvLab

/-- The value does not contradict the entries. -/
def GetShardValue.Faithful (entries : List (GoString × GoString)) (v : GetShardValue) : Prop :=
  ∀ e ∈ entries, v.key = e.1 → v.value = e.2

namespace KvServerImpl

variable {server server' : KvServerImpl} {numShards shard now : Int}
  {entries : List (GoString × GoString)} {sm : ShardMapState}

/-- Every key is stored in its own shard. -/
def Filed (server : KvServerImpl) (numShards : Int) : Prop :=
  ∀ shard data, server.availableShards.lookup shard = some data →
    ∀ key item, data.data.lookup key = some item → shardFor key numShards = some shard

/-- What the server stores does not contradict the entries. -/
def Consistent (server : KvServerImpl) (numShards : Int)
    (entries : List (GoString × GoString)) : Prop :=
  ∀ e ∈ entries, ∀ item, server.held numShards e.1 = some item → item.value = e.2

theorem Holds.consistent (h : server.Holds numShards entries) :
    server.Consistent numShards entries := by
  intro e he item hitem
  have hvalue := h e he
  rw [hitem] at hvalue
  exact Option.some.inj hvalue

theorem Holds.congr (hh : server.Holds numShards entries)
    (h : ∀ e ∈ entries, server'.held numShards e.1 = server.held numShards e.1) :
    server'.Holds numShards entries := by
  intro e he
  rw [h e he]
  exact hh e he

theorem filed_update {data : ShardData} (h : server.Filed numShards)
    (hd : ∀ key item, data.data.lookup key = some item → shardFor key numShards = some shard) :
    (server.update shard data).Filed numShards := by
  intro other data' hl key item hitem
  rcases eq_or_ne other shard with rfl | hne
  · obtain rfl := Option.some.inj ((AList.lookup_insert _).symm.trans hl)
    exact hd key item hitem
  · exact h other data' ((AList.lookup_insert_ne hne).symm.trans hl) key item hitem

theorem filed_register {added : List Int} (h : server.Filed numShards) :
    (server.register added).Filed numShards := by
  intro other data hl key item hitem
  rw [lookup_register] at hl
  split at hl
  · obtain rfl := Option.some.inj hl
    cases hitem
  · exact h other data hl key item hitem

theorem held_register {added : List Int} {key : GoString} :
    (server.register added).held numShards key = server.held numShards key ∨
      (server.register added).held numShards key = none := by
  simp only [held]
  cases shardFor key numShards with
  | none => exact Or.inl rfl
  | some other =>
      simp only [Option.bind_some, lookup_register]
      split
      · exact Or.inr rfl
      · exact Or.inl rfl

theorem held_register_of_notMem {added : List Int} {key : GoString}
    (hs : shardFor key numShards = some shard) (h : shard ∉ added) :
    (server.register added).held numShards key = server.held numShards key := by
  simp only [held, hs, Option.bind_some, lookup_register, if_neg h]

/-- A value is stored under its key. -/
theorem insertValue_wrote {v : GetShardValue}
    (h : server.insertValue sm v now = .ok server') :
    server.Wrote server' sm.numShards v.key (some ⟨v.value, v.ttlMsRemaining, now⟩) := by
  obtain ⟨shard, data, hs, hl, rfl⟩ := insertValue_eq h
  exact wrote_update hs hl fun k => ShardData.lookup_set

theorem filed_insertValue {v : GetShardValue} (hf : server.Filed sm.numShards)
    (h : server.insertValue sm v now = .ok server') : server'.Filed sm.numShards := by
  obtain ⟨shard, data, hs, hl, rfl⟩ := insertValue_eq h
  refine filed_update hf fun key item hitem => ?_
  rw [ShardData.lookup_set] at hitem
  split at hitem
  · rename_i hkey
    rw [hkey]
    exact hs
  · exact hf shard data hl key item hitem

theorem filed_removeShard (hf : server.Filed numShards)
    (h : server.removeShard shard = .ok server') : server'.Filed numShards := by
  intro other data hl key item hitem
  rcases eq_or_ne other shard with rfl | hne
  · rw [removeShard_eq h, AList.lookup_erase] at hl
    cases hl
  · rw [lookup_removeShard h hne] at hl
    exact hf other data hl key item hitem

theorem held_removeShard {key : GoString} (h : server.removeShard shard = .ok server') :
    server'.held numShards key = if shardFor key numShards = some shard then none
      else server.held numShards key := by
  simp only [held]
  cases shardFor key numShards with
  | none => rfl
  | some other =>
      simp only [Option.bind_some, Option.some.injEq]
      rcases eq_or_ne other shard with rfl | hne
      · rw [if_pos rfl, removeShard_eq h, AList.lookup_erase]
        rfl
      · rw [if_neg hne, lookup_removeShard h hne]

theorem held_removeShard_of_ne {key : GoString} {gone : Int}
    (hs : shardFor key numShards = some shard) (hne : shard ≠ gone)
    (h : server.removeShard gone = .ok server') :
    server'.held numShards key = server.held numShards key := by
  rw [held_removeShard h, hs]
  exact if_neg fun heq => hne (Option.some.inj heq)

theorem filed_serve {clock : GoString → Int × Int} {r : Request} {reply : Reply Response}
    (hf : server.Filed numShards)
    (h : server.serve numShards now clock r = some (server', reply)) :
    server'.Filed numShards := by
  cases serve_cases h with
  | inl hsame =>
      rw [hsame.1]
      exact hf
  | inr hwrote =>
      obtain ⟨key, shard, data, data', _, _, hs, hl, rfl, hdata⟩ := hwrote
      refine filed_update hf fun k item hitem => ?_
      rw [hdata] at hitem
      split at hitem
      · rename_i hkey
        rwa [hkey]
      · exact hf shard data hl k item hitem

theorem filed_clean (hf : server.Filed numShards) (h : server.clean shard now = some server') :
    server'.Filed numShards := by
  obtain ⟨data, hl, rfl⟩ := Option.map_eq_some_iff.mp h
  refine filed_update hf fun key item hitem => ?_
  rw [ShardData.lookup_clean] at hitem
  exact hf shard data hl key item (live_eq_some.mp hitem).1

/-- What a peer answers does not contradict the entries. -/
theorem getShardContents_faithful {clock : GoString → Int × Int}
    {reply : Reply (List GetShardValue)} (hf : server.Filed numShards)
    (hc : server.Consistent numShards entries)
    (h : server.getShardContents shard clock = some reply) :
    ∃ data, server.availableShards.lookup (int32 shard) = some data ∧
      reply = ⟨some (data.contents clock), none⟩ ∧
      ∀ v ∈ data.contents clock, v.Faithful entries := by
  simp only [getShardContents] at h
  split at h <;> cases h
  rename_i data hl
  refine ⟨data, hl, rfl, fun v hv e he hkey => ?_⟩
  obtain ⟨item, hlive, hv⟩ := ShardData.mem_contents.mp hv
  obtain ⟨hitem, _⟩ := live_eq_some.mp hlive
  have hheld := held_eq (hf _ data hl v.key item hitem) hl
  rw [hitem, hkey] at hheld
  rw [hv]
  exact hc e he item hheld

/-- A peer that holds the entries answers with all of them. -/
theorem Holds.contents {clock : GoString → Int × Int} {data : ShardData}
    (h : server.Holds numShards entries)
    (hs : ∀ e ∈ entries, shardFor e.1 numShards = some shard)
    (hl : server.availableShards.lookup shard = some data)
    (hu : ∀ e ∈ entries, ∀ item, server.held numShards e.1 = some item →
      item.expired (clock e.1).1 = false) :
    ∀ e ∈ entries, ∃ v ∈ data.contents clock, v.key = e.1 := by
  intro e he
  obtain ⟨item, hitem, _⟩ := Option.map_eq_some_iff.mp (h e he)
  have hlive := hu e he item hitem
  rw [held_eq (hs e he) hl] at hitem
  exact ⟨⟨e.1, item.value, item.ttl - item.elapsed (clock e.1).2⟩,
    ShardData.mem_contents.mpr ⟨item, live_eq_some.mpr ⟨hitem, hlive⟩, rfl⟩, rfl⟩

theorem Consistent.of_held (hc : server.Consistent numShards entries)
    (h : ∀ key, server'.held numShards key = server.held numShards key ∨
      server'.held numShards key = none) : server'.Consistent numShards entries := by
  intro e he item hitem
  rcases h e.1 with heq | hnone
  · exact hc e he item (heq ▸ hitem)
  · rw [hnone] at hitem
    cases hitem

theorem Consistent.insertValue {v : GetShardValue}
    (hc : server.Consistent sm.numShards entries) (hv : v.Faithful entries)
    (h : server.insertValue sm v now = .ok server') :
    server'.Consistent sm.numShards entries := by
  have hwrote := insertValue_wrote h
  intro e he item hitem
  rcases eq_or_ne e.1 v.key with heq | hne
  · rw [heq, hwrote.self] at hitem
    cases hitem
    exact hv e he heq.symm
  · rw [hwrote.other e.1 hne] at hitem
    exact hc e he item hitem

end KvServerImpl

end KvLab
