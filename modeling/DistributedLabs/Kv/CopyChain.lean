import DistributedLabs.Kv.Copies

/-!
An entry that is copied from server to server. Every copy reads what is left of the TTL,
in whole milliseconds, and starts the clock again where it is stored. The instant at which
the entry is gone moves by the time between reading and storing and by less than one
millisecond for the truncation, and it never moves back.
-/

namespace KvLab

open GoTime

/-- The instant from which an entry is expired. -/
def CacheItem.deadline (item : CacheItem) : Int := item.timeElapsed + item.ttl * 1000000

section Deadline

variable {item : CacheItem} {u t : Reading}

theorem CacheItem.elapsed_eq (hu : item.timeElapsed = u.ns) (h : u.ns ≤ t.ns) :
    item.elapsed t.ns = (t.ns - u.ns) / 1000000 := by
  rw [CacheItem.elapsed, hu, Reading.milliseconds_timeSub h]

theorem CacheItem.expired_iff (hu : item.timeElapsed = u.ns) (h : u.ns ≤ t.ns) :
    item.expired t.ns = true ↔ item.deadline ≤ t.ns := by
  simp only [CacheItem.expired, CacheItem.elapsed_eq hu h, CacheItem.deadline, hu,
    decide_eq_true_eq]
  omega

/-- One copy of the entry, read at `r` and stored at `s`. -/
theorem deadline_copy {r s : Reading} (hu : item.timeElapsed = u.ns) (hr : u.ns ≤ r.ns) :
    item.deadline + (s.ns - r.ns) ≤
      (⟨item.value, item.ttl - item.elapsed r.ns, s.ns⟩ : CacheItem).deadline ∧
    (⟨item.value, item.ttl - item.elapsed r.ns, s.ns⟩ : CacheItem).deadline <
      item.deadline + (s.ns - r.ns) + 1000000 := by
  simp only [CacheItem.deadline, CacheItem.elapsed_eq hu hr, hu]
  omega

end Deadline

/-- The values of a response are inserted one after the other. -/
def KvServerImpl.store (sm : ShardMapState) (times : GoString → Reading) :
    List GetShardValue → KvServerImpl → Except Panic KvServerImpl
  | [], server => .ok server
  | v :: values, server =>
      match server.insertValue sm v (times v.key).ns with
      | .error panic => .error panic
      | .ok server => server.store sm times values

/-- The server that got the last copy. `spent` is the time between reading and storing,
over all copies. -/
structure Chain where
  server : KvServerImpl
  now : Reading
  spent : Int
  hops : Nat

inductive ChainEvent where
  | tick (now : Reading)
  | clean (shard : Int)
  | request (r : Request) (clock : GoString → Int × Int)
  | copy (target : KvServerImpl) (shard : Int) (clock : GoString → Reading × Reading)
      (times : GoString → Reading) (now : Reading)

namespace Chain

variable (s : Chain) (sm : ShardMapState) (key : GoString)

def copy (target : KvServerImpl) (shard : Int) (clock : GoString → Reading × Reading)
    (times : GoString → Reading) (now : Reading) : Option Chain :=
  match s.server.getShardContents shard fun k => ((clock k).1.ns, (clock k).2.ns) with
  | some ⟨some values, none⟩ =>
      match target.store sm times values with
      | .error _ => none
      | .ok server => some ⟨server, now, s.spent + ((times key).ns - (clock key).2.ns), s.hops + 1⟩
  | _ => none

def step : ChainEvent → Option Chain
  | .tick now => some { s with now }
  | .clean shard => (s.server.clean shard s.now.ns).map fun server => { s with server }
  | .request r clock => (s.server.serve sm.numShards s.now.ns clock r).map fun (server, _) =>
      { s with server }
  | .copy target shard clock times now => s.copy sm key target shard clock times now

/-- The clock does not go back, the key is not written, and a copy of its shard goes to a
server that hosts the shard without the key. -/
def Undisturbed : ChainEvent → Prop
  | .tick now => s.now.ns ≤ now.ns
  | .clean _ => True
  | .request r _ => r.written ≠ some key
  | .copy target shard clock times now =>
      shardFor key sm.numShards = some (int32 shard) ∧
      int32 shard ∈ target.availableShards ∧ target.held sm.numShards key = none ∧
      s.now.ns ≤ (clock key).1.ns ∧ (clock key).1.ns ≤ (clock key).2.ns ∧
      (clock key).2.ns ≤ (times key).ns ∧ (times key).ns ≤ now.ns

instance (e : ChainEvent) : Decidable (s.Undisturbed sm key e) :=
  match e with
  | .tick now => inferInstanceAs (Decidable (s.now.ns ≤ now.ns))
  | .clean _ => isTrue trivial
  | .request r _ => inferInstanceAs (Decidable (r.written ≠ some key))
  | .copy _ _ _ _ _ => inferInstanceAs (Decidable (_ ∧ _ ∧ _ ∧ _ ∧ _ ∧ _ ∧ _))

end Chain

/-- The chain starts on the server on which the key was set. -/
def chain (sm : ShardMapState) (key : GoString) (server : KvServerImpl) (start : Reading) :
    Machine Chain ChainEvent where
  init := ⟨server, start, 0, 0⟩
  step s e := s.step sm key e

section Store

variable {sm : ShardMapState} {times : GoString → Reading} {values : List GetShardValue}
  {server server' : KvServerImpl} {key : GoString}

theorem store_cons {v : GetShardValue}
    (h : server.store sm times (v :: values) = .ok server') :
    ∃ server₁, server.insertValue sm v (times v.key).ns = .ok server₁ ∧
      server₁.store sm times values = .ok server' := by
  simp only [KvServerImpl.store] at h
  split at h
  · cases h
  · exact ⟨_, ‹_›, h⟩

theorem store_shards (h : server.store sm times values = .ok server') :
    ∀ shard, shard ∈ server'.availableShards ↔ shard ∈ server.availableShards := by
  induction values generalizing server with
  | nil =>
      cases h
      exact fun _ => Iff.rfl
  | cons v values ih =>
      obtain ⟨server₁, hinsert, hrest⟩ := store_cons h
      exact fun shard =>
        (ih hrest shard).trans ((KvServerImpl.insertValue_wrote hinsert).shards shard)

theorem held_store_notMem (h : server.store sm times values = .ok server')
    (hk : key ∉ values.map (·.key)) :
    server'.held sm.numShards key = server.held sm.numShards key := by
  induction values generalizing server with
  | nil =>
      cases h
      rfl
  | cons v values ih =>
      rw [List.map_cons, List.mem_cons, not_or] at hk
      obtain ⟨server₁, hinsert, hrest⟩ := store_cons h
      rw [ih hrest hk.2, (KvServerImpl.insertValue_wrote hinsert).other key hk.1]

theorem held_store_mem (h : server.store sm times values = .ok server')
    (hv : (values.map (·.key)).Nodup) {v : GetShardValue} (hmem : v ∈ values) :
    server'.held sm.numShards v.key =
      some ⟨v.value, v.ttlMsRemaining, (times v.key).ns⟩ := by
  induction values generalizing server with
  | nil => cases hmem
  | cons w values ih =>
      rw [List.map_cons, List.nodup_cons] at hv
      obtain ⟨server₁, hinsert, hrest⟩ := store_cons h
      cases hmem with
      | head =>
          rw [held_store_notMem hrest hv.1, (KvServerImpl.insertValue_wrote hinsert).self]
      | tail _ hmem => exact ih hrest hv.2 hmem

end Store

namespace Chain

variable {sm : ShardMapState} {key value : GoString} {ttlMs : Int} {start : Reading}
  {s s' : Chain}

/-- Where the deadline of an entry lies after the copies made so far; an entry that is
gone has outlived its TTL. -/
def Placed (value : GoString) (due : Int) (s : Chain) : Option CacheItem → Prop
  | none => due ≤ s.now.ns
  | some item => item.value = value ∧ due ≤ item.deadline ∧
      item.deadline ≤ due + s.spent + s.hops * 1000000 ∧
      ∃ u : Reading, item.timeElapsed = u.ns ∧ u.ns ≤ s.now.ns

/-- The last server hosts the shard of the key and has its entry in place. -/
structure Ok (sm : ShardMapState) (key value : GoString) (due : Int) (s : Chain) : Prop where
  nonempty : key ≠ []
  hosts : s.server.Hosts sm.numShards key
  placed : s.Placed value due (s.server.held sm.numShards key)

variable {due : Int}

theorem Placed.tick {entry : Option CacheItem} {now : Reading} (h : s.now.ns ≤ now.ns)
    (hp : s.Placed value due entry) : ({ s with now } : Chain).Placed value due entry := by
  cases entry with
  | none => exact Int.le_trans hp h
  | some item =>
      obtain ⟨hvalue, hle, hge, u, hu, hnow⟩ := hp
      exact ⟨hvalue, hle, hge, u, hu, Int.le_trans hnow h⟩

/-- An entry that has expired outlived its TTL. -/
theorem Placed.expired {item : CacheItem} {t : Reading} (hp : s.Placed value due (some item))
    (ht : s.now.ns ≤ t.ns) (h : item.expired t.ns = true) : due ≤ t.ns := by
  obtain ⟨_, hle, _, u, hu, hnow⟩ := hp
  exact Int.le_trans hle ((CacheItem.expired_iff hu (Int.le_trans hnow ht)).mp h)

theorem Ok.tick (hok : s.Ok sm key value due) {now : Reading} (h : s.now.ns ≤ now.ns) :
    ({ s with now } : Chain).Ok sm key value due :=
  ⟨hok.nonempty, hok.hosts, hok.placed.tick h⟩

theorem Ok.clean (hok : s.Ok sm key value due) {shard : Int} {cleaned : KvServerImpl}
    (h : s.server.clean shard s.now.ns = some cleaned) :
    ({ s with server := cleaned } : Chain).Ok sm key value due := by
  obtain ⟨hshards, hheld⟩ := KvServerImpl.held_clean sm.numShards h
  refine ⟨hok.nonempty, hok.hosts.congr hshards, ?_⟩
  have hp := hok.placed
  cases hheld key with
  | inl heq =>
      rw [heq]
      exact hp
  | inr hgone =>
      obtain ⟨hnone, item, hitem, hexp⟩ := hgone
      rw [hitem] at hp
      rw [hnone]
      exact hp.expired (Int.le_refl _) hexp

theorem Ok.request (hok : s.Ok sm key value due) {r : Request} {clock : GoString → Int × Int}
    {served : KvServerImpl} {reply : Reply Response} (hw : r.written ≠ some key)
    (h : s.server.serve sm.numShards s.now.ns clock r = some (served, reply)) :
    ({ s with server := served } : Chain).Ok sm key value due := by
  cases KvServerImpl.serve_cases h with
  | inl hsame =>
      obtain ⟨rfl, _⟩ := hsame
      exact ⟨hok.nonempty, hok.hosts, hok.placed⟩
  | inr hwrote =>
      obtain ⟨k, shard, data, data', hk, _, hs, hl, rfl, hdata⟩ := hwrote
      have hwrote := KvServerImpl.wrote_update hs hl hdata
      have hne : key ≠ k := fun heq => hw (heq ▸ hk)
      refine ⟨hok.nonempty, hok.hosts.congr hwrote.shards, ?_⟩
      rw [hwrote.other key hne]
      exact hok.placed

theorem copy_eq {target : KvServerImpl} {shard : Int} {clock : GoString → Reading × Reading}
    {times : GoString → Reading} {now : Reading}
    (h : s.copy sm key target shard clock times now = some s') :
    ∃ data server, s.server.availableShards.lookup (int32 shard) = some data ∧
      target.store sm times (data.contents fun k => ((clock k).1.ns, (clock k).2.ns)) =
        .ok server ∧
      s' = ⟨server, now, s.spent + ((times key).ns - (clock key).2.ns), s.hops + 1⟩ := by
  unfold copy KvServerImpl.getShardContents at h
  cases hl : s.server.availableShards.lookup (int32 shard) with
  | none =>
      rw [hl] at h
      cases h
  | some data =>
      simp only [hl] at h
      split at h
      · cases h
      · rename_i server hstore
        exact ⟨data, server, rfl, hstore, (Option.some.inj h).symm⟩

/-- An entry that a shard does not list has outlived its TTL. -/
theorem Placed.unlisted {entry : Option CacheItem} {t : Reading}
    (hp : s.Placed value due entry) (ht : s.now.ns ≤ t.ns) (h : live t.ns entry = none) :
    due ≤ t.ns := by
  cases entry with
  | none => exact Int.le_trans hp ht
  | some item =>
      refine hp.expired ht (Bool.of_not_eq_false fun hexp => ?_)
      rw [live_eq_some.mpr ⟨rfl, hexp⟩] at h
      cases h

theorem Ok.copy (hok : s.Ok sm key value due) {target : KvServerImpl} {shard : Int}
    {clock : GoString → Reading × Reading} {times : GoString → Reading} {now : Reading}
    (hu : s.Undisturbed sm key (.copy target shard clock times now))
    (h : s.copy sm key target shard clock times now = some s') :
    s'.Ok sm key value due := by
  obtain ⟨hshard, hmem, hfree, hnow, hread, hstored, hlast⟩ := hu
  obtain ⟨data, server, hl, hstore, rfl⟩ := copy_eq h
  refine ⟨hok.nonempty, ⟨int32 shard, hshard, (store_shards hstore _).mpr hmem⟩, ?_⟩
  have hp := hok.placed
  rw [KvServerImpl.held_eq hshard hl] at hp
  cases hlive : live (clock key).1.ns (data.data.lookup key) with
  | none =>
      -- The target has no entry of its own, so the key stays without one.
      have hunlisted : key ∉ (data.contents fun k => ((clock k).1.ns, (clock k).2.ns)).map
          (·.key) := by
        intro hk
        obtain ⟨v, hv, rfl⟩ := List.mem_map.mp hk
        obtain ⟨item, hitem, _⟩ := ShardData.mem_contents.mp hv
        rw [hlive] at hitem
        cases hitem
      rw [held_store_notMem hstore hunlisted, hfree]
      have hdue := hp.unlisted hnow hlive
      show due ≤ now.ns
      omega
  | some item =>
      have hmem : ⟨key, item.value, item.ttl - item.elapsed (clock key).2.ns⟩ ∈
          data.contents fun k => ((clock k).1.ns, (clock k).2.ns) :=
        ShardData.mem_contents.mpr ⟨item, hlive, rfl⟩
      -- Stated without its type, which would be compared with `held` at an unknown key.
      have hlisted := held_store_mem hstore ShardData.nodup_contents_keys hmem
      dsimp only at hlisted
      rw [(live_eq_some.mp hlive).1] at hp
      obtain ⟨hvalue, hle, hge, u, hu, hbefore⟩ := hp
      have hcopy := deadline_copy (s := times key) hu
        (show u.ns ≤ (clock key).2.ns by omega)
      rw [hlisted]
      refine ⟨hvalue, ?_, ?_, times key, rfl, hlast⟩
      · omega
      · push_cast
        omega

theorem Ok.step (hok : s.Ok sm key value due) {e : ChainEvent}
    (hu : s.Undisturbed sm key e) (h : s.step sm key e = some s') :
    s'.Ok sm key value due := by
  cases e with
  | tick now =>
      obtain rfl := Option.some.inj h
      exact hok.tick hu
  | clean shard =>
      obtain ⟨cleaned, hc, rfl⟩ := Option.map_eq_some_iff.mp h
      exact hok.clean hc
  | request r clock =>
      obtain ⟨⟨served, reply⟩, hserve, rfl⟩ := Option.map_eq_some_iff.mp h
      exact hok.request hu hserve
  | copy target shard clock times now => exact hok.copy hu h

theorem init_ok {server server' : KvServerImpl}
    (hset : server.set sm.numShards key value ttlMs start.ns = some (server', ⟨some (), none⟩)) :
    (⟨server', start, 0, 0⟩ : Chain).Ok sm key value (start.ns + ttlMs * 1000000) := by
  cases KvServerImpl.withShard_eq_some hset with
  | inl hempty => cases hempty.1
  | inr hrest =>
      cases hrest with
      | inl hmissing => cases hmissing.1
      | inr hhosted =>
          obtain ⟨shard, data, hk, hs, hl, heq⟩ := hhosted
          cases heq
          have hlookup (k : GoString) : (data.set key value ttlMs start.ns).data.lookup k =
              if k = key then some ⟨value, ttlMs, start.ns⟩ else data.data.lookup k :=
            ShardData.lookup_set
          have hwrote := KvServerImpl.wrote_update hs hl hlookup
          refine ⟨hk, ⟨shard, hs, (hwrote.shards shard).mpr (KvServerImpl.mem_of_lookup hl)⟩, ?_⟩
          rw [hwrote.self]
          exact ⟨rfl, Int.le_refl _, by simp [CacheItem.deadline], start, rfl, Int.le_refl _⟩

/-- What `Get` answers from an entry in place. -/
theorem Placed.response {entry : Option CacheItem} {t : Reading}
    (hp : s.Placed value due entry) (ht : s.now.ns ≤ t.ns) :
    (t.ns < due → KvLab.response t.ns entry = ⟨value, true⟩) ∧
    ((KvLab.response t.ns entry).wasFound = true → KvLab.response t.ns entry = ⟨value, true⟩ ∧
      t.ns < due + s.spent + s.hops * 1000000) := by
  cases entry with
  | none =>
      have hdue : due ≤ s.now.ns := hp
      refine ⟨fun hlt => ?_, fun hfound => ?_⟩
      · omega
      · cases hfound
  | some item =>
      cases hexp : item.expired t.ns with
      | true =>
          have hdue := hp.expired ht hexp
          simp only [KvLab.response, hexp, if_true]
          refine ⟨fun hlt => ?_, fun hfound => ?_⟩
          · omega
          · cases hfound
      | false =>
          obtain ⟨rfl, _, hge, u, hu, hnow⟩ := hp
          have hlt : t.ns < item.deadline := by
            refine Int.not_le.mp fun hle => ?_
            rw [(CacheItem.expired_iff hu (Int.le_trans hnow ht)).mpr hle] at hexp
            cases hexp
          simp only [KvLab.response, hexp]
          exact ⟨fun _ => rfl, fun _ => ⟨rfl, Int.lt_of_lt_of_le hlt hge⟩⟩

end Chain

/-- An entry that was set for `ttlMs` is found on the last server of a chain of copies for
at least that long, and no longer than the copies took, plus a millisecond for each. -/
theorem copied_entry_lifetime {sm : ShardMapState} {key value : GoString} {ttlMs : Int}
    {start : Reading} {server server' : KvServerImpl}
    (hset : server.set sm.numShards key value ttlMs start.ns = some (server', ⟨some (), none⟩))
    {h : List Chain}
    (run : (chain sm key server' start).Run (fun s e => s.Undisturbed sm key e) h) :
    ∀ s ∈ h, ∀ t : Reading, s.now.ns ≤ t.ns →
      ∃ response, s.server.get sm.numShards key t.ns = some ⟨some response, none⟩ ∧
        (t.ns - start.ns < ttlMs * 1000000 → response = ⟨value, true⟩) ∧
        (response.wasFound = true → response = ⟨value, true⟩ ∧
          t.ns < start.ns + ttlMs * 1000000 + s.spent + s.hops * 1000000) := by
  have hall := Machine.Run.invariant
    (I := Chain.Ok sm key value (start.ns + ttlMs * 1000000)) (Chain.init_ok hset)
    (fun s e t hok hu hstep => hok.step hu hstep) run
  intro s hs t ht
  have hok := hall s hs
  obtain ⟨hlive, hfound⟩ := hok.placed.response ht
  exact ⟨_, KvServerImpl.get_hosted hok.nonempty hok.hosts, fun hlt => hlive (by omega), hfound⟩

/-- A value that is set for 5 ms is copied twice: read after 1.9 ms and stored 0.1 ms
later, then read 0.9 ms after that and stored at once. It lives until 6.9 ms. -/
theorem copied_entry_lifetime_two_copies : ∃ server' h,
    (⟨[1], AList.singleton 2 ⟨∅⟩⟩ : KvServerImpl).set 2 [2] [7] 5 0 =
      some (server', ⟨some (), none⟩) ∧
    (chain (smallMap [] [[1], [2]]) [2] server' ⟨0, by decide, by decide⟩).Run
      (fun s e => s.Undisturbed (smallMap [] [[1], [2]]) [2] e) h ∧
    ∃ s ∈ h, (s.hops = 2 ∧ s.spent = 100000 ∧ s.now.ns = 2900000 ∧
      (s.server.get 2 [2] 6899999).map (·.response) = some (some ⟨[7], true⟩)) ∧
      ∃ response, s.server.get 2 [2] 6900000 = some ⟨some response, none⟩ ∧
        ((6900000 : Int) - 0 < 5 * 1000000 → response = ⟨[7], true⟩) ∧
        (response.wasFound = true → response = ⟨[7], true⟩ ∧
          (6900000 : Int) < 0 + 5 * 1000000 + s.spent + s.hops * 1000000) := by
  obtain ⟨h, run, s, hs, hfeature⟩ :=
    (chain (smallMap [] [[1], [2]]) [2]
      (KvServerImpl.update ⟨[1], AList.singleton 2 ⟨∅⟩⟩ 2 (ShardData.set ⟨∅⟩ [2] [7] 5 0))
      ⟨0, by decide, by decide⟩).exists_run_of_replay
      (fun s e => s.Undisturbed (smallMap [] [[1], [2]]) [2] e)
      [.copy ⟨[2], AList.singleton 2 ⟨∅⟩⟩ 2
        (fun _ => (⟨1900000, by decide, by decide⟩, ⟨1900000, by decide, by decide⟩))
        (fun _ => ⟨2000000, by decide, by decide⟩) ⟨2000000, by decide, by decide⟩,
       .copy ⟨[1], AList.singleton 2 ⟨∅⟩⟩ 2
        (fun _ => (⟨2900000, by decide, by decide⟩, ⟨2900000, by decide, by decide⟩))
        (fun _ => ⟨2900000, by decide, by decide⟩) ⟨2900000, by decide, by decide⟩]
      (fun h => ∃ s ∈ h, s.hops = 2 ∧ s.spent = 100000 ∧ s.now.ns = 2900000 ∧
        (s.server.get 2 [2] 6899999).map (·.response) = some (some ⟨[7], true⟩))
      (by decide +kernel)
  have hset : (⟨[1], AList.singleton 2 ⟨∅⟩⟩ : KvServerImpl).set 2 [2] [7] 5 0 = some
      (KvServerImpl.update ⟨[1], AList.singleton 2 ⟨∅⟩⟩ 2 (ShardData.set ⟨∅⟩ [2] [7] 5 0),
        ⟨some (), none⟩) :=
    KvServerImpl.withShard_hosted (by decide) (by decide) rfl
  refine ⟨_, h, hset, run, s, hs, hfeature, ?_⟩
  refine copied_entry_lifetime hset run s hs ⟨6900000, by decide, by decide⟩ ?_
  rw [hfeature.2.2.1]
  decide

end KvLab
