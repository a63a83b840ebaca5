import DistributedLabs.Kv.Copies

/-!
One server with a fixed set of shards is a map with expiring entries. The abstract side is
the list of the requests made so far and what it says about a key: the value that was set
last, for as long as its TTL. The cleaners have no part in it, so that what they delete and
when cannot be observed.
-/

namespace KvLab

open GoTime

/-- The served requests are listed with their times, the newest first. -/
structure Timed where
  server : KvServerImpl
  now : Reading
  log : List (Request × Reading)

inductive TimedEvent where
  | tick (now : Reading)
  | clean (shard : Int)
  | request (r : Request) (clock : GoString → Int × Int)

namespace Timed

variable (s : Timed)

def step (numShards : Int) : TimedEvent → Option Timed
  | .tick now => some { s with now }
  | .clean shard => (s.server.clean shard s.now.ns).map fun server => { s with server }
  | .request r clock => (s.server.serve numShards s.now.ns clock r).map fun (server, _) =>
      { s with server, log := (r, s.now) :: s.log }

/-- The clock does not go back. -/
def Forward : TimedEvent → Prop
  | .tick now => s.now.ns ≤ now.ns
  | .clean _ | .request _ _ => True

instance (e : TimedEvent) : Decidable (s.Forward e) :=
  match e with
  | .tick now => inferInstanceAs (Decidable (s.now.ns ≤ now.ns))
  | .clean _ | .request _ _ => isTrue trivial

end Timed

def timed (server : KvServerImpl) (numShards : Int) (start : Reading) :
    Machine Timed TimedEvent where
  init := ⟨server, start, []⟩
  step s e := s.step numShards e

/-- An entry of the timed map. -/
structure TimedEntry where
  value : GoString
  ttlMs : Int
  setAt : Reading

namespace TimedEntry

def item (e : TimedEntry) : CacheItem := ⟨e.value, e.ttlMs, e.setAt.ns⟩

/-- The whole milliseconds since the entry was set are fewer than its TTL. -/
def Alive (t : Reading) (e : TimedEntry) : Prop :=
  (t.ns - e.setAt.ns) / 1000000 < e.ttlMs

instance (t : Reading) (e : TimedEntry) : Decidable (e.Alive t) :=
  inferInstanceAs (Decidable (_ < _))

end TimedEntry

/-- The entry that a write leaves in the timed map. -/
def Request.entry (now : Reading) : Request → Option TimedEntry
  | .set _ value ttlMs => some ⟨value, ttlMs, now⟩
  | .get _ | .delete _ | .getShardContents _ => none

/-- What the last write to a key left. -/
def lastSet (key : GoString) : List (Request × Reading) → Option TimedEntry
  | [] => none
  | (r, now) :: log => if r.written = some key then r.entry now else lastSet key log

/-- The answer of the timed map. -/
def timedGet (t : Reading) : Option TimedEntry → GetResponse
  | none => ⟨[], false⟩
  | some e => if e.Alive t then ⟨e.value, true⟩ else ⟨[], false⟩

section Entries

variable {t : Reading} {e : TimedEntry}

theorem Request.entry_item (now : Reading) (r : Request) :
    (r.entry now).map TimedEntry.item = r.leaves now.ns := by
  cases r <;> rfl

theorem TimedEntry.expired_iff (h : e.setAt.ns ≤ t.ns) :
    e.item.expired t.ns = false ↔ e.Alive t := by
  simp only [CacheItem.expired, CacheItem.elapsed, item, Alive, decide_eq_false_iff_not,
    Int.not_le, Reading.milliseconds_timeSub h]

/-- The server answers from an entry what the timed map answers. -/
theorem response_item {last : Option TimedEntry} (h : ∀ e, last = some e → e.setAt.ns ≤ t.ns) :
    response t.ns (last.map TimedEntry.item) = timedGet t last := by
  cases last with
  | none => rfl
  | some e =>
      simp only [Option.map_some, response, timedGet]
      by_cases ha : e.Alive t
      · rw [if_pos ha, (TimedEntry.expired_iff (h e rfl)).mpr ha]
        rfl
      · rw [if_neg ha, if_pos]
        exact Bool.of_not_eq_false fun hexp => ha ((TimedEntry.expired_iff (h e rfl)).mp hexp)

end Entries

namespace Timed

variable {server : KvServerImpl} {numShards : Int} {s s' : Timed}

/-- The server stores what the timed map holds, expired entries apart. -/
structure Ok (server : KvServerImpl) (numShards : Int) (s : Timed) : Prop where
  shards : ∀ shard, shard ∈ s.server.availableShards ↔ shard ∈ server.availableShards
  filed : s.server.Filed numShards
  nonempty : s.server.held numShards [] = none
  entries : ∀ key, key ≠ [] → server.Hosts numShards key →
    live s.now.ns (s.server.held numShards key) =
      live s.now.ns ((lastSet key s.log).map TimedEntry.item)
  times : ∀ key e, lastSet key s.log = some e → e.setAt.ns ≤ s.now.ns

theorem Ok.tick (hok : s.Ok server numShards) {now : Reading} (h : s.now.ns ≤ now.ns) :
    ({ s with now } : Timed).Ok server numShards where
  shards := hok.shards
  filed := hok.filed
  nonempty := hok.nonempty
  entries key hk hh := live_congr h (hok.entries key hk hh)
  times key e he := Int.le_trans (hok.times key e he) h

theorem Ok.clean (hok : s.Ok server numShards) {shard : Int} {cleaned : KvServerImpl}
    (h : s.server.clean shard s.now.ns = some cleaned) :
    ({ s with server := cleaned } : Timed).Ok server numShards := by
  obtain ⟨hshards, hheld⟩ := KvServerImpl.held_clean numShards h
  refine ⟨fun other => (hshards other).trans (hok.shards other),
    KvServerImpl.filed_clean hok.filed h, ?_, ?_, hok.times⟩
  · cases hheld [] with
    | inl heq => exact heq.trans hok.nonempty
    | inr hgone => exact hgone.1
  · intro key hk hh
    rw [← hok.entries key hk hh]
    cases hheld key with
    | inl heq => rw [heq]
    | inr hgone =>
        obtain ⟨hnone, item, hitem, hexp⟩ := hgone
        rw [hnone, hitem]
        exact (show live s.now.ns (some item) = none by simp [live, hexp]).symm

theorem Ok.request (hok : s.Ok server numShards) {r : Request} {clock : GoString → Int × Int}
    {served : KvServerImpl} {reply : Reply Response}
    (h : s.server.serve numShards s.now.ns clock r = some (served, reply)) :
    ({ s with server := served, log := (r, s.now) :: s.log } : Timed).Ok server numShards := by
  have htimes : ∀ key e, lastSet key ((r, s.now) :: s.log) = some e →
      e.setAt.ns ≤ s.now.ns := by
    intro key e he
    simp only [lastSet] at he
    split at he
    · cases r with
      | get _ | delete _ | getShardContents _ => cases he
      | set k value ttlMs =>
          obtain rfl := Option.some.inj he
          exact Int.le_refl _
    · exact hok.times key e he
  cases KvServerImpl.serve_cases h with
  | inl hsame =>
      obtain ⟨rfl, hunhosted⟩ := hsame
      refine ⟨hok.shards, hok.filed, hok.nonempty, ?_, htimes⟩
      intro key hk hh
      have hw : r.written ≠ some key := fun hw => hunhosted key hw hk (hh.congr hok.shards)
      rw [lastSet, if_neg hw]
      exact hok.entries key hk hh
  | inr hwrote =>
      obtain ⟨key, shard, data, data', hw, hk, hs, hl, rfl, hdata⟩ := hwrote
      have hwrote := KvServerImpl.wrote_update hs hl hdata
      refine ⟨fun other => (hwrote.shards other).trans (hok.shards other),
        KvServerImpl.filed_serve hok.filed h,
        (hwrote.other [] hk.symm).trans hok.nonempty, ?_, htimes⟩
      intro k hk' hh
      by_cases heq : k = key
      · rw [heq, hwrote.self, lastSet, if_pos hw, Request.entry_item]
      · have hother : r.written ≠ some k := by
          rw [hw]
          exact fun hwk => heq (Option.some.inj hwk).symm
        rw [hwrote.other k heq, lastSet, if_neg hother]
        exact hok.entries k hk' hh

theorem Ok.step (hok : s.Ok server numShards) {e : TimedEvent} (hf : s.Forward e)
    (h : s.step numShards e = some s') : s'.Ok server numShards := by
  cases e with
  | tick now =>
      obtain rfl := Option.some.inj h
      exact hok.tick hf
  | clean shard =>
      obtain ⟨cleaned, hc, rfl⟩ := Option.map_eq_some_iff.mp h
      exact hok.clean hc
  | request r clock =>
      obtain ⟨⟨served, reply⟩, hserve, rfl⟩ := Option.map_eq_some_iff.mp h
      exact hok.request hserve

/-- From now on the server answers what the timed map answers. -/
theorem Ok.timedGet_eq (hok : s.Ok server numShards) {key : GoString} (hk : key ≠ [])
    (hh : server.Hosts numShards key) {t : Reading} (ht : s.now.ns ≤ t.ns) :
    timedGet t (lastSet key s.log) = response t.ns (s.server.held numShards key) := by
  have htimes : ∀ e, lastSet key s.log = some e → e.setAt.ns ≤ t.ns :=
    fun e he => Int.le_trans (hok.times key e he) ht
  rw [← response_item htimes, response_eq_live, ← live_congr ht (hok.entries key hk hh),
    ← response_eq_live]

theorem Ok.get (hok : s.Ok server numShards) {key : GoString} (hk : key ≠ [])
    (hh : server.Hosts numShards key) :
    s.server.get numShards key s.now.ns =
      some ⟨some (timedGet s.now (lastSet key s.log)), none⟩ := by
  rw [KvServerImpl.get_hosted hk (hh.congr hok.shards), hok.timedGet_eq hk hh (Int.le_refl _)]

/-- A shard lists the keys that are alive when it looks at them. -/
theorem Ok.mem_contents (hok : s.Ok server numShards) {shard : Int} {data : ShardData}
    (hl : s.server.availableShards.lookup shard = some data)
    {clock : GoString → Reading × Reading} (hc : ∀ key, s.now.ns ≤ (clock key).1.ns)
    (key value : GoString) :
    (∃ v ∈ data.contents fun k => ((clock k).1.ns, (clock k).2.ns),
        v.key = key ∧ v.value = value) ↔
      key ≠ [] ∧ shardFor key numShards = some shard ∧
        timedGet (clock key).1 (lastSet key s.log) = ⟨value, true⟩ := by
  have hhosts (hs : shardFor key numShards = some shard) : server.Hosts numShards key :=
    ⟨shard, hs, (hok.shards shard).mp (KvServerImpl.mem_of_lookup hl)⟩
  constructor
  · rintro ⟨v, hv, rfl, rfl⟩
    obtain ⟨item, hlive, hv⟩ := ShardData.mem_contents.mp hv
    have hitem := (live_eq_some.mp hlive).1
    have hs := hok.filed shard data hl v.key item hitem
    have hheld := KvServerImpl.held_eq hs hl
    have hk : v.key ≠ [] := by
      intro hk
      rw [hk, hok.nonempty, ← hk, hitem] at hheld
      cases hheld
    refine ⟨hk, hs, ?_⟩
    rw [hok.timedGet_eq hk (hhosts hs) (hc v.key), hheld]
    refine response_found.mpr ⟨item, hlive, ?_⟩
    rw [hv]
  · rintro ⟨hk, hs, hget⟩
    rw [hok.timedGet_eq hk (hhosts hs) (hc key), KvServerImpl.held_eq hs hl] at hget
    obtain ⟨item, hlive, rfl⟩ := response_found.mp hget
    exact ⟨⟨key, item.value, item.ttl - item.elapsed (clock key).2.ns⟩,
      ShardData.mem_contents.mpr ⟨item, hlive, rfl⟩, rfl, rfl⟩

end Timed

theorem timed_init_ok {server : KvServerImpl} {numShards : Int} {start : Reading}
    (hempty : ∀ shard data, server.availableShards.lookup shard = some data →
      data.data = ∅) : (timed server numShards start).init.Ok server numShards := by
  have hheld (key : GoString) : server.held numShards key = none := by
    simp only [KvServerImpl.held]
    cases shardFor key numShards with
    | none => rfl
    | some shard =>
        rw [Option.bind_some]
        cases hl : server.availableShards.lookup shard with
        | none => rfl
        | some data =>
            rw [Option.bind_some, hempty shard data hl]
            rfl
  refine ⟨fun _ => Iff.rfl, ?_, hheld [], ?_, ?_⟩
  · intro shard data hl key item hitem
    rw [hempty shard data hl] at hitem
    cases hitem
  · intro key _ _
    exact congrArg (live start.ns) (hheld key)
  · intro key e he
    cases he

/-- At every point of a run `Get` answers what the last write to the key left, for as long
as its TTL, and `GetShardContents` lists the keys for which such a `Get` succeeds. -/
theorem server_refines_timed_map {server : KvServerImpl} {numShards : Int} {start : Reading}
    (hempty : ∀ shard data, server.availableShards.lookup shard = some data → data.data = ∅)
    {h : List Timed} (run : (timed server numShards start).Run (fun s e => s.Forward e) h) :
    ∀ s ∈ h,
      (∀ shard, shard ∈ s.server.availableShards ↔ shard ∈ server.availableShards) ∧
      (∀ key, key ≠ [] → server.Hosts numShards key →
        s.server.get numShards key s.now.ns =
          some ⟨some (timedGet s.now (lastSet key s.log)), none⟩) ∧
      ∀ shard, int32 shard ∈ server.availableShards →
        ∀ clock : GoString → Reading × Reading, (∀ key, s.now.ns ≤ (clock key).1.ns) →
        ∃ values, s.server.getShardContents shard
            (fun key => ((clock key).1.ns, (clock key).2.ns)) = some ⟨some values, none⟩ ∧
          (values.map (·.key)).Nodup ∧
          ∀ key value, (∃ v ∈ values, v.key = key ∧ v.value = value) ↔
            key ≠ [] ∧ shardFor key numShards = some (int32 shard) ∧
              timedGet (clock key).1 (lastSet key s.log) = ⟨value, true⟩ := by
  have hall := Machine.Run.invariant (I := Timed.Ok server numShards) (timed_init_ok hempty)
    (fun s e t hok hf hstep => hok.step hf hstep) run
  intro s hs
  have hok := hall s hs
  refine ⟨hok.shards, fun key hk hh => hok.get hk hh, ?_⟩
  intro shard hmem clock hc
  obtain ⟨data, hl⟩ := Option.isSome_iff_exists.mp
    (AList.lookup_isSome.mpr ((hok.shards _).mpr hmem))
  refine ⟨data.contents fun key => ((clock key).1.ns, (clock key).2.ns), ?_,
    ShardData.nodup_contents_keys, hok.mem_contents hl hc⟩
  rw [KvServerImpl.getShardContents, hl]

/-- A value that is set for 5 ms is there until its last nanosecond and gone then, whether
its cleaner has run or not. -/
theorem server_refines_timed_map_expiry : ∃ h,
    (timed ⟨[1], AList.singleton 1 ⟨∅⟩⟩ 1 ⟨0, by decide, by decide⟩).Run
      (fun s e => s.Forward e) h ∧
    (∃ s ∈ h, s.now.ns = 4999999 ∧ timedGet s.now (lastSet [2] s.log) = ⟨[7], true⟩) ∧
    (∃ s ∈ h, s.now.ns = 5000000 ∧ (s.server.held 1 [2]).isSome = true ∧
      timedGet s.now (lastSet [2] s.log) = ⟨[], false⟩) ∧
    (∃ s ∈ h, s.server.held 1 [2] = none ∧
      timedGet s.now (lastSet [2] s.log) = ⟨[], false⟩ ∧ s.log.length = 1) ∧
    ∀ s ∈ h, s.server.get 1 [2] s.now.ns =
      some ⟨some (timedGet s.now (lastSet [2] s.log)), none⟩ := by
  obtain ⟨h, run, hfound, hexpired, hcleaned⟩ :=
    (timed ⟨[1], AList.singleton 1 ⟨∅⟩⟩ 1 ⟨0, by decide, by decide⟩).exists_run_of_replay
      (fun s e => s.Forward e)
      [.request (.set [2] [7] 5) (fun _ => (0, 0)), .tick ⟨4999999, by decide, by decide⟩,
        .tick ⟨5000000, by decide, by decide⟩, .clean 1]
      (fun h =>
        (∃ s ∈ h, s.now.ns = 4999999 ∧ timedGet s.now (lastSet [2] s.log) = ⟨[7], true⟩) ∧
        (∃ s ∈ h, s.now.ns = 5000000 ∧ (s.server.held 1 [2]).isSome = true ∧
          timedGet s.now (lastSet [2] s.log) = ⟨[], false⟩) ∧
        ∃ s ∈ h, s.server.held 1 [2] = none ∧
          timedGet s.now (lastSet [2] s.log) = ⟨[], false⟩ ∧ s.log.length = 1)
      (by decide +kernel)
  refine ⟨h, run, hfound, hexpired, hcleaned, fun s hs => ?_⟩
  refine (server_refines_timed_map ?_ run s hs).2.1 [2] (by decide) ⟨1, by decide, by decide⟩
  intro shard data hl
  rw [(GoMap.lookup_singleton.mp hl).2]

end KvLab
