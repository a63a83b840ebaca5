import DistributedLabs.Kv.Adding
import Mathlib.Data.List.Induction

/-!
When adding a shard looks atomic. A request in the gap commutes with the insertion of the
copied values if it reads and writes none of their keys. The invariant of the gap
therefore speaks of every shard that the copy could turn out to be: the accepted requests
have the same replies there, and leave the keys of the copy alone.
-/

namespace KvLab

namespace ShardData

variable {now : Int} {clock : GoString → Int × Int} {data d : ShardData}

/-- A request at the shard that it is for. -/
def handle (data : ShardData) (now : Int) (clock : GoString → Int × Int) :
    Request → ShardData × Reply Response
  | .get key => (data, ⟨some (.get (data.get key now)), none⟩)
  | .set key value ttlMs => (data.set key value ttlMs now, ⟨some .set, none⟩)
  | .delete key => (data.delete key, ⟨some .delete, none⟩)
  | .getShardContents _ => (data, ⟨some (.getShardContents (data.contents clock)), none⟩)

theorem handle_err (r : Request) : (data.handle now clock r).2.err = none := by
  cases r with
  | get _ | set _ _ _ | delete _ | getShardContents _ => rfl

/-- A request leaves the other keys alone. -/
theorem lookup_handle {p : GoString → Prop} {r : Request} {k : GoString} (hr : r.Within p)
    (hk : ¬ p k) : (data.handle now clock r).1.data.lookup k = data.data.lookup k := by
  cases r with
  | get _ | getShardContents _ => rfl
  | set key value ttlMs =>
      have hne : k ≠ key := fun heq => hk (heq ▸ hr)
      simp only [handle, lookup_set, if_neg hne]
  | delete key =>
      have hne : k ≠ key := fun heq => hk (heq ▸ hr)
      simp only [handle, lookup_delete, if_neg hne]

/-- Shards that agree on the keys of a request give the same reply and go on agreeing. -/
theorem handle_agree {p : GoString → Prop} {r : Request} (hr : r.Within p)
    (hc : ∀ k, now ≤ (clock k).1)
    (h : ∀ k, p k → live now (d.data.lookup k) = live now (data.data.lookup k)) :
    (d.handle now clock r).2.Same (data.handle now clock r).2 ∧
    ∀ k, p k → live now ((d.handle now clock r).1.data.lookup k) =
      live now ((data.handle now clock r).1.data.lookup k) := by
  cases r with
  | get key =>
      refine ⟨⟨rfl, ?_⟩, h⟩
      simp only [handle, Response.Same, get_eq_response, response_eq_live, h key hr]
  | getShardContents _ => exact ⟨⟨rfl, contents_perm hc fun k => h k (hr k)⟩, h⟩
  | set key value ttlMs =>
      refine ⟨⟨rfl, trivial⟩, fun k hk => ?_⟩
      simp only [handle, lookup_set]
      split
      · rfl
      · exact h k hk
  | delete key =>
      refine ⟨⟨rfl, trivial⟩, fun k hk => ?_⟩
      simp only [handle, lookup_delete]
      split
      · rfl
      · exact h k hk

end ShardData

section Requests

variable {server : KvServerImpl} {numShards shard now : Int} {data : ShardData}
  {clock : GoString → Int × Int} {r : Request}

theorem serve_handle (now : Int) (clock : GoString → Int × Int) (hf : r.For numShards shard)
    (hl : server.availableShards.lookup shard = some data) :
    ∃ server', server.serve numShards now clock r =
        some (server', (data.handle now clock r).2) ∧
      (server' = server ∧ (data.handle now clock r).1 = data ∨
        server' = server.update shard (data.handle now clock r).1) := by
  cases r with
  | get key =>
      refine ⟨server, ?_, Or.inl ⟨rfl, rfl⟩⟩
      rw [KvServerImpl.serve, KvServerImpl.get, KvServerImpl.withShard_hosted hf.1 hf.2 hl]
      rfl
  | set key value ttlMs =>
      refine ⟨_, ?_, Or.inr rfl⟩
      rw [KvServerImpl.serve, KvServerImpl.set, KvServerImpl.withShard_hosted hf.1 hf.2 hl]
      rfl
  | delete key =>
      refine ⟨_, ?_, Or.inr rfl⟩
      rw [KvServerImpl.serve, KvServerImpl.delete, KvServerImpl.withShard_hosted hf.1 hf.2 hl]
      rfl
  | getShardContents other =>
      refine ⟨server, ?_, Or.inl ⟨rfl, rfl⟩⟩
      have hl : server.availableShards.lookup (int32 other) = some data := hf.symm ▸ hl
      simp only [KvServerImpl.serve, KvServerImpl.getShardContents, hl]
      rfl

theorem lookup_single : (single shard data).availableShards.lookup shard = some data :=
  GoMap.lookup_singleton.mpr ⟨rfl, rfl⟩

theorem update_single {data' : ShardData} :
    (single shard data).update shard data' = single shard data' := by
  simp only [single, KvServerImpl.update, AList.insert_singleton_eq]

theorem serve_single (hf : r.For numShards shard) :
    (single shard data).serve numShards now clock r =
      some (single shard (data.handle now clock r).1, (data.handle now clock r).2) := by
  obtain ⟨server', hserve, ⟨rfl, hdata⟩ | rfl⟩ := serve_handle now clock hf lookup_single
  · rw [hserve, hdata]
  · rw [hserve, update_single]

/-- A further request keeps a replay going if it has the same reply. -/
theorem replay_cons {server : KvServerImpl} {log : List Served} {reply : Reply Response}
    (hf : r.For numShards shard)
    (hlog : replay numShards server log = some (single shard data))
    (hsame : (data.handle now clock r).2.Same reply) :
    replay numShards server (⟨r, now, clock, reply⟩ :: log) =
      some (single shard (data.handle now clock r).1) := by
  simp only [replay, hlog, Option.bind_some, serve_single hf, if_pos hsame]

/-- A key of a shard that is not hosted is rejected. -/
theorem serve_missing (hf : r.For numShards shard) (hr : r.isContents = false)
    (hl : shard ∉ server.availableShards) :
    ∃ reply, server.serve numShards now clock r = some (server, reply) ∧
      reply.err = some notFound := by
  cases r with
  | get key =>
      refine ⟨⟨some (.get ⟨[], false⟩), some notFound⟩, ?_, rfl⟩
      rw [KvServerImpl.serve, KvServerImpl.get, KvServerImpl.withShard_missing hf.1 hf.2 hl]
      rfl
  | set key value ttlMs =>
      refine ⟨⟨some .set, some notFound⟩, ?_, rfl⟩
      rw [KvServerImpl.serve, KvServerImpl.set, KvServerImpl.withShard_missing hf.1 hf.2 hl]
      rfl
  | delete key =>
      refine ⟨⟨some .delete, some notFound⟩, ?_, rfl⟩
      rw [KvServerImpl.serve, KvServerImpl.delete, KvServerImpl.withShard_missing hf.1 hf.2 hl]
      rfl
  | getShardContents _ => cases hr

end Requests

section Copies

theorem lookup_copyOf_snoc {copied : List (GetShardValue × Int)} {v : GetShardValue}
    {now : Int} {k : GoString} :
    (copyOf (copied ++ [(v, now)])).data.lookup k =
      if k = v.key then some ⟨v.value, v.ttlMsRemaining, now⟩
      else (copyOf copied).data.lookup k := by
  simp only [copyOf, List.foldl_append, List.foldl_cons, List.foldl_nil, ShardData.lookup_set]

theorem lookup_copyOf_notMem {copied : List (GetShardValue × Int)} {k : GoString}
    (h : ∀ e ∈ copied, e.1.key ≠ k) : (copyOf copied).data.lookup k = none := by
  induction copied using List.reverseRecOn with
  | nil => rfl
  | append_singleton copied e ih =>
      rw [List.forall_mem_append, List.forall_mem_singleton] at h
      rw [lookup_copyOf_snoc, if_neg (Ne.symm h.2), ih h.1]

end Copies

section Gap

variable {numShards shard : Int} {brought : List GoString} {s t : Adding}
  {data data' : ShardData}

/-- Between the registration of the shard and the insertion of the last value. -/
structure Gap (numShards shard : Int) (brought : List GoString) (s : Adding)
    (data : ShardData) : Prop where
  hosted : s.server.availableShards.lookup shard = some data
  keys : ∀ e ∈ s.copied, e.1.key ∈ brought
  copy : ∀ k ∈ brought, live s.now (data.data.lookup k) =
    live s.now ((copyOf s.copied).data.lookup k)
  apart : ∀ d₀ : ShardData, (∀ k, k ∉ brought → d₀.data.lookup k = none) →
    ∃ d : ShardData, replay numShards (single shard d₀) s.log = some (single shard d) ∧
      (∀ k ∈ brought, d.data.lookup k = d₀.data.lookup k) ∧
      ∀ k, k ∉ brought → live s.now (d.data.lookup k) = live s.now (data.data.lookup k)

/-- The values are inserted. -/
structure Done (numShards shard : Int) (s : Adding) (d data : ShardData) : Prop where
  hosted : s.server.availableShards.lookup shard = some data
  replayed : replay numShards (single shard (copyOf s.copied)) s.log = some (single shard d)
  agree : ∀ k, live s.now (d.data.lookup k) = live s.now (data.data.lookup k)

/-- The same log and values, later and perhaps cleaned. -/
structure Aged (shard : Int) (s t : Adding) (data data' : ShardData) : Prop where
  now : s.now ≤ t.now
  copied : t.copied = s.copied
  log : t.log = s.log
  hosted : t.server.availableShards.lookup shard = some data'
  live : ∀ k, live t.now (data'.data.lookup k) = live t.now (data.data.lookup k)

theorem Gap.aged (hg : Gap numShards shard brought s data) (ha : Aged shard s t data data') :
    Gap numShards shard brought t data' := by
  refine ⟨ha.hosted, ?_, fun k hk => ?_, fun d₀ hd₀ => ?_⟩
  · rw [ha.copied]
    exact hg.keys
  · rw [ha.live, ha.copied]
    exact live_congr ha.now (hg.copy k hk)
  · obtain ⟨d, hlog, hin, hout⟩ := hg.apart d₀ hd₀
    refine ⟨d, by rw [ha.log]; exact hlog, hin, fun k hk => ?_⟩
    rw [ha.live]
    exact live_congr ha.now (hout k hk)

theorem Done.aged {d : ShardData} (hd : Done numShards shard s d data)
    (ha : Aged shard s t data data') : Done numShards shard t d data' := by
  refine ⟨ha.hosted, by rw [ha.copied, ha.log]; exact hd.replayed, fun k => ?_⟩
  rw [ha.live]
  exact live_congr ha.now (hd.agree k)

/-- Once all values are inserted, the copy is one of the shards of the invariant. -/
theorem Gap.done (hg : Gap numShards shard brought s data) :
    ∃ d, Done numShards shard s d data := by
  obtain ⟨d, hlog, hin, hout⟩ := hg.apart (copyOf s.copied) fun k hk =>
    lookup_copyOf_notMem fun e he heq => hk (heq ▸ hg.keys e he)
  refine ⟨d, hg.hosted, hlog, fun k => ?_⟩
  by_cases hk : k ∈ brought
  · rw [hin k hk, hg.copy k hk]
  · exact hout k hk

theorem request_hosted {sm : ShardMapState} {r : Request} (clock : GoString → Int × Int)
    (hf : r.For sm.numShards shard)
    (hl : s.server.availableShards.lookup shard = some data) :
    ∃ server, s.request sm r clock = { s with
        server, log := ⟨r, s.now, clock, (data.handle s.now clock r).2⟩ :: s.log } ∧
      server.nodeName = s.server.nodeName ∧
      server.availableShards.lookup shard = some (data.handle s.now clock r).1 := by
  obtain ⟨server, hserve, hserver⟩ := serve_handle s.now clock hf hl
  refine ⟨server, ?_, ?_⟩
  · rw [Adding.request, hserve]
    exact if_neg (by rw [ShardData.handle_err]; nofun)
  · rcases hserver with ⟨rfl, hdata⟩ | rfl
    · exact ⟨rfl, by rw [hdata]; exact hl⟩
    · exact ⟨rfl, AList.lookup_insert _⟩

theorem Request.within_of_avoids {r : Request} (h : r.Avoids brought) :
    r.Within (· ∉ brought) := by
  cases r with
  | get _ | set _ _ _ | delete _ => exact h
  | getShardContents _ =>
      intro k hk
      rw [show brought = [] from h] at hk
      cases hk

theorem Request.within_true (r : Request) : r.Within fun _ => True := by
  cases r with
  | get _ | set _ _ _ | delete _ => trivial
  | getShardContents _ => exact fun _ => trivial

/-- A request in the gap leaves the keys of the copy alone. -/
theorem Gap.request (hg : Gap numShards shard brought s data) {r : Request}
    {clock : GoString → Int × Int} {server : KvServerImpl} (hf : r.For numShards shard)
    (ha : r.Avoids brought) (hc : ∀ k, s.now ≤ (clock k).1)
    (hl : server.availableShards.lookup shard = some (data.handle s.now clock r).1) :
    Gap numShards shard brought { s with
      server, log := ⟨r, s.now, clock, (data.handle s.now clock r).2⟩ :: s.log }
      (data.handle s.now clock r).1 := by
  have hwithin := Request.within_of_avoids ha
  refine ⟨hl, hg.keys, fun k hk => ?_, fun d₀ hd₀ => ?_⟩
  · rw [ShardData.lookup_handle hwithin (not_not_intro hk)]
    exact hg.copy k hk
  · obtain ⟨d, hlog, hin, hout⟩ := hg.apart d₀ hd₀
    obtain ⟨hsame, hagree⟩ := ShardData.handle_agree hwithin hc hout
    refine ⟨_, replay_cons hf hlog hsame, fun k hk => ?_, hagree⟩
    rw [ShardData.lookup_handle hwithin (not_not_intro hk)]
    exact hin k hk

theorem Done.request {d : ShardData} (hd : Done numShards shard s d data) {r : Request}
    {clock : GoString → Int × Int} {server : KvServerImpl} (hf : r.For numShards shard)
    (hc : ∀ k, s.now ≤ (clock k).1)
    (hl : server.availableShards.lookup shard = some (data.handle s.now clock r).1) :
    Done numShards shard { s with
      server, log := ⟨r, s.now, clock, (data.handle s.now clock r).2⟩ :: s.log }
      (d.handle s.now clock r).1 (data.handle s.now clock r).1 := by
  obtain ⟨hsame, hagree⟩ := ShardData.handle_agree r.within_true hc fun k _ => hd.agree k
  exact ⟨hl, replay_cons hf hd.replayed hsame, fun k => hagree k trivial⟩

theorem gap_start (hosted : s.server.availableShards.lookup shard = some ⟨∅⟩)
    (hl : s.log = []) (hc : s.copied = []) : Gap numShards shard brought s ⟨∅⟩ := by
  refine ⟨hosted, ?_, fun k _ => ?_, fun d₀ hd₀ => ⟨d₀, ?_, fun k _ => rfl, fun k hk => ?_⟩⟩
  · rw [hc]
    exact fun e he => absurd he List.not_mem_nil
  · rw [hc]
    rfl
  · rw [hl]
    rfl
  · rw [hd₀ k hk]
    rfl

/-- A value of the copy is inserted. -/
theorem Gap.insert (hg : Gap numShards shard brought s data) {v : GetShardValue}
    {server : KvServerImpl} {phase : HandlerPhase} (hv : v.key ∈ brought)
    (hl : server.availableShards.lookup shard =
      some (data.set v.key v.value v.ttlMsRemaining s.now)) :
    Gap numShards shard brought { s with server, phase, copied := s.copied ++ [(v, s.now)] }
      (data.set v.key v.value v.ttlMsRemaining s.now) := by
  refine ⟨hl, ?_, fun k hk => ?_, fun d₀ hd₀ => ?_⟩
  · rw [List.forall_mem_append, List.forall_mem_singleton]
    exact ⟨hg.keys, hv⟩
  · rw [lookup_copyOf_snoc, ShardData.lookup_set]
    split
    · rfl
    · exact hg.copy k hk
  · obtain ⟨d, hlog, hin, hout⟩ := hg.apart d₀ hd₀
    refine ⟨d, hlog, hin, fun k hk => ?_⟩
    have hne : k ≠ v.key := fun heq => hk (heq ▸ hv)
    rw [ShardData.lookup_set, if_neg hne]
    exact hout k hk

end Gap

section Stages

variable {sm : ShardMapState} {shard : Int} {brought : List GoString} {s t : Adding}

/-- The values for the shard have the keys that the copy brings. -/
def Brings (sm : ShardMapState) (shard : Int) (brought : List GoString)
    (values : List GetShardValue) : Prop :=
  ∀ v ∈ values, KvServerImpl.entryOf sm v = some shard → v.key ∈ brought

inductive Stage (sm : ShardMapState) (shard : Int) (brought : List GoString) (s : Adding) :
    HandlerPhase → Prop
  | locking (hs : shard ∈ s.server.assigned sm) (hn : shard ∉ s.server.availableShards)
      (hl : s.log = []) (hc : s.copied = []) : Stage sm shard brought s .locking
  | scanning {added removed todo : List Int} (hn : shard ∉ s.server.availableShards)
      (hl : s.log = []) (hc : s.copied = []) (ha : shard ∈ added)
      (hr : shard ∉ removed) (ht : shard ∉ todo) :
      Stage sm shard brought s (.scanning added removed todo)
  | copying {fetches : List Fetch} {responses : List (List GetShardValue)}
      {removed : List Int} {data : ShardData} (hr : shard ∉ removed)
      (hv : ∀ values ∈ responses, Brings sm shard brought values)
      (hg : Gap sm.numShards shard brought s data) :
      Stage sm shard brought s (.copying fetches responses removed)
  | finishing {values : List GetShardValue} {removed : List Int} {data : ShardData}
      (hr : shard ∉ removed) (hv : Brings sm shard brought values)
      (hg : Gap sm.numShards shard brought s data) :
      Stage sm shard brought s (.finishing values removed)
  | returned {d data : ShardData} (hd : Done sm.numShards shard s d data) :
      Stage sm shard brought s .returned

/-- A step of the handler that does not change the shard. -/
theorem aged_handler {server : KvServerImpl} {phase : HandlerPhase} {data : ShardData}
    (hl : server.availableShards.lookup shard = some data) :
    Aged shard s { s with server, phase, copied := s.copied ++ [] } data data :=
  ⟨Int.le_refl _, List.append_nil _, rfl, hl, fun _ => rfl⟩

/-- The next value is inserted, into the shard or into another one. -/
theorem Gap.insertValue {data : ShardData} {server' : KvServerImpl} {phase' : HandlerPhase}
    {v : GetShardValue} {values : List GetShardValue} {removed : List Int}
    (hg : Gap sm.numShards shard brought s data)
    (hv : KvServerImpl.entryOf sm v = some shard → v.key ∈ brought)
    (h : s.server.insertValue sm v s.now = .ok server') :
    ∃ data', Gap sm.numShards shard brought { s with
      server := server', phase := phase'
      copied := s.copied ++
        Adding.inserted sm shard (.finishing (v :: values) removed) (.insert s.now) } data' := by
  obtain ⟨target, data₁, hentry, hl, rfl⟩ := KvServerImpl.insertValue_eq h
  rcases eq_or_ne target shard with rfl | hne
  · obtain rfl := Option.some.inj (hg.hosted.symm.trans hl)
    rw [Adding.inserted, if_pos hentry]
    exact ⟨_, hg.insert (hv hentry) (AList.lookup_insert _)⟩
  · rw [Adding.inserted, if_neg (by rw [hentry]; simpa using hne)]
    refine ⟨data, hg.aged (aged_handler ?_)⟩
    exact (AList.lookup_insert_ne (Ne.symm hne)).trans hg.hosted

theorem stage_handler {e : HandlerEvent} {phase phase' : HandlerPhase} {server' : KvServerImpl}
    (hst : Stage sm shard brought s phase)
    (hans : ∀ i values, e = .ask i (some values) → ∀ other ∈ phase.fetchShard i,
      ∀ v ∈ values, KvServerImpl.entryOf sm v = some other ∧
        (other = shard → v.key ∈ brought))
    (htime : s.Timely e) (h : s.server.HandlerMove sm true phase e server' phase') :
    Stage sm shard brought { s with
      server := server', phase := phase'
      copied := s.copied ++ Adding.inserted sm shard phase e } phase' := by
  cases h with
  | lock _ =>
      cases hst with
      | locking hs hn hl hc =>
          refine .scanning hn hl ?_ ?_ List.not_mem_nil hn
          · exact (List.append_nil _).trans hc
          · exact KvServerImpl.mem_shardsToBeAdded.mpr ⟨hs, hn⟩
  | keep _ _ =>
      cases hst with
      | scanning hn hl hc ha hr ht =>
          exact .scanning hn hl ((List.append_nil _).trans hc) ha hr
            fun hmem => ht (List.mem_of_mem_erase hmem)
  | @drop _ removed _ dropped hmem _ =>
      cases hst with
      | scanning hn hl hc ha hr ht =>
          have hne : shard ≠ dropped := fun heq => ht (heq ▸ hmem)
          refine .scanning hn hl ((List.append_nil _).trans hc) ha ?_
            fun hmem => ht (List.mem_of_mem_erase hmem)
          rw [List.mem_append, List.mem_singleton]
          exact not_or.mpr ⟨hr, hne⟩
  | skip =>
      cases hst with
      | scanning _ _ _ ha _ _ => cases ha
  | @register added removed _ =>
      cases hst with
      | scanning _ hl hc ha hr _ =>
          refine .copying hr (fun values hv => absurd hv List.not_mem_nil) (gap_start ?_ hl ?_)
          · exact KvServerImpl.lookup_register.trans (if_pos ha)
          · exact (List.append_nil _).trans hc
  | intn _ _ | askNext _ _ =>
      cases hst with
      | copying hr hv hg => exact .copying hr hv (hg.aged (aged_handler hg.hosted))
  | @askDone fetches responses removed i answer other _ _ _ values hi hdone =>
      cases hst with
      | copying hr hv hg =>
          refine .copying hr ?_ (hg.aged (aged_handler hg.hosted))
          rw [List.forall_mem_append, List.forall_mem_singleton]
          refine ⟨hv, fun v hmem hentry => ?_⟩
          rcases fetchNext_done hdone with ⟨rfl, _⟩ | ⟨rfl, _⟩
          · have hother : other ∈ (HandlerPhase.copying fetches responses removed).fetchShard i :=
              by simp [HandlerPhase.fetchShard, hi]
            obtain ⟨hv', hkey⟩ := hans i values rfl other hother v hmem
            exact hkey (Option.some.inj (hv'.symm.trans hentry))
          · cases hmem
  | relock _ =>
      cases hst with
      | copying hr hv hg =>
          refine .finishing hr (fun v hmem => ?_) (hg.aged (aged_handler hg.hosted))
          obtain ⟨values, hvalues, hmem⟩ := List.mem_flatten.mp hmem
          exact hv values hvalues v hmem
  | @insert v values removed now _ hserver =>
      cases hst with
      | finishing hrem hv hg =>
          obtain rfl : now = s.now := htime
          obtain ⟨data₁, hg₁⟩ := hg.insertValue (hv v List.mem_cons_self) hserver
          exact .finishing hrem (fun w hw => hv w (List.mem_cons_of_mem _ hw)) hg₁
  | @remove removed gone _ hs hserver =>
      cases hst with
      | finishing hr hv hg =>
          have hne : shard ≠ gone := fun heq => hr (heq ▸ hs)
          refine .finishing (fun hmem => hr (List.mem_of_mem_erase hmem)) hv
            (hg.aged (aged_handler ?_))
          rw [KvServerImpl.lookup_removeShard hserver hne]
          exact hg.hosted
  | unlock =>
      cases hst with
      | finishing _ _ hg =>
          obtain ⟨d, hd⟩ := hg.done
          exact .returned (hd.aged (aged_handler hg.hosted))

/-- Time passes or a cleaner runs. -/
structure Later (shard : Int) (s t : Adding) : Prop where
  now : s.now ≤ t.now
  copied : t.copied = s.copied
  log : t.log = s.log
  nodeName : t.server.nodeName = s.server.nodeName
  shards : ∀ other, other ∈ t.server.availableShards ↔ other ∈ s.server.availableShards
  entries : ∀ data, s.server.availableShards.lookup shard = some data →
    ∃ data', t.server.availableShards.lookup shard = some data' ∧
      ∀ k, live t.now (data'.data.lookup k) = live t.now (data.data.lookup k)

theorem Later.aged (hl : Later shard s t) {data : ShardData}
    (h : s.server.availableShards.lookup shard = some data) :
    ∃ data', Aged shard s t data data' := by
  obtain ⟨data', hosted, hlive⟩ := hl.entries data h
  exact ⟨data', hl.now, hl.copied, hl.log, hosted, hlive⟩

theorem Stage.later {phase : HandlerPhase} (hst : Stage sm shard brought s phase)
    (hl : Later shard s t) : Stage sm shard brought t phase := by
  cases hst with
  | locking hs hn hlog hc =>
      refine .locking ?_ ?_ (hl.log.trans hlog) (hl.copied.trans hc)
      · rw [KvServerImpl.assigned_congr hl.nodeName]
        exact hs
      · rw [hl.shards]
        exact hn
  | scanning hn hlog hc ha hr ht =>
      refine .scanning ?_ (hl.log.trans hlog) (hl.copied.trans hc) ha hr ht
      rw [hl.shards]
      exact hn
  | copying hr hv hg =>
      obtain ⟨data', ha⟩ := hl.aged hg.hosted
      exact .copying hr hv (hg.aged ha)
  | finishing hr hv hg =>
      obtain ⟨data', ha⟩ := hl.aged hg.hosted
      exact .finishing hr hv (hg.aged ha)
  | returned hd =>
      obtain ⟨data', ha⟩ := hl.aged hd.hosted
      exact .returned (hd.aged ha)

theorem later_clean {other : Int} {server : KvServerImpl}
    (h : s.server.clean other s.now = some server) : Later shard s { s with server } := by
  obtain ⟨cleaned, hl, rfl⟩ := Option.map_eq_some_iff.mp h
  refine ⟨Int.le_refl _, rfl, rfl, rfl, fun _ => ?_, fun data hdata => ?_⟩
  · exact KvServerImpl.mem_update (KvServerImpl.mem_of_lookup hl)
  · rcases eq_or_ne shard other with rfl | hne
    · obtain rfl := Option.some.inj (hdata.symm.trans hl)
      refine ⟨_, AList.lookup_insert _, fun k => ?_⟩
      rw [ShardData.lookup_clean, live_live (Int.le_refl _)]
    · exact ⟨data, (AList.lookup_insert_ne hne).trans hdata, fun _ => rfl⟩

/-- A request is rejected before the shard is registered. -/
theorem request_missing {r : Request} {clock : GoString → Int × Int}
    (hf : r.For sm.numShards shard) (hn : shard ∉ s.server.availableShards)
    (hq : r.isContents = true → shard ∈ s.server.availableShards) :
    s.request sm r clock = s := by
  have hcontents : r.isContents = false := by
    cases hc : r.isContents with
    | false => rfl
    | true => exact absurd (hq hc) hn
  obtain ⟨reply, hserve, herr⟩ := serve_missing hf hcontents hn
  rw [Adding.request, hserve]
  exact if_pos herr

theorem stage_request {r : Request} (clock : GoString → Int × Int) {phase : HandlerPhase}
    (hst : Stage sm shard brought s phase) (hlock : phase.holdsLock = false)
    (hf : r.For sm.numShards shard) (hc : ∀ k, s.now ≤ (clock k).1)
    (ha : phase.isCopying = true → r.Avoids brought)
    (hq : r.isContents = true → shard ∈ s.server.availableShards) :
    Stage sm shard brought (s.request sm r clock) phase ∧
      (s.request sm r clock).phase = s.phase ∧
      (s.request sm r clock).panicked = s.panicked := by
  cases hst with
  | locking hs hn hlog hcopied =>
      rw [request_missing hf hn hq]
      exact ⟨.locking hs hn hlog hcopied, rfl, rfl⟩
  | scanning _ _ _ _ _ _ | finishing _ _ _ => cases hlock
  | copying hr hv hg =>
      obtain ⟨server, heq, _, hl⟩ := request_hosted clock hf hg.hosted
      rw [heq]
      exact ⟨.copying hr hv (hg.request hf (ha rfl) hc hl), rfl, rfl⟩
  | returned hd =>
      obtain ⟨server, heq, _, hl⟩ := request_hosted clock hf hd.hosted
      rw [heq]
      exact ⟨.returned (hd.request hf hc hl), rfl, rfl⟩

structure Adding.Ok (sm : ShardMapState) (shard : Int) (brought : List GoString)
    (s : Adding) : Prop where
  missing : s.panicked ≠ some .contentsOfMissing
  stage : Stage sm shard brought s s.phase

theorem Adding.Ok.step (hok : s.Ok sm shard brought) {e : AddEvent}
    (hp : s.Proper sm shard brought e) (hq : s.Quiet shard brought e)
    (h : s.step sm shard e = some t) : t.Ok sm shard brought := by
  unfold Adding.step at h
  obtain ⟨_, h⟩ := Option.ite_none_left_eq_some.mp h
  cases e with
  | tick now =>
      obtain ⟨hn, h⟩ := Option.ite_none_right_eq_some.mp h
      cases h
      refine ⟨hok.missing, hok.stage.later ⟨hn, rfl, rfl, rfl, fun _ => Iff.rfl, ?_⟩⟩
      exact fun data hl => ⟨data, hl, fun _ => rfl⟩
  | clean other =>
      obtain ⟨server, hc, rfl⟩ := Option.map_eq_some_iff.mp h
      exact ⟨hok.missing, hok.stage.later (later_clean hc)⟩
  | handler e =>
      obtain ⟨htime, h⟩ := Option.ite_none_right_eq_some.mp h
      simp only [Adding.handler] at h
      split at h
      · cases h
      · rename_i panic hstep
        cases h
        have hne := (KvServerImpl.handlerStep_cases _ _ hstep).ne_contentsOfMissing rfl
        exact ⟨fun heq => hne (Option.some.inj heq), hok.stage.later
          ⟨Int.le_refl _, rfl, rfl, rfl, fun _ => Iff.rfl, fun data hl => ⟨data, hl, fun _ => rfl⟩⟩⟩
      · rename_i server phase hstep
        cases h
        refine ⟨hok.missing, stage_handler hok.stage ?_ htime
          (KvServerImpl.handlerStep_cases _ _ hstep).move⟩
        rintro i values rfl
        exact hp
  | request r delay =>
      obtain ⟨hlock, h⟩ := Option.ite_none_left_eq_some.mp h
      cases h
      have hclock : ∀ k, s.now ≤ (s.readings delay k).1 := fun k => by
        simp only [Adding.readings]
        omega
      obtain ⟨hst, hphase, hpanicked⟩ := stage_request (s.readings delay) hok.stage
        (Bool.eq_false_iff.mpr hlock) hp hclock hq.1 hq.2
      exact ⟨hpanicked ▸ hok.missing, hphase ▸ hst⟩

end Stages

/-- In a run in which the requests between the registration of a shard and the insertion
of its values are for other keys than theirs, adding the shard looks atomic. -/
theorem adding_atomic {sm : ShardMapState} {shard : Int} {server : KvServerImpl} {now : Int}
    {brought : List GoString} {h : List Adding} (hs : shard ∈ server.assigned sm)
    (hn : shard ∉ server.availableShards)
    (run : (adding sm shard server now).Run
      (fun s e => s.Proper sm shard brought e ∧ s.Quiet shard brought e) h) :
    ∀ s ∈ h, s.panicked ≠ some .contentsOfMissing ∧
      (s.phase = .returned → s.Atomic sm shard) := by
  have hinit : (adding sm shard server now).init.Ok sm shard brought :=
    ⟨(nomatch ·), .locking hs hn rfl rfl⟩
  have hall := Machine.Run.invariant (I := Adding.Ok sm shard brought) hinit
    (fun s e t hok hp hstep => hok.step hp.1 hp.2 hstep) run
  intro s hmem
  obtain ⟨hmissing, hst⟩ := hall s hmem
  refine ⟨hmissing, fun hphase => ?_⟩
  rw [hphase] at hst
  cases hst with
  | @returned d data hd =>
      exact ⟨single shard d, d, data, hd.replayed, lookup_single, hd.hosted, hd.agree⟩

/-- Another key is set in the gap, and both keys are read when the handler has returned. -/
theorem adding_atomic_other_key : ∃ h,
    (adding (smallMap [[2]] [[1], [2]]) 2 ⟨[1], ∅⟩ 0).Run (fun s e =>
      s.Proper (smallMap [[2]] [[1], [2]]) 2 [[2]] e ∧ s.Quiet 2 [[2]] e) h ∧
    (∃ s ∈ h, s.phase = .returned ∧ s.log.length = 3) ∧
    ∀ s ∈ h, s.panicked ≠ some .contentsOfMissing ∧
      (s.phase = .returned → s.Atomic (smallMap [[2]] [[1], [2]]) 2) := by
  obtain ⟨h, run, hdone⟩ :=
    (adding (smallMap [[2]] [[1], [2]]) 2 ⟨[1], ∅⟩ 0).exists_run_of_replay (fun s e =>
      s.Proper (smallMap [[2]] [[1], [2]]) 2 [[2]] e ∧ s.Quiet 2 [[2]] e)
      [.request (.get [2]) fun _ => (0, 0), .handler .lock, .handler .register,
        .handler (.intn 0 1), .request (.set [4] [9] 1000) fun _ => (0, 0),
        .handler (.ask 0 (some [⟨[2], [7], 1000⟩])), .handler .relock, .tick 5,
        .handler (.insert 5), .handler .unlock, .request (.get [2]) fun _ => (0, 0),
        .request (.get [4]) fun _ => (0, 0)]
      (fun h => ∃ s ∈ h, s.phase = .returned ∧ s.log.length = 3) (by decide +kernel)
  exact ⟨h, run, hdone, adding_atomic (by decide +kernel) (by decide +kernel) run⟩

/-- A value that was set in the gap is overwritten by the copy. -/
theorem set_undone_by_copy : ∃ h,
    (adding (smallMap [[2]] [[1], [2]]) 2 ⟨[1], ∅⟩ 0).Run (fun s e =>
      s.Proper (smallMap [[2]] [[1], [2]]) 2 [[2]] e) h ∧
    ∃ s ∈ h, s.phase = .returned ∧ ¬ s.Atomic (smallMap [[2]] [[1], [2]]) 2 := by
  obtain ⟨h, run, s, hs, hphase, hreplay⟩ :=
    (adding (smallMap [[2]] [[1], [2]]) 2 ⟨[1], ∅⟩ 0).exists_run_of_replay (fun s e =>
      s.Proper (smallMap [[2]] [[1], [2]]) 2 [[2]] e)
      [.handler .lock, .handler .register, .handler (.intn 0 1),
        .request (.set [2] [9] 1000) fun _ => (0, 0),
        .handler (.ask 0 (some [⟨[2], [7], 1000⟩])), .handler .relock, .handler (.insert 0),
        .handler .unlock, .request (.get [2]) fun _ => (0, 0)]
      (fun h => ∃ s ∈ h, s.phase = .returned ∧
        (replay 2 (single 2 (copyOf s.copied)) s.log).isNone = true)
      (by decide +kernel)
  refine ⟨h, run, s, hs, hphase, ?_⟩
  rintro ⟨server, _, _, hsome, _⟩
  have hreplay : (some server).isNone = true := hsome ▸ hreplay
  cases hreplay

end KvLab
