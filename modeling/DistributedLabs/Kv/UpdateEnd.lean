import DistributedLabs.Kv.UpdateRun

/-!
The handler of a shard map update comes to its end: it does not panic, it can always take
another step, there is a bound on the steps it takes, and what it leaves is the update.
-/

namespace KvLab

namespace Handling

variable {sm : ShardMapState} {p : Peers} {before : KvServerImpl} {s s' : Handling}

theorem Ok.fetchShard_added (hok : s.Ok sm p before) {i : Nat} {shard : Int}
    (h : shard ∈ s.phase.fetchShard i) : shard ∈ before.shardsToBeAdded sm := by
  have hstage := hok.stage
  cases hphase : s.phase with
  | locking | scanning _ _ _ | finishing _ _ | returned =>
      rw [hphase] at h
      cases h
  | copying fetches responses removed =>
      rw [hphase] at h hstage
      obtain ⟨f, hf, rfl⟩ := Option.map_eq_some_iff.mp h
      exact (hstage.asked hf).1

/-- The nodes of a new shard are not empty: the server itself is one of them. -/
theorem nodes_pos (hv : sm.isValid = true) (hn : sm.numShards < 2 ^ 31) {shard : Int}
    (h : shard ∈ before.shardsToBeAdded sm) : 0 < (sm.nodesForShard shard).length := by
  have hassigned := (KvServerImpl.mem_shardsToBeAdded.mp h).1
  obtain ⟨nodes, hl, hmem⟩ := ShardMapState.lookup_of_mem_shardsForNode
    ((KvServerImpl.mem_assigned hv hn).mp hassigned)
  rw [ShardMapState.nodesForShard, hl]
  exact List.length_pos_of_mem hmem

theorem Ok.no_panic (hok : s.Ok sm p before) (hv : sm.isValid = true)
    (hn : sm.numShards < 2 ^ 31) {e : HandlerEvent}
    {r : Except Panic (KvServerImpl × HandlerPhase)} {panic : Panic}
    (h : s.server.HandlerStep sm true s.phase e r) : r ≠ .error panic := by
  intro hr
  obtain ⟨_, _, hprepared, _, hstage⟩ := hok
  obtain ⟨server, phase, panicked⟩ := s
  simp only at h hprepared hstage
  cases h with
  | lock _ | keep _ _ | drop _ _ | skip | register _ | askNext _ _ | askDone _ _ | relock _
  | unlock => cases hr
  | intn hi hstart =>
      have hmem := (hstage.asked hi).1
      have hzero := (fetchStart_error (hstart.trans (congrArg some (except_map_error hr)))).2
      have hpos := nodes_pos hv hn hmem
      simp only at hpos
      omega
  | askPanic hi hask =>
      have hasked := (hstage.asked hi).2
      simp only [Fetch.Asked] at hasked
      obtain ⟨rfl, _⟩ := hasked
      obtain ⟨_, hk, hnone⟩ := fetchNext_error hask
      rw [fetchNode_eq hk, List.getElem?_eq_none_iff, List.length_rotate] at hnone
      omega
  | insert =>
      obtain ⟨shard, hs, hentry⟩ := hprepared.2.2 _ List.mem_cons_self
      obtain ⟨server', hserver⟩ := KvServerImpl.insertValue_hosted _ hentry hs
      rw [hserver] at hr
      cases hr
  | remove hs =>
      have hmissing := (KvServerImpl.removeShard_error (except_map_error hr)).2
      exact hmissing (hprepared.2.1 _ hs)

theorem Ok.step (hok : s.Ok sm p before) (hv : sm.isValid = true)
    (hn : sm.numShards < 2 ^ 31) (hp : p.Genuine sm) {e : HandlerEvent}
    (hf : s.Follows sm p e) (h : s.step sm e = some s') : s'.Ok sm p before := by
  cases step_cases h with
  | inl hpanic =>
      obtain ⟨panic, hstep⟩ := hpanic
      exact absurd rfl (hok.no_panic hv hn hstep)
  | inr hstep =>
      obtain ⟨hstep, hpanicked⟩ := hstep
      refine ⟨hpanicked.trans hok.panicked, hstep.nodeName_eq.trans hok.name,
        prepared_step hok.prepared ?_ hstep,
        onCourse_step hok.prepared hok.course hstep, hok.stage_step hp hf hstep⟩
      rintro i values rfl shard hs v hv
      rw [answer_entryOf hp (Eq.symm hf) hs v hv, int32_added (hok.fetchShard_added hs)]

theorem step_isSome {e : HandlerEvent} (hpanicked : s.panicked = none)
    (h : (s.server.handlerStep sm true s.phase e).isSome = true) :
    ∃ s', s.step sm e = some s' := by
  obtain ⟨r, hr⟩ := Option.isSome_iff_exists.mp h
  rw [step, if_neg (not_not_intro hpanicked), hr]
  cases r with
  | error panic => exact ⟨_, rfl⟩
  | ok result => exact ⟨_, rfl⟩

/-- A handler that has not returned can make a step. -/
theorem Ok.progress (hok : s.Ok sm p before) (hp : p.Genuine sm) (h : s.phase ≠ .returned) :
    ∃ e s', s.Follows sm p e ∧ s.step sm e = some s' := by
  suffices hstep : ∃ e, s.Follows sm p e ∧
      (s.server.handlerStep sm true s.phase e).isSome = true by
    obtain ⟨e, hf, hr⟩ := hstep
    obtain ⟨s', hs'⟩ := step_isSome hok.panicked hr
    exact ⟨e, s', hf, hs'⟩
  obtain ⟨server, phase, panicked⟩ := s
  cases phase with
  | locking => exact ⟨.lock, trivial, rfl⟩
  | scanning added removed todo =>
      cases todo with
      | nil =>
          refine ⟨.register, trivial, ?_⟩
          simp only [KvServerImpl.handlerStep]
          split <;> rfl
      | cons shard todo =>
          refine ⟨.check shard, trivial, ?_⟩
          simp only [KvServerImpl.handlerStep, if_pos List.mem_cons_self]
          split <;> rfl
  | copying fetches responses removed =>
      cases fetches with
      | nil => exact ⟨.relock, trivial, rfl⟩
      | cons f fetches =>
          obtain ⟨shard, phase⟩ := f
          cases phase with
          | started =>
              refine ⟨.intn 0 (p.startIndex shard), ?_, ?_⟩
              · intro other ho
                rw [← Option.some.inj ho]
              · simp only [KvServerImpl.handlerStep, List.getElem?_cons_zero,
                  Option.isSome_map, fetchStart]
                split
                · rfl
                · rename_i hne
                  rw [if_pos (hp.startIndex_lt shard fun hnil => hne (by rw [hnil]; rfl))]
                  rfl
          | asking numNodes startIndex k => exact ⟨.ask 0 _, rfl, rfl⟩
  | finishing values removed =>
      cases values with
      | cons v values =>
          refine ⟨.insert (p.insertedAt v.key), ?_, rfl⟩
          intro w hw
          rw [← Option.some.inj hw]
      | nil =>
          cases removed with
          | nil => exact ⟨.unlock, trivial, rfl⟩
          | cons shard removed =>
              refine ⟨.remove shard, trivial, ?_⟩
              simp only [KvServerImpl.handlerStep, if_pos List.mem_cons_self]
              rfl
  | returned => exact absurd rfl h

/-- The steps that a goroutine and its values take at most. -/
def fetchRank (sm : ShardMapState) (p : Peers) (nodeName : GoString) (f : Fetch) : Nat :=
  (p.fetched sm nodeName f.shard).length +
    match f.phase with
    | .started => (sm.nodesForShard f.shard).length + 2
    | .asking numNodes _ k => numNodes - k + 1

/-- The steps that the handler takes at most. -/
def rank (sm : ShardMapState) (p : Peers) (nodeName : GoString) (s : Handling) : Nat :=
  match s.phase with
  | .locking => (((s.server.shardsToBeAdded sm).map fun shard => ⟨shard, .started⟩).map
      (fetchRank sm p nodeName)).sum + 2 * s.server.availableShards.keys.length + 4
  | .scanning added removed todo => ((added.map fun shard => ⟨shard, .started⟩).map
      (fetchRank sm p nodeName)).sum + removed.length + 2 * todo.length + 3
  | .copying fetches responses removed => (fetches.map (fetchRank sm p nodeName)).sum +
      responses.flatten.length + removed.length + 2
  | .finishing values removed => values.length + removed.length + 1
  | .returned => 0

theorem Ok.rank_step (hok : s.Ok sm p before) {e : HandlerEvent} (hf : s.Follows sm p e)
    (h : s.server.HandlerMove sm true s.phase e s'.server s'.phase) :
    s'.rank sm p before.nodeName < s.rank sm p before.nodeName := by
  obtain ⟨server, phase, panicked⟩ := s
  obtain ⟨server', phase', panicked'⟩ := s'
  simp only at h
  cases h with
  | lock _ =>
      simp only [rank, List.length_nil]
      omega
  | keep ht _ | drop ht _ =>
      have hpos := List.length_pos_of_mem ht
      simp only [rank, List.length_erase_of_mem ht, List.length_append, List.length_singleton]
      omega
  | skip =>
      simp only [rank, List.length_nil]
      omega
  | register _ =>
      simp only [rank, List.flatten_nil, List.length_nil]
      omega
  | @intn fetches responses removed i startIndex shard q hi hstart =>
      have hmove := Phases.sum_move (fetchRank sm p before.nodeName) ⟨shard, q⟩ hi
      simp only [fetchStart] at hstart
      split at hstart
      · cases hstart
      · split at hstart <;> cases hstart
        simp only [rank, fetchRank] at hmove ⊢
        omega
  | @askNext fetches responses removed i answer shard numNodes startIndex k q hi hnext =>
      have hmove := Phases.sum_move (fetchRank sm p before.nodeName) ⟨shard, q⟩ hi
      obtain ⟨rfl, hk, _⟩ := fetchNext_next hnext
      simp only [rank, fetchRank] at hmove ⊢
      omega
  | @askDone fetches responses removed i answer shard numNodes startIndex k values hi hdone =>
      have hvalues := hok.done_values rfl hi hf hdone
      have herase := Phases.sum_eraseIdx (fetchRank sm p before.nodeName) hi
      simp only [rank, fetchRank, List.flatten_append, List.flatten_singleton,
        List.length_append, hvalues] at herase ⊢
      omega
  | relock _ =>
      simp only [rank, List.map_nil, List.sum_nil]
      omega
  | insert hserver =>
      simp only [rank, List.length_cons]
      omega
  | remove hs hserver =>
      have hpos := List.length_pos_of_mem hs
      simp only [rank, List.length_erase_of_mem hs]
      omega
  | unlock =>
      simp only [rank, List.length_nil]
      omega

theorem Ok.updated (hok : s.Ok sm p before) (hv : sm.isValid = true)
    (hn : sm.numShards < 2 ^ 31) (hp : p.Genuine sm) (h : s.phase = .returned) :
    Updated sm p before s.server := by
  obtain ⟨_, hname, _, hcourse, hstage⟩ := hok
  rw [h] at hcourse hstage
  obtain ⟨done, hcomplete, hinserted⟩ := hstage
  have hassigned : s.server.assigned sm = before.assigned sm :=
    KvServerImpl.assigned_congr hname
  have hadded {shard : Int} (hs : shard ∈ s.server.availableShards)
      (hnot : shard ∉ before.availableShards) : shard ∈ before.shardsToBeAdded sm :=
    KvServerImpl.mem_shardsToBeAdded.mpr ⟨hassigned ▸ (hcourse shard).mpr hs, hnot⟩
  refine ⟨fun shard => ?_, fun shard hs hold => ?_, fun shard hs hnew => ?_, ?_⟩
  · rw [← hcourse shard, KvServerImpl.mem_assigned hv hn, hname]
  · refine hinserted.old shard hs fun hmem => ?_
    exact (KvServerImpl.mem_shardsToBeAdded.mp hmem).2 hold
  · obtain ⟨data, hl, hdata⟩ := hinserted.new shard (hadded hs hnew)
    refine ⟨data, hl, fun key item => (hdata key item).trans ?_⟩
    constructor
    · rintro ⟨v, hv, hentry, hkey, hitem⟩
      obtain ⟨other, ho, hfetched⟩ := (hcomplete.mem v).mp hv
      obtain rfl := Option.some.inj ((entryOf_fetched hp ho hfetched).symm.trans hentry)
      exact ⟨v, hfetched, hkey, hitem⟩
    · rintro ⟨v, hv, hkey, hitem⟩
      have hmem := (hcomplete.mem v).mpr ⟨shard, hadded hs hnew, hv⟩
      exact ⟨v, hmem, entryOf_fetched hp (hadded hs hnew) hv, hkey, hitem⟩
  · intro shard other hs hnew hnew' hne v hv data hl
    have ho := hadded (KvServerImpl.mem_of_lookup hl) hnew'
    obtain ⟨data', hl', hdata⟩ := hinserted.new other ho
    obtain rfl := Option.some.inj (hl.symm.trans hl')
    cases hitem : data.data.lookup v.key with
    | none => rfl
    | some item =>
        obtain ⟨w, _, hentry, hkey, _⟩ := (hdata v.key item).mp hitem
        have hshard := entryOf_fetched hp (hadded hs hnew) hv
        rw [KvServerImpl.entryOf, hkey] at hentry
        exact absurd (Option.some.inj (hentry.symm.trans hshard)) hne

end Handling

/-- `handleShardMapUpdate` returns, and then the server hosts the shards of the shard map
with the data that they should have. -/
theorem update_end_to_end {sm : ShardMapState} {p : Peers} (server : KvServerImpl)
    (hv : sm.isValid = true) (hn : sm.numShards < 2 ^ 31) (hp : p.Genuine sm) :
    ∃ bound, ∀ h, (handling sm server).Run (fun s e => s.Follows sm p e) h →
      h.length ≤ bound ∧ ∀ s ∈ h, s.panicked = none ∧
        (s.phase ≠ .returned →
          ∃ e s', s.Follows sm p e ∧ (handling sm server).step s e = some s') ∧
        (s.phase = .returned → Updated sm p server s.server) := by
  have hinit : (handling sm server).init.Ok sm p server := ⟨rfl, rfl, trivial, trivial, rfl⟩
  refine ⟨(handling sm server).init.rank sm p server.nodeName + 1, fun h run => ⟨?_, ?_⟩⟩
  · refine run.length_le (Handling.rank sm p server.nodeName) hinit
      (fun s e t hok hf hstep => hok.step hv hn hp hf hstep) ?_
    intro s e t hok hf hstep
    cases Handling.step_cases hstep with
    | inl hpanic => exact absurd rfl (hok.no_panic hv hn hpanic.choose_spec)
    | inr hstep => exact hok.rank_step hf hstep.1
  · have hall := Machine.Run.invariant (I := Handling.Ok sm p server) hinit
      (fun s e t hok hf hstep => hok.step hv hn hp hf hstep) run
    intro s hs
    exact ⟨(hall s hs).panicked, (hall s hs).progress hp, (hall s hs).updated hv hn hp⟩

/-- Node 2 answers with one value of shard 2. -/
def oneAnswer : Peers where
  startIndex _ := 0
  answer shard node := if shard = 2 ∧ node = [2] then some [⟨[2], [7], 1000⟩] else none
  insertedAt _ := 50

theorem oneAnswer_genuine : oneAnswer.Genuine (smallMap [[1]] [[2], [1]]) := by
  refine ⟨fun shard hne => List.length_pos_of_ne_nil hne, fun shard node values h => ?_⟩
  obtain ⟨⟨rfl, rfl⟩, hvalues⟩ := Option.ite_none_right_eq_some.mp h
  obtain rfl := Option.some.inj hvalues
  -- The peer registers the shard and serves a `Set`.
  have hregister : (⟨[2], ∅⟩ : KvServerImpl).handlerStep (smallMap [[1]] [[2], [1]]) true
      (.scanning [2] [] []) .register = some (.ok (KvServerImpl.register ⟨[2], ∅⟩ [2],
        .copying [⟨2, .started⟩] [] [])) := rfl
  have hset : (KvServerImpl.register ⟨[2], ∅⟩ [2]).serve 2 0 (fun _ => (0, 0))
      (.set [2] [7] 1000) = some ((KvServerImpl.register ⟨[2], ∅⟩ [2]).update 2
        (ShardData.set ⟨∅⟩ [2] [7] 1000 0), ⟨some .set, none⟩) := by
    have hshard : shardFor [2] 2 = some 2 := by decide
    rw [KvServerImpl.serve, KvServerImpl.set,
      KvServerImpl.withShard_hosted (by decide) hshard rfl]
    rfl
  exact ⟨_, fun _ => (0, 0), ((KvServerImpl.Reachable.make [2]).handler rfl hregister).serve hset,
    rfl⟩

/-- Node 1 keeps shard 1, gets shard 2 from node 2 and gives up shard 7. -/
theorem update_end_to_end_replace : ∃ bound h,
    (handling (smallMap [[1]] [[2], [1]]) ⟨[1], (AList.singleton 1 ⟨∅⟩).insert 7 ⟨∅⟩⟩).Run
      (fun s e => s.Follows (smallMap [[1]] [[2], [1]]) oneAnswer e) h ∧
    h.length ≤ bound ∧ ∃ s ∈ h, s.phase = .returned ∧
      s.server.held 2 [2] = some ⟨[7], 1000, 50⟩ ∧
      Updated (smallMap [[1]] [[2], [1]]) oneAnswer
        ⟨[1], (AList.singleton 1 ⟨∅⟩).insert 7 ⟨∅⟩⟩ s.server := by
  obtain ⟨bound, hall⟩ := update_end_to_end
    ⟨[1], (AList.singleton 1 ⟨∅⟩).insert 7 ⟨∅⟩⟩ (by decide) (by decide) oneAnswer_genuine
  obtain ⟨h, run, s, hs, hreturned, hheld⟩ :=
    (handling (smallMap [[1]] [[2], [1]])
      ⟨[1], (AList.singleton 1 ⟨∅⟩).insert 7 ⟨∅⟩⟩).exists_run_of_replay
      (fun s e => s.Follows (smallMap [[1]] [[2], [1]]) oneAnswer e)
      [.lock, .check 1, .check 7, .register, .intn 0 0, .ask 0 (some [⟨[2], [7], 1000⟩]),
        .relock, .insert 50, .remove 7, .unlock]
      (fun h => ∃ s ∈ h, s.phase = .returned ∧ s.server.held 2 [2] = some ⟨[7], 1000, 50⟩)
      (by decide +kernel)
  obtain ⟨hlength, hstates⟩ := hall h run
  exact ⟨bound, h, run, hlength, s, hs, hreturned, hheld, (hstates s hs).2.2 hreturned⟩

end KvLab
