import DistributedLabs.Kv.Entries
import Mathlib.Data.List.Dedup

/-!
One call of `handleShardMapUpdate`, in the steps between which other goroutines run. The
lock of the server is held while the shards to add and to remove are computed and the new
shards are registered, released while the peers are asked, and held again while the
copied values are inserted and the old shards removed. Every reading of the shard map is
made in a step of its own, so it may see another state than the reading before it.
-/

namespace KvLab

inductive Panic where
  | intnZero
  | indexOutOfRange
  | divideByZero
  | insertIntoMissing
  | removeMissing
  | contentsOfMissing
  deriving DecidableEq

/-- `retrieveShardData`: before the start index is chosen, and before iteration `i`. -/
inductive FetchPhase where
  | started
  | asking (numNodes startIndex i : Nat)
  deriving DecidableEq

structure Fetch where
  shard : Int
  phase : FetchPhase
  deriving DecidableEq

inductive HandlerPhase where
  | locking
  | scanning (added removed todo : List Int)
  | copying (fetches : List Fetch) (responses : List (List GetShardValue))
      (removed : List Int)
  | finishing (values : List GetShardValue) (removed : List Int)
  | returned
  deriving DecidableEq

inductive HandlerEvent where
  | lock
  | check (shard : Int)
  | register
  | intn (i startIndex : Nat)
  | ask (i : Nat) (answer : Option (List GetShardValue))
  | relock
  | insert (now : Int)
  | remove (shard : Int)
  | unlock

namespace HandlerPhase

def holdsLock : HandlerPhase → Bool
  | .scanning _ _ _ | .finishing _ _ => true
  | _ => false

def isCopying : HandlerPhase → Bool
  | .copying _ _ _ => true
  | _ => false

/-- The shard that a goroutine asks the peers for. -/
def fetchShard (i : Nat) : HandlerPhase → Option Int
  | .copying fetches _ _ => fetches[i]?.map (·.shard)
  | _ => none

end HandlerPhase

/-- What becomes of a goroutine that asks the peers for a shard. -/
inductive FetchResult where
  | next (phase : FetchPhase)
  | done (values : List GetShardValue)

/-- The call of `rand.Intn` for the length of the node list. -/
def fetchStart (sm : ShardMapState) (shard : Int) (startIndex : Nat) :
    Option (Except Panic FetchPhase) :=
  if (sm.nodesForShard shard).length = 0 then some (.error .intnZero)
  else if startIndex < (sm.nodesForShard shard).length then
    some (.ok (.asking (sm.nodesForShard shard).length startIndex 0))
  else none

/-- The node that an iteration asks. The node list is read again each time. -/
def fetchNode (sm : ShardMapState) (shard : Int) (numNodes startIndex i : Nat) :
    Option GoString :=
  (sm.nodesForShard shard)[(startIndex + i) % numNodes]?

/-- One iteration. An answer of `none` is an error of `GetClient` or of the request. -/
def fetchNext (sm : ShardMapState) (nodeName : GoString) (shard : Int)
    (numNodes startIndex i : Nat) (answer : Option (List GetShardValue)) :
    Except Panic FetchResult :=
  if i < numNodes then
    match fetchNode sm shard numNodes startIndex i with
    | none => .error .indexOutOfRange
    | some node =>
        if node = nodeName then .ok (.next (.asking numNodes startIndex (i + 1)))
        else
          match answer with
          | none => .ok (.next (.asking numNodes startIndex (i + 1)))
          | some values => .ok (.done values)
  else .ok (.done [])

section Fetch

variable {sm : ShardMapState}

theorem fetchStart_error {shard : Int} {startIndex : Nat} {panic : Panic}
    (h : fetchStart sm shard startIndex = some (.error panic)) :
    panic = .intnZero ∧ (sm.nodesForShard shard).length = 0 := by
  simp only [fetchStart] at h
  split at h
  · cases h
    exact ⟨rfl, ‹_›⟩
  · split at h <;> cases h

theorem fetchNext_error {nodeName : GoString} {shard : Int} {numNodes startIndex k : Nat}
    {answer : Option (List GetShardValue)} {panic : Panic}
    (h : fetchNext sm nodeName shard numNodes startIndex k answer = .error panic) :
    panic = .indexOutOfRange ∧ k < numNodes ∧
      fetchNode sm shard numNodes startIndex k = none := by
  simp only [fetchNext] at h
  split at h
  · split at h
    · cases h
      exact ⟨rfl, ‹_›, ‹_›⟩
    · split at h
      · cases h
      · split at h <;> cases h
  · cases h

/-- The goroutine goes on to the next node. -/
theorem fetchNext_next {nodeName : GoString} {shard : Int} {numNodes startIndex k : Nat}
    {answer : Option (List GetShardValue)} {phase : FetchPhase}
    (h : fetchNext sm nodeName shard numNodes startIndex k answer = .ok (.next phase)) :
    phase = .asking numNodes startIndex (k + 1) ∧ k < numNodes ∧
      ∃ node, fetchNode sm shard numNodes startIndex k = some node ∧
        (node = nodeName ∨ answer = none) := by
  simp only [fetchNext] at h
  split at h
  · split at h
    · cases h
    · split at h
      · cases h
        exact ⟨rfl, ‹_›, _, ‹_›, Or.inl ‹_›⟩
      · split at h <;> cases h
        exact ⟨rfl, ‹_›, _, ‹_›, Or.inr rfl⟩
  · cases h

/-- The goroutine ends with an answer or because it has run out of nodes. -/
theorem fetchNext_done {nodeName : GoString} {shard : Int} {numNodes startIndex k : Nat}
    {answer : Option (List GetShardValue)} {values : List GetShardValue}
    (h : fetchNext sm nodeName shard numNodes startIndex k answer = .ok (.done values)) :
    (answer = some values ∧ k < numNodes ∧ ∃ node,
      fetchNode sm shard numNodes startIndex k = some node ∧ node ≠ nodeName) ∨
    (values = [] ∧ numNodes ≤ k) := by
  simp only [fetchNext] at h
  split at h
  · split at h
    · cases h
    · split at h
      · cases h
      · split at h <;> cases h
        exact Or.inl ⟨rfl, ‹_›, _, ‹_›, ‹_›⟩
  · cases h
    exact Or.inr ⟨rfl, by omega⟩

end Fetch

theorem except_map_ok {α β : Type} {f : α → β} {r : Except Panic α} {b : β}
    (h : r.map f = .ok b) : ∃ a, r = .ok a ∧ f a = b := by
  cases r with
  | error panic => cases h
  | ok a => exact ⟨a, rfl, Except.ok.inj h⟩

theorem except_map_error {α β : Type} {f : α → β} {r : Except Panic α} {panic : Panic}
    (h : r.map f = .error panic) : r = .error panic := by
  cases r with
  | error q => exact congrArg Except.error (Except.error.inj h)
  | ok a => cases h

namespace KvServerImpl

variable (server : KvServerImpl) (sm : ShardMapState)

/-- The entries of `availableShards` that the shard map assigns to the node. -/
def assigned : List Int := (sm.shardsForNode server.nodeName).map int32

def shardsToBeAdded : List Int :=
  ((server.assigned sm).filter fun shard => shard ∉ server.availableShards).dedup

def register (added : List Int) : KvServerImpl :=
  { server with availableShards :=
      GoMap.insertAll server.availableShards (added.map fun shard => (shard, ⟨∅⟩)) }

def insertValue (v : GetShardValue) (now : Int) : Except Panic KvServerImpl :=
  match getShardForKey v.key sm.numShards with
  | none => .error .divideByZero
  | some shardID =>
      match server.availableShards.lookup (int32 shardID) with
      | none => .error .insertIntoMissing
      | some shard => .ok (server.update (int32 shardID)
          (shard.set v.key v.value v.ttlMsRemaining now))

def removeShard (shard : Int) : Except Panic KvServerImpl :=
  match server.availableShards.lookup shard with
  | none => .error .removeMissing
  | some _ => .ok { server with availableShards := server.availableShards.erase shard }

/-- A step of the handler, or a panic. `free` says that the lock can be taken. -/
def handlerStep (free : Bool) :
    HandlerPhase → HandlerEvent → Option (Except Panic (KvServerImpl × HandlerPhase))
  | .locking, .lock =>
      if free then some (.ok (server, .scanning (server.shardsToBeAdded sm) []
        server.availableShards.keys))
      else none
  | .scanning added removed todo, .check shard =>
      if shard ∈ todo then
        if shard ∈ server.assigned sm then
          some (.ok (server, .scanning added removed (todo.erase shard)))
        else some (.ok (server, .scanning added (removed ++ [shard]) (todo.erase shard)))
      else none
  | .scanning added removed [], .register =>
      if added = [] then some (.ok (server, .finishing [] removed))
      else some (.ok (server.register added,
        .copying (added.map fun shard => ⟨shard, .started⟩) [] removed))
  | .copying fetches responses removed, .intn i startIndex =>
      match fetches[i]? with
      | some ⟨shard, .started⟩ =>
          (fetchStart sm shard startIndex).map fun r => r.map fun phase =>
            (server, .copying (fetches.set i ⟨shard, phase⟩) responses removed)
      | _ => none
  | .copying fetches responses removed, .ask i answer =>
      match fetches[i]? with
      | some ⟨shard, .asking numNodes startIndex k⟩ =>
          some ((fetchNext sm server.nodeName shard numNodes startIndex k answer).map fun
            | .next phase => (server, .copying (fetches.set i ⟨shard, phase⟩) responses removed)
            | .done values =>
                (server, .copying (fetches.eraseIdx i) (responses ++ [values]) removed))
      | _ => none
  | .copying [] responses removed, .relock =>
      if free then some (.ok (server, .finishing responses.flatten removed)) else none
  | .finishing (v :: values) removed, .insert now =>
      some ((server.insertValue sm v now).map fun server => (server, .finishing values removed))
  | .finishing [] removed, .remove shard =>
      if shard ∈ removed then
        some ((server.removeShard shard).map fun server =>
          (server, .finishing [] (removed.erase shard)))
      else none
  | .finishing [] [], .unlock => some (.ok (server, .returned))
  | _, _ => none

/-- What a step needs and what it leads to. -/
inductive HandlerStep (free : Bool) :
    HandlerPhase → HandlerEvent → Except Panic (KvServerImpl × HandlerPhase) → Prop
  | lock (hf : free = true) : HandlerStep free .locking .lock
      (.ok (server, .scanning (server.shardsToBeAdded sm) [] server.availableShards.keys))
  | keep {added removed todo : List Int} {shard : Int} (ht : shard ∈ todo)
      (ha : shard ∈ server.assigned sm) :
      HandlerStep free (.scanning added removed todo) (.check shard)
        (.ok (server, .scanning added removed (todo.erase shard)))
  | drop {added removed todo : List Int} {shard : Int} (ht : shard ∈ todo)
      (ha : shard ∉ server.assigned sm) :
      HandlerStep free (.scanning added removed todo) (.check shard)
        (.ok (server, .scanning added (removed ++ [shard]) (todo.erase shard)))
  | skip {removed : List Int} : HandlerStep free (.scanning [] removed []) .register
      (.ok (server, .finishing [] removed))
  | register {added removed : List Int} (ha : added ≠ []) :
      HandlerStep free (.scanning added removed []) .register
        (.ok (server.register added,
          .copying (added.map fun shard => ⟨shard, .started⟩) [] removed))
  | intn {fetches : List Fetch} {responses : List (List GetShardValue)}
      {removed : List Int} {i startIndex : Nat} {shard : Int} {r : Except Panic FetchPhase}
      (hi : fetches[i]? = some ⟨shard, .started⟩)
      (hr : fetchStart sm shard startIndex = some r) :
      HandlerStep free (.copying fetches responses removed) (.intn i startIndex)
        (r.map fun phase =>
          (server, .copying (fetches.set i ⟨shard, phase⟩) responses removed))
  | askPanic {fetches : List Fetch} {responses : List (List GetShardValue)}
      {removed : List Int} {i : Nat} {answer : Option (List GetShardValue)} {shard : Int}
      {numNodes startIndex k : Nat} {panic : Panic}
      (hi : fetches[i]? = some ⟨shard, .asking numNodes startIndex k⟩)
      (hr : fetchNext sm server.nodeName shard numNodes startIndex k answer = .error panic) :
      HandlerStep free (.copying fetches responses removed) (.ask i answer) (.error panic)
  | askNext {fetches : List Fetch} {responses : List (List GetShardValue)}
      {removed : List Int} {i : Nat} {answer : Option (List GetShardValue)} {shard : Int}
      {numNodes startIndex k : Nat} {phase : FetchPhase}
      (hi : fetches[i]? = some ⟨shard, .asking numNodes startIndex k⟩)
      (hr : fetchNext sm server.nodeName shard numNodes startIndex k answer =
        .ok (.next phase)) :
      HandlerStep free (.copying fetches responses removed) (.ask i answer)
        (.ok (server, .copying (fetches.set i ⟨shard, phase⟩) responses removed))
  | askDone {fetches : List Fetch} {responses : List (List GetShardValue)}
      {removed : List Int} {i : Nat} {answer : Option (List GetShardValue)} {shard : Int}
      {numNodes startIndex k : Nat} {values : List GetShardValue}
      (hi : fetches[i]? = some ⟨shard, .asking numNodes startIndex k⟩)
      (hr : fetchNext sm server.nodeName shard numNodes startIndex k answer =
        .ok (.done values)) :
      HandlerStep free (.copying fetches responses removed) (.ask i answer)
        (.ok (server, .copying (fetches.eraseIdx i) (responses ++ [values]) removed))
  | relock {responses : List (List GetShardValue)} {removed : List Int}
      (hf : free = true) : HandlerStep free (.copying [] responses removed) .relock
        (.ok (server, .finishing responses.flatten removed))
  | insert {v : GetShardValue} {values : List GetShardValue} {removed : List Int}
      {now : Int} : HandlerStep free (.finishing (v :: values) removed) (.insert now)
        ((server.insertValue sm v now).map fun server => (server, .finishing values removed))
  | remove {removed : List Int} {shard : Int} (hs : shard ∈ removed) :
      HandlerStep free (.finishing [] removed) (.remove shard)
        ((server.removeShard shard).map fun server =>
          (server, .finishing [] (removed.erase shard)))
  | unlock : HandlerStep free (.finishing [] []) .unlock (.ok (server, .returned))

/-- A step that does not panic. -/
inductive HandlerMove (free : Bool) :
    HandlerPhase → HandlerEvent → KvServerImpl → HandlerPhase → Prop
  | lock (hf : free = true) : HandlerMove free .locking .lock server
      (.scanning (server.shardsToBeAdded sm) [] server.availableShards.keys)
  | keep {added removed todo : List Int} {shard : Int} (ht : shard ∈ todo)
      (ha : shard ∈ server.assigned sm) :
      HandlerMove free (.scanning added removed todo) (.check shard) server
        (.scanning added removed (todo.erase shard))
  | drop {added removed todo : List Int} {shard : Int} (ht : shard ∈ todo)
      (ha : shard ∉ server.assigned sm) :
      HandlerMove free (.scanning added removed todo) (.check shard) server
        (.scanning added (removed ++ [shard]) (todo.erase shard))
  | skip {removed : List Int} :
      HandlerMove free (.scanning [] removed []) .register server (.finishing [] removed)
  | register {added removed : List Int} (ha : added ≠ []) :
      HandlerMove free (.scanning added removed []) .register (server.register added)
        (.copying (added.map fun shard => ⟨shard, .started⟩) [] removed)
  | intn {fetches : List Fetch} {responses : List (List GetShardValue)}
      {removed : List Int} {i startIndex : Nat} {shard : Int} {phase : FetchPhase}
      (hi : fetches[i]? = some ⟨shard, .started⟩)
      (hr : fetchStart sm shard startIndex = some (.ok phase)) :
      HandlerMove free (.copying fetches responses removed) (.intn i startIndex) server
        (.copying (fetches.set i ⟨shard, phase⟩) responses removed)
  | askNext {fetches : List Fetch} {responses : List (List GetShardValue)}
      {removed : List Int} {i : Nat} {answer : Option (List GetShardValue)} {shard : Int}
      {numNodes startIndex k : Nat} {phase : FetchPhase}
      (hi : fetches[i]? = some ⟨shard, .asking numNodes startIndex k⟩)
      (hr : fetchNext sm server.nodeName shard numNodes startIndex k answer =
        .ok (.next phase)) :
      HandlerMove free (.copying fetches responses removed) (.ask i answer) server
        (.copying (fetches.set i ⟨shard, phase⟩) responses removed)
  | askDone {fetches : List Fetch} {responses : List (List GetShardValue)}
      {removed : List Int} {i : Nat} {answer : Option (List GetShardValue)} {shard : Int}
      {numNodes startIndex k : Nat} {values : List GetShardValue}
      (hi : fetches[i]? = some ⟨shard, .asking numNodes startIndex k⟩)
      (hr : fetchNext sm server.nodeName shard numNodes startIndex k answer =
        .ok (.done values)) :
      HandlerMove free (.copying fetches responses removed) (.ask i answer) server
        (.copying (fetches.eraseIdx i) (responses ++ [values]) removed)
  | relock {responses : List (List GetShardValue)} {removed : List Int}
      (hf : free = true) : HandlerMove free (.copying [] responses removed) .relock server
        (.finishing responses.flatten removed)
  | insert {v : GetShardValue} {values : List GetShardValue} {removed : List Int}
      {now : Int} {server' : KvServerImpl} (hr : server.insertValue sm v now = .ok server') :
      HandlerMove free (.finishing (v :: values) removed) (.insert now) server'
        (.finishing values removed)
  | remove {removed : List Int} {shard : Int} {server' : KvServerImpl} (hs : shard ∈ removed)
      (hr : server.removeShard shard = .ok server') :
      HandlerMove free (.finishing [] removed) (.remove shard) server'
        (.finishing [] (removed.erase shard))
  | unlock : HandlerMove free (.finishing [] []) .unlock server .returned

variable {server sm} in
theorem HandlerStep.move {free : Bool} {phase phase' : HandlerPhase} {e : HandlerEvent}
    {server' : KvServerImpl}
    (h : HandlerStep server sm free phase e (.ok (server', phase'))) :
    HandlerMove server sm free phase e server' phase' := by
  generalize hr : Except.ok (server', phase') = r at h
  cases h with
  | lock hf =>
      cases hr
      exact .lock hf
  | keep ht ha =>
      cases hr
      exact .keep ht ha
  | drop ht ha =>
      cases hr
      exact .drop ht ha
  | skip =>
      cases hr
      exact .skip
  | register ha =>
      cases hr
      exact .register ha
  | intn hi hstart =>
      obtain ⟨phase, rfl, heq⟩ := except_map_ok hr.symm
      cases heq
      exact .intn hi hstart
  | askPanic => cases hr
  | askNext hi hnext =>
      cases hr
      exact .askNext hi hnext
  | askDone hi hdone =>
      cases hr
      exact .askDone hi hdone
  | relock hf =>
      cases hr
      exact .relock hf
  | insert =>
      obtain ⟨server₁, hserver, heq⟩ := except_map_ok hr.symm
      cases heq
      exact .insert hserver
  | remove hs =>
      obtain ⟨server₁, hserver, heq⟩ := except_map_ok hr.symm
      cases heq
      exact .remove hs hserver
  | unlock =>
      cases hr
      exact .unlock

theorem handlerStep_cases {free : Bool} {phase : HandlerPhase} {e : HandlerEvent}
    {r : Except Panic (KvServerImpl × HandlerPhase)}
    (h : server.handlerStep sm free phase e = some r) :
    HandlerStep server sm free phase e r := by
  unfold handlerStep at h
  split at h
  · split at h <;> cases h
    exact .lock ‹_›
  · split at h
    · split at h <;> cases h
      · exact .keep ‹_› ‹_›
      · exact .drop ‹_› ‹_›
    · cases h
  · split at h <;> cases h
    · subst_vars
      exact .skip
    · exact .register ‹_›
  · split at h
    · obtain ⟨q, hq, rfl⟩ := Option.map_eq_some_iff.mp h
      exact .intn ‹_› hq
    · cases h
  · split at h
    · rename_i hi
      obtain rfl := Option.some.inj h
      cases hr : fetchNext sm server.nodeName _ _ _ _ _ with
      | error panic => exact .askPanic hi hr
      | ok result =>
          cases result with
          | next phase => exact .askNext hi hr
          | done values => exact .askDone hi hr
    · cases h
  · split at h <;> cases h
    exact .relock ‹_›
  · cases h
    exact .insert
  · split at h <;> cases h
    exact .remove ‹_›
  · cases h
    exact .unlock
  · cases h

section Shards

variable {server server' : KvServerImpl} {sm : ShardMapState} {shard : Int}

theorem mem_shardsToBeAdded : shard ∈ server.shardsToBeAdded sm ↔
    shard ∈ server.assigned sm ∧ shard ∉ server.availableShards := by
  simp [shardsToBeAdded]

theorem mem_register {added : List Int} : shard ∈ (server.register added).availableShards ↔
    shard ∈ added ∨ shard ∈ server.availableShards := by
  simp [register, GoMap.mem_insertAll]

theorem lookup_register {added : List Int} :
    (server.register added).availableShards.lookup shard =
      if shard ∈ added then some ⟨∅⟩ else server.availableShards.lookup shard :=
  GoMap.lookup_insertAll_const

/-- The entry of `availableShards` that a copied value goes to. -/
def entryOf (sm : ShardMapState) (v : GetShardValue) : Option Int :=
  (getShardForKey v.key sm.numShards).map int32

theorem insertValue_eq {v : GetShardValue} {now : Int}
    (h : server.insertValue sm v now = .ok server') :
    ∃ shard data, entryOf sm v = some shard ∧
      server.availableShards.lookup shard = some data ∧
      server' = server.update shard (data.set v.key v.value v.ttlMsRemaining now) := by
  simp only [insertValue] at h
  split at h
  · cases h
  · rename_i shardID hid
    split at h <;> cases h
    exact ⟨int32 shardID, _, by rw [entryOf, hid]; rfl, ‹_›, rfl⟩

theorem insertValue_ok {v : GetShardValue} {now : Int}
    (h : server.insertValue sm v now = .ok server') :
    server'.nodeName = server.nodeName ∧
      ∀ shard, shard ∈ server'.availableShards ↔ shard ∈ server.availableShards := by
  obtain ⟨shard, data, _, hl, rfl⟩ := insertValue_eq h
  exact ⟨rfl, fun shard => mem_update (mem_of_lookup hl)⟩

theorem insertValue_missing {v : GetShardValue} {now : Int}
    (h : server.insertValue sm v now = .error .insertIntoMissing) :
    ∃ shard, entryOf sm v = some shard ∧ shard ∉ server.availableShards := by
  simp only [insertValue] at h
  split at h
  · cases h
  · rename_i shardID hid
    split at h
    · exact ⟨int32 shardID, by rw [entryOf, hid]; rfl, AList.lookup_eq_none.mp ‹_›⟩
    · cases h

theorem insertValue_error {v : GetShardValue} {now : Int} {panic : Panic}
    (h : server.insertValue sm v now = .error panic) :
    panic = .divideByZero ∨ panic = .insertIntoMissing := by
  simp only [insertValue] at h
  split at h
  · cases h
    exact Or.inl rfl
  · split at h <;> cases h
    exact Or.inr rfl

theorem insertValue_hosted {v : GetShardValue} (now : Int) (hv : entryOf sm v = some shard)
    (hs : shard ∈ server.availableShards) :
    ∃ server', server.insertValue sm v now = .ok server' := by
  obtain ⟨shardID, hid, rfl⟩ := Option.map_eq_some_iff.mp hv
  obtain ⟨data, hl⟩ := Option.isSome_iff_exists.mp (AList.lookup_isSome.mpr hs)
  simp only [insertValue, hid, hl]
  exact ⟨_, rfl⟩

theorem removeShard_eq (h : server.removeShard shard = .ok server') :
    server' = { server with availableShards := server.availableShards.erase shard } := by
  simp only [removeShard] at h
  split at h <;> cases h
  rfl

theorem removeShard_ok (h : server.removeShard shard = .ok server') :
    server'.nodeName = server.nodeName ∧ ∀ other, other ∈ server'.availableShards ↔
      other ≠ shard ∧ other ∈ server.availableShards := by
  rw [removeShard_eq h]
  exact ⟨rfl, fun other => AList.mem_erase⟩

theorem lookup_removeShard {other : Int} (h : server.removeShard shard = .ok server')
    (hne : other ≠ shard) :
    server'.availableShards.lookup other = server.availableShards.lookup other := by
  rw [removeShard_eq h]
  exact AList.lookup_erase_ne hne

theorem removeShard_error {panic : Panic} (h : server.removeShard shard = .error panic) :
    panic = .removeMissing ∧ shard ∉ server.availableShards := by
  simp only [removeShard] at h
  split at h <;> cases h
  exact ⟨rfl, AList.lookup_eq_none.mp ‹_›⟩

/-- The handler does not ask itself for the contents of a shard. -/
theorem HandlerStep.ne_contentsOfMissing {free : Bool} {phase : HandlerPhase}
    {e : HandlerEvent} {r : Except Panic (KvServerImpl × HandlerPhase)} {panic : Panic}
    (h : HandlerStep server sm free phase e r) (hr : r = .error panic) :
    panic ≠ .contentsOfMissing := by
  cases h with
  | lock _ | keep _ _ | drop _ _ | skip | register _ | askNext _ _ | askDone _ _ | relock _
  | unlock => cases hr
  | intn _ hf =>
      obtain ⟨rfl, _⟩ := fetchStart_error (hf.trans (congrArg some (except_map_error hr)))
      exact Panic.noConfusion
  | askPanic _ hf =>
      cases hr
      obtain ⟨rfl, _⟩ := fetchNext_error hf
      exact Panic.noConfusion
  | insert =>
      rcases insertValue_error (except_map_error hr) with rfl | rfl
      · exact Panic.noConfusion
      · exact Panic.noConfusion
  | remove _ =>
      obtain ⟨rfl, _⟩ := removeShard_error (except_map_error hr)
      exact Panic.noConfusion

theorem HandlerMove.nodeName_eq {free : Bool} {phase phase' : HandlerPhase}
    {e : HandlerEvent} (h : HandlerMove server sm free phase e server' phase') :
    server'.nodeName = server.nodeName := by
  cases h with
  | lock _ | keep _ _ | drop _ _ | skip | register _ | intn _ _ | askNext _ _ | askDone _ _
  | relock _ | unlock => rfl
  | insert hserver => exact (insertValue_ok hserver).1
  | remove _ hserver => exact (removeShard_ok hserver).1

theorem mem_assigned (hv : sm.isValid = true) (hn : sm.numShards < 2 ^ 31) :
    shard ∈ server.assigned sm ↔ shard ∈ sm.shardsForNode server.nodeName := by
  have hself {x : Int} (hx : x ∈ sm.shardsForNode server.nodeName) : int32 x = x := by
    obtain ⟨nodes, hl, _⟩ := ShardMapState.lookup_of_mem_shardsForNode hx
    obtain ⟨hlo, hhi⟩ := range_of_valid hv hl
    exact int32_of_lt hlo (by omega)
  rw [assigned, List.mem_map]
  constructor
  · rintro ⟨x, hx, rfl⟩
    rwa [hself hx]
  · exact fun hx => ⟨shard, hx, hself hx⟩

theorem assigned_congr (h : server'.nodeName = server.nodeName) :
    server'.assigned sm = server.assigned sm := by
  rw [assigned, h, assigned]

end Shards

end KvServerImpl

end KvLab
