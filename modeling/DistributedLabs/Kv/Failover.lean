import DistributedLabs.Kv.Client
import Mathlib.Data.List.Rotate
import Mathlib.Order.Nat

/-!
One call of `Get` of the client from start to end, with the two points at which a node can
fail kept apart: `GetClient` and the request. The call is compared with the phases that
the client goes through in the store, and then with the failover that it is meant to make.
-/

namespace KvLab

/-- What becomes of a node: `GetClient` returns an error, the request returns an error, or
it is answered. -/
inductive Attempt (ρ : Type) where
  | noClient (err : CallErr)
  | failed (err : CallErr)
  | answered (response : ρ)
  deriving DecidableEq

def Attempt.err {ρ : Type} : Attempt ρ → Option CallErr
  | .noClient err | .failed err => some err
  | .answered _ => none

def Attempt.answer : Attempt GetResponse → Except CallErr (Option Response)
  | .noClient err | .failed err => .error err
  | .answered response => .ok (some (.get response))

theorem Attempt.answer_of_err {attempt : Attempt GetResponse} {err : CallErr}
    (h : attempt.err = some err) : attempt.answer = .error err := by
  cases attempt with
  | noClient err' | failed err' =>
      cases h
      rfl
  | answered response => cases h

def Outcome.err : Outcome → Option CallErr
  | .read _ _ err | .written err => err

/-- The nodes that a call of `Get` turned to, in order, and what it returned. -/
structure GetRun where
  contacted : List GoString
  outcome : Outcome
  deriving DecidableEq

section Get

variable (nodes : List GoString) (startIndex : Nat) (attempts : Nat → Attempt GetResponse)

def getLoop : Nat → Nat → Option CallErr → Except Panic GetRun
  | 0, _, lastErr => .ok ⟨[], .read [] false lastErr⟩
  | todo + 1, i, _ =>
      match nodes[(i + startIndex) % nodes.length]? with
      | none => .error .indexOutOfRange
      | some node =>
          match attempts i with
          | .noClient err | .failed err =>
              (getLoop todo (i + 1) (some err)).map fun run =>
                { run with contacted := node :: run.contacted }
          | .answered response =>
              .ok ⟨[node], .read response.value response.wasFound none⟩

end Get

/-- `Get`. The number of shards and the nodes of the shard are two readings of the shard
map, and `rand.IntN` returns some number below its argument. -/
def kvGet (counted listed : ShardMapState) (key : GoString) (choice : Nat)
    (attempts : Nat → Attempt GetResponse) : Except Panic GetRun :=
  match getShardForKey key counted.numShards with
  | none => .error .divideByZero
  | some shardID =>
      if (listed.nodesForShard shardID).length = 0 then
        .ok ⟨[], .read [] false (some noNodes)⟩
      else
        getLoop (listed.nodesForShard shardID)
          (choice % (listed.nodesForShard shardID).length) attempts
          (listed.nodesForShard shardID).length 0 none

/-- The phase of the client in the store after it has turned to some nodes, the first of
them in iteration `i`. -/
def CallPhase.afterContacts (attempts : Nat → Attempt GetResponse) :
    CallPhase → Nat → List GoString → CallPhase
  | phase, _, [] => phase
  | phase, i, node :: rest =>
      (phase.onAnswer node (attempts i).answer).afterContacts attempts (i + 1) rest

/-- The nodes are tried in cyclic order from a start, each at most once, up to the first
that answers. Only if there is none is an error returned, and then all have been tried. -/
structure FailsOver (nodes : List GoString) (startIndex : Nat)
    (attempts : Nat → Attempt GetResponse) (run : GetRun) : Prop where
  cyclic : run.contacted = (nodes.rotate startIndex).take run.contacted.length
  once : run.contacted.Nodup
  first : ∀ i < nodes.length, ∀ response, attempts i = .answered response →
    (∀ j < i, (attempts j).err ≠ none) →
    run.contacted.length = i + 1 ∧
      run.outcome = .read response.value response.wasFound none
  failed_iff : run.outcome.err ≠ none ↔
    nodes = [] ∨ ∀ i < nodes.length, (attempts i).err ≠ none
  exhausted : run.outcome.err ≠ none → run.contacted.Perm nodes ∧
    run.outcome = .read [] false
      (if nodes = [] then some noNodes else (attempts (nodes.length - 1)).err)

section Loop

variable {nodes : List GoString} {startIndex : Nat} {attempts : Nat → Attempt GetResponse}

theorem drop_rotate_cons (startIndex : Nat) {i : Nat} (hi : i < nodes.length) :
    ∃ node, nodes[(i + startIndex) % nodes.length]? = some node ∧
      (nodes.rotate startIndex).drop i = node :: (nodes.rotate startIndex).drop (i + 1) := by
  have hlt : i < (nodes.rotate startIndex).length := by rwa [List.length_rotate]
  refine ⟨(nodes.rotate startIndex)[i], ?_, List.drop_eq_getElem_cons hlt⟩
  rw [← List.getElem?_rotate hi, List.getElem?_eq_getElem hlt]

theorem getLoop_failed {todo i : Nat} {lastErr : Option CallErr} {node : GoString}
    {err : CallErr} (hnode : nodes[(i + startIndex) % nodes.length]? = some node)
    (herr : (attempts i).err = some err) :
    getLoop nodes startIndex attempts (todo + 1) i lastErr =
      (getLoop nodes startIndex attempts todo (i + 1) (some err)).map fun run =>
        { run with contacted := node :: run.contacted } := by
  rw [getLoop, hnode]
  cases ha : attempts i with
  | noClient err' | failed err' =>
      rw [ha] at herr
      cases herr
      rfl
  | answered response =>
      rw [ha] at herr
      cases herr

theorem getLoop_exhausted {todo i : Nat} {lastErr : Option CallErr}
    (hi : i + todo = nodes.length)
    (hfail : ∀ j, i ≤ j → j < nodes.length → (attempts j).err ≠ none) :
    getLoop nodes startIndex attempts todo i lastErr =
      .ok ⟨(nodes.rotate startIndex).drop i, .read [] false
        (if todo = 0 then lastErr else (attempts (nodes.length - 1)).err)⟩ := by
  induction todo generalizing i lastErr with
  | zero =>
      rw [getLoop, List.drop_of_length_le (by rw [List.length_rotate]; omega)]
      rfl
  | succ todo ih =>
      obtain ⟨node, hnode, hdrop⟩ := drop_rotate_cons startIndex
        (show i < nodes.length by omega)
      obtain ⟨err, herr⟩ := Option.ne_none_iff_exists'.mp
        (hfail i (Nat.le_refl i) (by omega))
      rw [getLoop_failed hnode herr, ih (by omega) (fun j hj => hfail j (by omega)), hdrop]
      cases todo with
      | zero =>
          rw [← herr, show nodes.length - 1 = i by omega]
          rfl
      | succ todo => rfl

theorem getLoop_answered {todo i k : Nat} {lastErr : Option CallErr}
    {response : GetResponse} (hi : i + todo = nodes.length) (hik : i ≤ k)
    (hk : k < nodes.length) (ha : attempts k = .answered response)
    (hfail : ∀ j, i ≤ j → j < k → (attempts j).err ≠ none) :
    getLoop nodes startIndex attempts todo i lastErr =
      .ok ⟨((nodes.rotate startIndex).drop i).take (k + 1 - i),
        .read response.value response.wasFound none⟩ := by
  induction todo generalizing i lastErr with
  | zero => omega
  | succ todo ih =>
      obtain ⟨node, hnode, hdrop⟩ := drop_rotate_cons startIndex
        (show i < nodes.length by omega)
      rw [hdrop, show k + 1 - i = (k - i) + 1 by omega, List.take_succ_cons]
      by_cases heq : i = k
      · subst heq
        rw [getLoop, hnode, ha, Nat.sub_self, List.take_zero]
      · obtain ⟨err, herr⟩ := Option.ne_none_iff_exists'.mp
          (hfail i (Nat.le_refl i) (by omega))
        rw [getLoop_failed hnode herr,
          ih (by omega) (by omega) (fun j hj => hfail j (by omega)),
          show k + 1 - (i + 1) = k - i by omega]
        rfl

theorem first_answer_or_all_failed (n : Nat) (attempts : Nat → Attempt GetResponse) :
    (∃ k < n, ∃ response, attempts k = .answered response ∧
      ∀ j < k, (attempts j).err ≠ none) ∨ ∀ j < n, (attempts j).err ≠ none := by
  by_cases h : ∃ k, k < n ∧ (attempts k).err = none
  · refine Or.inl ⟨Nat.find h, (Nat.find_spec h).1, ?_⟩
    cases ha : attempts (Nat.find h) with
    | noClient err | failed err =>
        have hnone := (Nat.find_spec h).2
        rw [ha] at hnone
        cases hnone
    | answered response =>
        refine ⟨response, rfl, fun j hj hnone => ?_⟩
        exact Nat.find_min h hj ⟨Nat.lt_trans hj (Nat.find_spec h).1, hnone⟩
  · exact Or.inr fun j hj hnone => h ⟨j, hj, hnone⟩

theorem first_answer_unique {i k : Nat} {r r' : GetResponse}
    (hi : attempts i = .answered r) (hk : attempts k = .answered r')
    (hi' : ∀ j < i, (attempts j).err ≠ none) (hk' : ∀ j < k, (attempts j).err ≠ none) :
    i = k := by
  have not_before {a b : Nat} {r : GetResponse} (ha : attempts a = .answered r)
      (hb : ∀ j < b, (attempts j).err ≠ none) : ¬ a < b := by
    intro hlt
    exact hb a hlt (by rw [ha]; rfl)
  have := not_before hi hk'
  have := not_before hk hi'
  omega

theorem failsOver_answered {k : Nat} {response : GetResponse} (hn : nodes.Nodup)
    (hk : k < nodes.length) (ha : attempts k = .answered response)
    (hbefore : ∀ j < k, (attempts j).err ≠ none) :
    FailsOver nodes startIndex attempts
      ⟨(nodes.rotate startIndex).take (k + 1),
        .read response.value response.wasFound none⟩ := by
  have hlen : ((nodes.rotate startIndex).take (k + 1)).length = k + 1 := by
    rw [List.length_take, List.length_rotate]
    omega
  refine ⟨?_, ?_, ?_, ⟨fun h => absurd rfl h, ?_⟩, fun h => absurd rfl h⟩
  · rw [hlen]
  · exact (List.nodup_rotate.mpr hn).sublist (List.take_sublist _ _)
  · intro i _ response' ha' hbefore'
    obtain rfl := first_answer_unique ha' ha hbefore' hbefore
    rw [ha] at ha'
    cases ha'
    exact ⟨hlen, rfl⟩
  · intro h
    cases h with
    | inl hnil =>
        rw [hnil] at hk
        exact absurd hk (Nat.not_lt_zero k)
    | inr hall => exact absurd (by rw [ha]; rfl) (hall k hk)

theorem failsOver_exhausted (hn : nodes.Nodup) (hne : nodes ≠ [])
    (hall : ∀ j < nodes.length, (attempts j).err ≠ none) :
    FailsOver nodes startIndex attempts
      ⟨nodes.rotate startIndex, .read [] false (attempts (nodes.length - 1)).err⟩ := by
  have hpos := List.length_pos_iff.mpr hne
  refine ⟨?_, List.nodup_rotate.mpr hn, ?_, ⟨fun _ => Or.inr hall, fun _ => ?_⟩, fun _ => ?_⟩
  · rw [List.take_length]
  · intro i hi response ha _
    exact absurd (by rw [ha]; rfl) (hall i hi)
  · exact hall (nodes.length - 1) (by omega)
  · rw [if_neg hne]
    exact ⟨List.rotate_perm nodes startIndex, rfl⟩

/-- The loop of `Get` takes the client through the phases that it has in the store. -/
theorem getLoop_phases {todo i : Nat} {lastErr : Option CallErr} {run : GetRun}
    (hi : i + todo = nodes.length)
    (h : getLoop nodes startIndex attempts todo i lastErr = .ok run) :
    ((CallPhase.getting nodes startIndex i lastErr).afterContacts attempts i
      run.contacted).result = some run.outcome := by
  induction todo generalizing i lastErr run with
  | zero =>
      cases h
      exact if_pos (by omega)
  | succ todo ih =>
      obtain ⟨node, hnode, _⟩ := drop_rotate_cons startIndex
        (show i < nodes.length by omega)
      cases herr : (attempts i).err with
      | some err =>
          rw [getLoop_failed hnode herr] at h
          obtain ⟨rest, hrest, rfl⟩ := except_map_ok h
          have hphase : (CallPhase.getting nodes startIndex i lastErr).onAnswer node
              (attempts i).answer = .getting nodes startIndex (i + 1) (some err) := by
            rw [Attempt.answer_of_err herr]
            rfl
          rw [CallPhase.afterContacts, hphase]
          exact ih (by omega) hrest
      | none =>
          cases ha : attempts i with
          | noClient err | failed err =>
              rw [ha] at herr
              cases herr
          | answered response =>
              simp only [getLoop, hnode, ha] at h
              cases h
              simp only [CallPhase.afterContacts, ha]
              rfl

end Loop

/-- A `Get` that reads one state of the shard map is a `Get` of the store. -/
theorem kvGet_phases {sm : ShardMapState} {key : GoString} {choice : Nat}
    {attempts : Nat → Attempt GetResponse} {run : GetRun}
    (h : kvGet sm sm key choice attempts = .ok run) :
    ∃ phase, (Op.get key).start sm (choice % (sm.nodesForKey key).length) =
        some (.ok phase) ∧
      (phase.afterContacts attempts 0 run.contacted).result = some run.outcome := by
  cases hk : getShardForKey key sm.numShards with
  | none =>
      simp only [kvGet, hk] at h
      cases h
  | some shardID =>
      simp only [kvGet, hk] at h
      simp only [Op.start, Op.key, Op.isWrite, ShardMapState.nodesForKey, hk]
      split at h
      · rename_i hzero
        cases h
        rw [if_neg (Option.some_ne_none _), if_pos (List.length_eq_zero_iff.mp hzero)]
        exact ⟨_, rfl, rfl⟩
      · rename_i hpos
        have hlt := Nat.mod_lt choice (Nat.pos_of_ne_zero hpos)
        rw [if_neg (Option.some_ne_none _),
          if_neg (fun hnil => hpos (List.length_eq_zero_iff.mpr hnil)),
          if_neg Bool.false_ne_true, if_pos hlt]
        exact ⟨_, rfl, getLoop_phases (Nat.zero_add _) h⟩

theorem kvGet_fails_over {counted listed : ShardMapState} {key : GoString} {shardID : Int}
    (hk : getShardForKey key counted.numShards = some shardID)
    (hn : (listed.nodesForShard shardID).Nodup) (choice : Nat)
    (attempts : Nat → Attempt GetResponse) :
    ∃ run, kvGet counted listed key choice attempts = .ok run ∧
      FailsOver (listed.nodesForShard shardID)
        (choice % (listed.nodesForShard shardID).length) attempts run := by
  simp only [kvGet, hk]
  generalize listed.nodesForShard shardID = nodes at hn
  split
  · rename_i hzero
    obtain rfl := List.length_eq_zero_iff.mp hzero
    refine ⟨_, rfl, rfl, List.nodup_nil, fun i hi => absurd hi (Nat.not_lt_zero i), ?_, ?_⟩
    · exact ⟨fun _ => Or.inl rfl, fun _ => Option.some_ne_none _⟩
    · exact fun _ => ⟨List.Perm.refl _, rfl⟩
  · rename_i hpos
    cases first_answer_or_all_failed nodes.length attempts with
    | inl hfirst =>
        obtain ⟨k, hk, response, ha, hbefore⟩ := hfirst
        exact ⟨_, getLoop_answered (Nat.zero_add _) (Nat.zero_le k) hk ha
          (fun j _ => hbefore j), failsOver_answered hn hk ha hbefore⟩
    | inr hall =>
        rw [getLoop_exhausted (Nat.zero_add _) (fun j _ => hall j), if_neg hpos]
        have hne : nodes ≠ [] := fun hnil => hpos (List.length_eq_zero_iff.mpr hnil)
        exact ⟨_, rfl, failsOver_exhausted hn hne hall⟩

/-- The first node that is asked has no client, the second does not know the key. -/
theorem kvGet_fails_over_second_node :
    getShardForKey [97] (smallMap [[1], [2]] [[1], [2]]).numShards = some 1 ∧
    ∃ run, kvGet (smallMap [[1], [2]] [[1], [2]]) (smallMap [[1], [2]] [[1], [2]]) [97] 1
        (fun i => if i = 0 then .noClient (.failure "refused") else .answered ⟨[], false⟩) =
          .ok run ∧
      FailsOver [[1], [2]] 1
        (fun i => if i = 0 then .noClient (.failure "refused") else .answered ⟨[], false⟩)
        run := by
  have hk : getShardForKey [97] (smallMap [[1], [2]] [[1], [2]]).numShards = some 1 := by
    decide
  exact ⟨hk, kvGet_fails_over hk (by decide) 1 _⟩

end KvLab
