import DistributedLabs.Kv.FanOut

/-!
What the invariant of the fan-out says of a whole call: no goroutine is held up, the call
ends, and its result is nil or an error that a node produced. To the client in the store,
which deals with one node at a time, the fan-out is a sequence of answers and failures.
-/

namespace KvLab

open GoTime

namespace FanOut

section Progress

variable {request : Request} {nodes : List GoString} {attempts : Nat → Attempt Unit}
  {s : FanOut} {i : Nat} {a : SenderPhase}

/-- A goroutine that has an error to report can report it. -/
theorem Ok.report_enabled {err : CallErr} (hok : s.Ok request nodes attempts)
    (hi : s.goroutines[i]? = some (.failing err)) :
    ∃ t, s.step request nodes attempts (.report i) = some t := by
  obtain ⟨_, _, hopen⟩ := hok.spawning hi nofun
  simp only [FanOut.step, hok.panicked, hi, report, hopen, hok.has_room hi rfl]
  exact ⟨_, rfl⟩

/-- A goroutine that has not ended can take its next step. -/
theorem Ok.enabled (hok : s.Ok request nodes attempts) (hi : s.goroutines[i]? = some a)
    (ha : a.running = true) : ∃ e t, s.step request nodes attempts e = some t := by
  obtain ⟨hlt, _⟩ := List.getElem?_eq_some_iff.mp hi
  have hnodes := Nat.lt_of_lt_of_le hlt hok.spawned
  cases a with
  | started => exact ⟨.getClient i, _, by simp only [FanOut.step, hok.panicked, hi]; rfl⟩
  | connected =>
      refine ⟨.request i, ?_⟩
      simp only [FanOut.step, hok.panicked, hi, List.getElem?_eq_getElem hnodes]
      exact ⟨_, rfl⟩
  | requested => exact ⟨.answer i, _, by simp only [FanOut.step, hok.panicked, hi]; rfl⟩
  | failing err => exact ⟨.report i, hok.report_enabled hi⟩
  | ending => exact ⟨.done i, _, by simp only [FanOut.step, hok.panicked, hi]; rfl⟩
  | done => cases ha

/-- As long as the call has not returned, something can happen. -/
theorem Ok.progress (hok : s.Ok request nodes attempts) (hs : ¬ s.Returned) :
    ∃ e t, s.step request nodes attempts e = some t := by
  cases hc : s.caller with
  | starting =>
      refine ⟨.start, ?_⟩
      simp only [FanOut.step, hok.panicked, hc]
      split
      · contradiction
      · split
        · exact ⟨_, rfl⟩
        · exact ⟨_, rfl⟩
  | spawning =>
      by_cases hn : s.goroutines.length < nodes.length
      · refine ⟨.spawn, ?_⟩
        simp only [FanOut.step, hok.panicked, hc, hn]
        exact ⟨_, rfl⟩
      · have heq := Nat.le_antisymm hok.spawned (Nat.le_of_not_lt hn)
        by_cases hw : s.wg = 0
        · refine ⟨.wait, ?_⟩
          simp only [FanOut.step, hok.panicked, hc, heq, hw]
          exact ⟨_, rfl⟩
        · have hpos := Nat.pos_of_ne_zero hw
          rw [hok.waits] at hpos
          obtain ⟨phase, hmem, hrunning⟩ := List.countP_pos_iff.mp hpos
          obtain ⟨i, hi⟩ := List.mem_iff_getElem?.mp hmem
          exact hok.enabled hi hrunning
  | closing => exact ⟨.close, _, by simp only [FanOut.step, hok.panicked, hc]; rfl⟩
  | receiving => exact ⟨.receive, _, by simp only [FanOut.step, hok.panicked, hc]; rfl⟩
  | returned err => exact absurd ⟨err, hc⟩ hs

end Progress

end FanOut

def SenderPhase.remaining : SenderPhase → Nat
  | .started => 5
  | .connected => 4
  | .requested => 3
  | .failing _ => 2
  | .ending => 1
  | .done => 0

def CallerPhase.remaining : CallerPhase → Nat
  | .starting => 4
  | .spawning => 3
  | .closing => 2
  | .receiving => 1
  | .returned _ => 0

namespace FanOut

variable (request : Request) (nodes : List GoString) (attempts : Nat → Attempt Unit)
  (s : FanOut)

/-- The steps that the call has yet to make, at most. -/
def remaining : Nat :=
  s.caller.remaining + 6 * (nodes.length - s.goroutines.length) +
    (s.goroutines.map SenderPhase.remaining).sum

/-- What holds in every state of a call, which takes the steps of `M`. A goroutine is not
held up by the channel and no request is sent twice. A call that has returned has waited for
all goroutines, the request has gone to every node with a client, and the result is nil or an
error as it should be. -/
structure Sound (M : Machine FanOut FanOutEvent) : Prop where
  panicked : s.panicked = false
  unblocked : ∀ (i : Nat) (err : CallErr), s.goroutines[i]? = some (.failing err) →
    ∃ t, M.step s (.report i) = some t
  once : ∀ i, s.sentFrom i = [] ∨ s.sentFrom i = requestTo request nodes i
  waited : s.Returned → s.AllDone nodes
  sent : s.Returned → ∀ i < nodes.length,
    s.sentFrom i = if (attempts i).connects then requestTo request nodes i else []
  nil_iff : ∀ err, s.caller = .returned err →
    (err = none ↔ nodes ≠ [] ∧ ∀ i < nodes.length, (attempts i).err = none)
  failed : ∀ err, s.caller = .returned (some err) → nodes = [] ∧ err = noNodes ∨
    ∃ i < nodes.length, (attempts i).err = some err
  progress : ¬ s.Returned → ∃ e t, M.step s e = some t

section Whole

variable {request nodes attempts s}

theorem remaining_move {i : Nat} {a b : SenderPhase} {t : FanOut}
    (hi : s.goroutines[i]? = some a) (ht : t.goroutines = (s.move i b).goroutines)
    (hc : t.caller = s.caller) (hlt : b.remaining < a.remaining) :
    t.remaining nodes < s.remaining nodes := by
  have hsum := Phases.sum_move SenderPhase.remaining b hi
  rw [remaining, remaining, ht, hc, move_goroutines, List.length_set]
  omega

theorem remaining_lt {t : FanOut} {e : FanOutEvent} (hok : s.Ok request nodes attempts)
    (h : s.Step request nodes attempts e t) : t.remaining nodes < s.remaining nodes := by
  cases h with
  | noNodes hc _ | start hc _ | wait hc _ _ | close hc | receive hc =>
      simp only [remaining, hc, CallerPhase.remaining]
      omega
  | spawn hc hn =>
      simp only [remaining, List.length_append, List.map_append, List.sum_append,
        List.length_cons, List.length_nil, List.map_cons, List.map_nil, List.sum_cons,
        List.sum_nil, SenderPhase.remaining]
      omega
  | @getClient i hi =>
      apply remaining_move hi rfl rfl
      cases attempts i with
      | noClient err => exact (by decide : 2 < 5)
      | failed err | answered response => exact (by decide : 4 < 5)
  | request hi _ => exact remaining_move hi rfl rfl (by decide : 3 < 4)
  | @answer i hi =>
      apply remaining_move hi rfl rfl
      cases attempts i with
      | noClient err | answered response => exact (by decide : 1 < 3)
      | failed err => exact (by decide : 2 < 3)
  | report hi _ _ => exact remaining_move hi rfl rfl (by decide : 1 < 2)
  | reportClosed hi hc => exact absurd hc (hok.not_closed hi nofun)
  | done hi _ => exact remaining_move hi rfl rfl (by decide : 0 < 1)
  | doneNegative hi hw => exact absurd hw (hok.wg_ne_zero hi rfl)

theorem Ok.sound (hok : s.Ok request nodes attempts) :
    s.Sound request nodes attempts (fanOut request nodes attempts) := by
  have hreturned {err : Option CallErr} (hc : s.caller = .returned err) :
      s.AllDone nodes ∧ Justified nodes attempts err := by
    have hcaller := hok.caller
    rwa [hc] at hcaller
  refine ⟨hok.panicked, fun i err => hok.report_enabled, ?_, ?_, ?_, ?_, ?_, hok.progress⟩
  · intro i
    rw [hok.sent i]
    split
    · exact Or.inr rfl
    · exact Or.inl rfl
  · rintro ⟨err, hc⟩
    exact (hreturned hc).1
  · rintro ⟨err, hc⟩ i hi
    have hdone := (hreturned hc).1
    have hlt : i < s.goroutines.length := by rw [hdone.1]; exact hi
    have hphase : s.goroutines[i]? = some .done := by
      rw [List.getElem?_eq_getElem hlt, hdone.2 _ (List.getElem_mem hlt)]
    rw [hok.sent i, hasSent, hphase]
    rfl
  · intro err hc
    have hjust := (hreturned hc).2
    cases err with
    | none => exact ⟨fun _ => hjust, fun _ => rfl⟩
    | some err =>
        constructor
        · intro hnil
          cases hnil
        · intro hnone
          cases hjust with
          | inl hempty => exact absurd hempty.1 hnone.1
          | inr hfailed =>
              obtain ⟨i, hi, herr⟩ := hfailed
              rw [hnone.2 i hi] at herr
              cases herr
  · exact fun err hc => (hreturned hc).2

end Whole

end FanOut

namespace FanOut

variable (nodes : List GoString) (s : FanOut)

def finishedAt (i : Nat) : Bool := (s.goroutines[i]?.map SenderPhase.finished).getD false

/-- The nodes that have not been dealt with. -/
def todo : List GoString :=
  (nodes.zipIdx.filter fun entry => !s.finishedAt entry.2).map Prod.fst

/-- The phase that the client has in the store. -/
def phase : CallPhase :=
  match s.caller with
  | .returned err => .returning (.written err)
  | .starting | .spawning | .closing | .receiving => .writing (s.todo nodes) s.errorHandle

section Phase

variable {nodes s} {t : FanOut} {i : Nat} {a b : SenderPhase} {node : GoString}

theorem phase_of_not_returned (h : ¬ s.Returned) :
    s.phase nodes = .writing (s.todo nodes) s.errorHandle := by
  rw [phase]
  cases hc : s.caller with
  | starting | spawning | closing | receiving => rfl
  | returned err => exact absurd ⟨err, hc⟩ h

theorem phase_congr (hs : ¬ s.Returned) (ht : ¬ t.Returned)
    (hf : ∀ j, t.finishedAt j = s.finishedAt j) (herrs : t.errorHandle = s.errorHandle) :
    t.phase nodes = s.phase nodes := by
  rw [phase_of_not_returned hs, phase_of_not_returned ht, herrs]
  simp only [todo, hf]

theorem finishedAt_move (b : SenderPhase) (hi : s.goroutines[i]? = some a)
    (ht : t.goroutines = (s.move i b).goroutines) (j : Nat) :
    t.finishedAt j = if i = j then b.finished else s.finishedAt j := by
  obtain ⟨hlt, _⟩ := List.getElem?_eq_some_iff.mp hi
  rw [finishedAt, finishedAt, ht, move_goroutines]
  by_cases heq : i = j
  · subst heq
    rw [List.getElem?_set_self hlt, if_pos rfl]
    rfl
  · rw [List.getElem?_set_ne heq, if_neg heq]

theorem finishedAt_keep (b : SenderPhase) (hi : s.goroutines[i]? = some a)
    (ht : t.goroutines = (s.move i b).goroutines) (hab : b.finished = a.finished) (j : Nat) :
    t.finishedAt j = s.finishedAt j := by
  rw [finishedAt_move b hi ht]
  split
  · rename_i heq
    rw [← heq, finishedAt, hi, hab]
    rfl
  · rfl

theorem mem_todo (hn : nodes[i]? = some node) (hf : s.finishedAt i = false) :
    node ∈ s.todo nodes := by
  refine List.mem_map.mpr ⟨(node, i), List.mem_filter.mpr ⟨?_, ?_⟩, rfl⟩
  · exact List.mk_mem_zipIdx_iff_getElem?.mpr hn
  · rw [hf]
    rfl

theorem todo_of_allDone (h : s.AllDone nodes) : s.todo nodes = [] := by
  rw [todo, List.map_eq_nil_iff, List.filter_eq_nil_iff]
  intro entry hentry
  have hget := List.mk_mem_zipIdx_iff_getElem?.mp hentry
  obtain ⟨hlt, _⟩ := List.getElem?_eq_some_iff.mp hget
  rw [← h.1] at hlt
  rw [finishedAt, List.getElem?_eq_getElem hlt, h.2 _ (List.getElem_mem hlt)]
  exact Bool.false_ne_true

/-- A node that has been dealt with leaves the list. -/
theorem todo_finish (hnodup : nodes.Nodup) (hn : nodes[i]? = some node)
    (hf : ∀ j, t.finishedAt j = if i = j then true else s.finishedAt j) :
    t.todo nodes = (s.todo nodes).erase node := by
  have hsub : (s.todo nodes).Nodup := by
    have hall : ((nodes.zipIdx).map Prod.fst).Nodup := by
      rwa [List.zipIdx_map_fst]
    exact hall.sublist (List.Sublist.map _ List.filter_sublist)
  rw [hsub.erase_eq_filter, todo, todo, List.filter_map, List.filter_filter]
  congr 1
  apply List.filter_congr
  intro entry hentry
  have hget := List.mk_mem_zipIdx_iff_getElem?.mp hentry
  rw [hf]
  by_cases heq : i = entry.2
  · have hnode : entry.1 = node := by
      rw [← heq, hn] at hget
      exact (Option.some.inj hget).symm
    simp [heq, hnode]
  · have hne : entry.1 ≠ node := by
      rintro rfl
      obtain ⟨hi, _⟩ := List.getElem?_eq_some_iff.mp hn
      exact heq ((List.getElem?_inj hi hnodup).mp (hn.trans hget.symm))
    simp [heq, hne]

/-- The client in the store has dealt with the node of a goroutine that finishes. -/
theorem phase_finish {request : Request} {attempts : Nat → Attempt Unit} (t : FanOut)
    (b : SenderPhase) (hnodup : nodes.Nodup) (hok : s.Ok request nodes attempts)
    (hi : s.goroutines[i]? = some a) (ht : t.goroutines = (s.move i b).goroutines)
    (ha : a.finished = false) (hb : b.finished = true) (hc : t.caller = s.caller) :
    ∃ node, (s.phase nodes).Awaits node ∧
      s.phase nodes = .writing (s.todo nodes) s.errorHandle ∧
      t.phase nodes = .writing ((s.todo nodes).erase node) t.errorHandle := by
  have hdone : a ≠ .done := by
    rintro rfl
    cases ha
  obtain ⟨hspawning, _⟩ := hok.spawning hi hdone
  have hs : ¬ s.Returned := not_returned hspawning (fun _ => nofun)
  have htr : ¬ t.Returned := not_returned (hc.trans hspawning) (fun _ => nofun)
  obtain ⟨hlt, _⟩ := List.getElem?_eq_some_iff.mp hi
  obtain ⟨node, hn⟩ : ∃ node, nodes[i]? = some node :=
    ⟨_, List.getElem?_eq_getElem (Nat.lt_of_lt_of_le hlt hok.spawned)⟩
  have hunfinished : s.finishedAt i = false := by
    rw [finishedAt, hi]
    exact ha
  have hfinish (j : Nat) : t.finishedAt j = if i = j then true else s.finishedAt j := by
    rw [finishedAt_move b hi ht, hb]
  refine ⟨node, ?_, phase_of_not_returned hs, ?_⟩
  · rw [phase_of_not_returned hs]
    exact mem_todo hn hunfinished
  · rw [phase_of_not_returned htr, todo_finish hnodup hn hfinish]

/-- A step of the fan-out is nothing to the client in the store, or it is the answer or
failure of a node, or the return of the call with the result that the client has. -/
theorem phase_step {request : Request} {attempts : Nat → Attempt Unit} {e : FanOutEvent}
    (hnodup : nodes.Nodup) (hok : s.Ok request nodes attempts)
    (hc : s.caller ≠ .starting) (h : s.Step request nodes attempts e t) :
    t.phase nodes = s.phase nodes ∨
    (∃ node answer, (s.phase nodes).Awaits node ∧
      t.phase nodes = (s.phase nodes).onAnswer node answer) ∨
    ∃ outcome, (s.phase nodes).result = some outcome ∧
      t.phase nodes = .returning outcome := by
  have hcaller := hok.caller
  have hquiet {i : Nat} {a : SenderPhase} {u : FanOut} (b : SenderPhase)
      (hi : s.goroutines[i]? = some a) (ha : a ≠ .done)
      (hu : u.goroutines = (s.move i b).goroutines) (hucaller : u.caller = s.caller)
      (herrs : u.errorHandle = s.errorHandle) (hab : b.finished = a.finished) :
      u.phase nodes = s.phase nodes := by
    obtain ⟨hspawning, _⟩ := hok.spawning hi ha
    exact phase_congr (not_returned hspawning (fun _ => nofun))
      (not_returned (hucaller.trans hspawning) (fun _ => nofun))
      (finishedAt_keep b hi hu hab) herrs
  cases h with
  | noNodes hstarting _ | start hstarting _ => exact absurd hstarting hc
  | spawn hspawning _ =>
      refine Or.inl (phase_congr (not_returned hspawning (fun _ => nofun))
        (not_returned hspawning (fun _ => nofun)) ?_ rfl)
      exact fun j => getD_spawned rfl j
  | wait hspawning _ _ =>
      exact Or.inl (phase_congr (not_returned hspawning (fun _ => nofun))
        (not_returned rfl (fun _ => nofun)) (fun _ => rfl) rfl)
  | close hclosing =>
      exact Or.inl (phase_congr (not_returned hclosing (fun _ => nofun))
        (not_returned rfl (fun _ => nofun)) (fun _ => rfl) rfl)
  | receive hreceiving =>
      rw [hreceiving] at hcaller
      refine Or.inr (Or.inr ⟨.written s.errorHandle.head?, ?_, rfl⟩)
      rw [phase_of_not_returned (not_returned hreceiving (fun _ => nofun)),
        todo_of_allDone hcaller.2]
      rfl
  | @getClient i hi =>
      refine Or.inl (hquiet (attempts i).onClient hi nofun rfl rfl rfl ?_)
      cases attempts i with
      | noClient err | failed err => rfl
      | answered response => rfl
  | request hi _ => exact Or.inl (hquiet .requested hi nofun rfl rfl rfl rfl)
  | done hi _ => exact Or.inl (hquiet .done hi nofun rfl rfl rfl rfl)
  | @answer i hi =>
      cases hf : (attempts i).onAnswer.finished with
      | false => exact Or.inl (hquiet _ hi nofun rfl rfl rfl hf)
      | true =>
          obtain ⟨node, hawaits, hs, ht⟩ := phase_finish (s.move i (attempts i).onAnswer)
            _ hnodup hok hi rfl rfl hf rfl
          exact Or.inr (Or.inl ⟨node, .ok none, hawaits, by rw [ht, hs]; rfl⟩)
  | @report i err hi _ _ =>
      obtain ⟨node, hawaits, hs, ht⟩ := phase_finish
        { s.move i .ending with errorHandle := s.errorHandle ++ [err] } .ending hnodup hok hi
        rfl rfl rfl rfl
      exact Or.inr (Or.inl ⟨node, .error err, hawaits, by rw [ht, hs]; rfl⟩)
  | reportClosed hi hclosed => exact absurd hclosed (hok.not_closed hi nofun)
  | doneNegative hi hw => exact absurd hw (hok.wg_ne_zero hi rfl)

end Phase

end FanOut

/-- The fan-out of a write starts where the client in the store does. -/
theorem phase_start {op : Op} {sm : ShardMapState} {attempts : Nat → Attempt Unit}
    {startIndex : Nat} (hw : op.isWrite = true)
    (hk : getShardForKey op.key sm.numShards ≠ none) :
    ∃ s, (fanOut op.request (sm.nodesForKey op.key) attempts).step
        (fanOut op.request (sm.nodesForKey op.key) attempts).init .start = some s ∧
      op.start sm startIndex = some (.ok (s.phase (sm.nodesForKey op.key))) := by
  rw [Op.start, if_neg hk]
  by_cases hn : sm.nodesForKey op.key = []
  · rw [if_pos hn, hn]
    refine ⟨_, rfl, ?_⟩
    cases op with
    | get key => cases hw
    | set key value ttl | delete key => rfl
  · have hlen : (sm.nodesForKey op.key).length ≠ 0 :=
      fun hzero => hn (List.length_eq_zero_iff.mp hzero)
    refine ⟨⟨.spawning, [], 0, [], false, [], false⟩, ?_, ?_⟩
    · simp only [fanOut, FanOut.step, hlen]
      rfl
    · rw [if_neg hn, if_pos hw]
      have htodo : FanOut.todo (sm.nodesForKey op.key)
          ⟨.spawning, [], 0, [], false, [], false⟩ = sm.nodesForKey op.key := by
        have hall : ((sm.nodesForKey op.key).zipIdx.filter fun _ => true) =
            (sm.nodesForKey op.key).zipIdx := List.filter_eq_self.mpr fun _ _ => rfl
        exact (congrArg (List.map Prod.fst) hall).trans (List.zipIdx_map_fst 0 _)
      rw [FanOut.phase, htodo]

section Calls

variable {nodes : List GoString} {attempts : Nat → Attempt Unit} {h : List FanOut}

theorem fanOut_ok (request : Request) :
    (fanOut request nodes attempts).init.Ok request nodes attempts := by
  refine ⟨rfl, Nat.zero_le _, fun _ _ => nofun, rfl, fun _ => rfl, Nat.le_refl _,
    fun _ => nofun, fun _ _ _ _ => nofun, rfl, rfl, rfl⟩

theorem fanOut_sound {request : Request}
    (run : (fanOut request nodes attempts).Run (fun _ _ => True) h) :
    h.length ≤ 6 * nodes.length + 5 ∧
      ∀ s ∈ h, s.Sound request nodes attempts (fanOut request nodes attempts) := by
  have hstep (s : FanOut) (e : FanOutEvent) (t : FanOut)
      (hok : s.Ok request nodes attempts) (_ : True)
      (ht : s.step request nodes attempts e = some t) : t.Ok request nodes attempts :=
    hok.step (FanOut.step_cases request nodes attempts ht)
  refine ⟨?_, fun s hs => (run.invariant (fanOut_ok request) hstep s hs).sound⟩
  have hbound := run.length_le (FanOut.remaining nodes) (fanOut_ok request) hstep ?_
  · simp only [FanOut.remaining, fanOut, CallerPhase.remaining, List.length_nil,
      List.map_nil, List.sum_nil] at hbound
    omega
  · exact fun s e t hok _ ht =>
      FanOut.remaining_lt hok (FanOut.step_cases request nodes attempts ht)

end Calls

/-- The fan-out of `Set` and of `Delete`, for all nodes, failures and orders. -/
theorem set_delete_fan_out (nodes : List GoString) (attempts : Nat → Attempt Unit) :
    (∀ (key value : GoString) (ttl : Duration) (h : List FanOut),
      (kvSet key value ttl nodes attempts).Run (fun _ _ => True) h →
      h.length ≤ 6 * nodes.length + 5 ∧ ∀ s ∈ h,
        s.Sound (.set key value (milliseconds ttl.ns)) nodes attempts
          (kvSet key value ttl nodes attempts)) ∧
    (∀ (key : GoString) (h : List FanOut),
      (kvDelete key nodes attempts).Run (fun _ _ => True) h →
      h.length ≤ 6 * nodes.length + 5 ∧ ∀ s ∈ h,
        s.Sound (.delete key) nodes attempts (kvDelete key nodes attempts)) :=
  ⟨fun _ _ _ _ run => fanOut_sound run, fun _ _ run => fanOut_sound run⟩

/-- The first node succeeds and the second has no client. -/
def secondRefused (i : Nat) : Attempt Unit :=
  if i = 0 then .answered () else .noClient (.failure "refused")

def fiveMs : Duration := ⟨5000000, by decide, by decide⟩

/-- A call on two nodes with the goroutines interleaved. -/
def interleavedCall : List FanOutEvent :=
  [.start, .spawn, .getClient 0, .spawn, .getClient 1, .request 0, .report 1, .answer 0,
    .done 0, .done 1, .wait, .close, .receive]

/-- A `Set` and a `Delete` on two nodes of which the second has no client: the first gets the
request and the call returns the error of the second. -/
theorem set_delete_fan_out_one_failure :
    (∃ h, (kvSet [97] [7] fiveMs [[1], [2]] secondRefused).Run (fun _ _ => True) h ∧
      (∃ s ∈ h, s.caller = .returned (some (.failure "refused")) ∧
        s.requests = [⟨0, [1], .set [97] [7] 5⟩]) ∧
      ∀ s ∈ h, s.Sound (.set [97] [7] 5) [[1], [2]] secondRefused
        (kvSet [97] [7] fiveMs [[1], [2]] secondRefused)) ∧
    ∃ h, (kvDelete [97] [[1], [2]] secondRefused).Run (fun _ _ => True) h ∧
      (∃ s ∈ h, s.caller = .returned (some (.failure "refused")) ∧
        s.requests = [⟨0, [1], .delete [97]⟩]) ∧
      ∀ s ∈ h, s.Sound (.delete [97]) [[1], [2]] secondRefused
        (kvDelete [97] [[1], [2]] secondRefused) := by
  constructor
  · obtain ⟨h, run, hend⟩ :=
      (kvSet [97] [7] fiveMs [[1], [2]] secondRefused).exists_run_of_replay
        (fun _ _ => True) interleavedCall
        (fun h => ∃ s ∈ h, s.caller = .returned (some (.failure "refused")) ∧
          s.requests = [⟨0, [1], .set [97] [7] 5⟩])
        (by decide)
    exact ⟨h, run, hend, ((set_delete_fan_out _ _).1 [97] [7] fiveMs h run).2⟩
  · obtain ⟨h, run, hend⟩ := (kvDelete [97] [[1], [2]] secondRefused).exists_run_of_replay
      (fun _ _ => True) interleavedCall
      (fun h => ∃ s ∈ h, s.caller = .returned (some (.failure "refused")) ∧
        s.requests = [⟨0, [1], .delete [97]⟩])
      (by decide)
    exact ⟨h, run, hend, ((set_delete_fan_out _ _).2 [97] h run).2⟩

end KvLab
