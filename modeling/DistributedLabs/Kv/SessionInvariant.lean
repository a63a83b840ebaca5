import DistributedLabs.Kv.Sessions
import Mathlib.Data.List.Find

/-!
The invariant of overlapping calls. A server holds what the last write that it carried out
has left. A write without an error has been carried out by every node that it does not wait
for; once it is acknowledged nothing more is carried out for it.
-/

namespace KvLab

open GoTime

variable {sm : ShardMapState} {s t : Sessions}

/-- What a server does with the request of an operation. -/
theorem serve_op {server server' : KvServerImpl} {numShards now : Int}
    {clock : GoString → Int × Int} {op : Op} {reply : Reply Response}
    (h : server.serve numShards now clock op.request = some (server', reply)) :
    (server' = server ∧ (op.isWrite = true → reply.err ≠ none) ∧
      ∀ key, op = .get key → reply.err = none → key ≠ [] ∧
        reply.response = some (.get (response now (server.held numShards key)))) ∨
    (op.isWrite = true ∧ op.key ≠ [] ∧ reply.err = none ∧
      server.Wrote server' numShards op.key (op.item now)) := by
  cases op with
  | get key =>
      obtain ⟨r, hr, heq⟩ := Option.map_eq_some_iff.mp h
      cases heq
      refine Or.inl ⟨rfl, fun hw => absurd hw Bool.false_ne_true, fun k hk herr => ?_⟩
      cases hk
      rcases KvServerImpl.withShard_eq_some hr with ⟨rfl, _⟩ | ⟨rfl, _⟩ |
        ⟨_, data, hne, hs, hl, rfl⟩
      · cases herr
      · cases herr
      · refine ⟨hne, ?_⟩
        rw [KvServerImpl.held_eq hs hl, ← ShardData.get_eq_response]
        rfl
  | set key value ttl =>
      obtain ⟨r, hr, heq⟩ := Option.map_eq_some_iff.mp h
      cases heq
      rcases KvServerImpl.withShard_eq_some hr with ⟨rfl, _⟩ | ⟨rfl, _⟩ |
        ⟨_, data, hne, hs, hl, rfl⟩
      · exact Or.inl ⟨rfl, fun _ => Option.some_ne_none _, fun k hk => by cases hk⟩
      · exact Or.inl ⟨rfl, fun _ => Option.some_ne_none _, fun k hk => by cases hk⟩
      · exact Or.inr ⟨rfl, hne, rfl,
          KvServerImpl.wrote_update hs hl fun k => ShardData.lookup_set⟩
  | delete key =>
      obtain ⟨r, hr, heq⟩ := Option.map_eq_some_iff.mp h
      cases heq
      rcases KvServerImpl.withShard_eq_some hr with ⟨rfl, _⟩ | ⟨rfl, _⟩ |
        ⟨_, data, hne, hs, hl, rfl⟩
      · exact Or.inl ⟨rfl, fun _ => Option.some_ne_none _, fun k hk => by cases hk⟩
      · exact Or.inl ⟨rfl, fun _ => Option.some_ne_none _, fun k hk => by cases hk⟩
      · exact Or.inr ⟨rfl, hne, rfl,
          KvServerImpl.wrote_update hs hl fun k => ShardData.lookup_delete⟩

/-- The call has returned without an error, at this time. -/
def Session.AckedAt (c : Session) (e : Int) : Prop := c.returned = some (e, .written none)

namespace Sessions

/-- A write of the key that the server of the node has carried out. -/
def writes (s : Sessions) (node key : GoString) (a : Applied) : Bool :=
  decide (a.node = node) && (s.calls[a.call]?).any fun c => decide (c.op.key = key)

/-- The last one. -/
def latest (s : Sessions) (node key : GoString) : Option Applied :=
  s.applied.find? (s.writes node key)

/-- The entry is what the last write left, or that has expired and has been cleaned away. -/
def Shows (s : Sessions) (node key : GoString) (entry : Option CacheItem) : Prop :=
  match s.latest node key with
  | none => entry = none
  | some a => ∃ c, s.calls[a.call]? = some c ∧
      (entry = c.op.item a.time ∨
        entry = none ∧ ∃ item, c.op.item a.time = some item ∧ item.expired s.now = true)

end Sessions

/-- How far a call can be. A write without an error has been carried out by every node that
it does not wait for, and has given up on none. -/
inductive PhaseOk (sm : ShardMapState) (applied : List Applied) (k : Nat) (op : Op)
    (lingering : List GoString) : CallPhase → Prop
  | getting {nodes : List GoString} {startIndex i : Nat} {lastErr : Option CallErr}
      (hop : op.isWrite = false) (hnodes : nodes = sm.nodesForKey op.key) (hne : nodes ≠ [])
      (herr : i = 0 ∨ lastErr ≠ none) :
      PhaseOk sm applied k op lingering (.getting nodes startIndex i lastErr)
  | writing {todo : List GoString} {errs : List CallErr} (hop : op.isWrite = true)
      (hclean : errs = [] → lingering = [] ∧ ∀ node ∈ sm.nodesForKey op.key,
        node ∈ todo ∨ ∃ a ∈ applied, a.call = k ∧ a.node = node) :
      PhaseOk sm applied k op lingering (.writing todo errs)
  | read {value : GoString} {wasFound : Bool} (hop : op.isWrite = false) :
      PhaseOk sm applied k op lingering (.returning (.read value wasFound none))
  | unrouted : PhaseOk sm applied k op lingering (.returning (op.failed noNodes))

structure Session.Ok (sm : ShardMapState) (s : Sessions) (k : Nat) (c : Session) : Prop where
  began : c.began ≤ s.now
  phase : PhaseOk sm s.applied k c.op c.lingering c.phase
  returned : ∀ e outcome, c.returned = some (e, outcome) →
    e ≤ s.now ∧ c.phase.result = some outcome

/-- A recorded write belongs to a call, and to the time in which that ran. -/
structure Applied.Ok (s : Sessions) (a : Applied) (c : Session) : Prop where
  call : s.calls[a.call]? = some c
  write : c.op.isWrite = true
  key : c.op.key ≠ []
  began : c.began ≤ a.time
  now : a.time ≤ s.now
  acked : ∀ e, c.AckedAt e → a.time ≤ e

structure Sessions.Ok (sm : ShardMapState) (s : Sessions) : Prop where
  calls : ∀ (k : Nat) c, s.calls[k]? = some c → c.Ok sm s k
  applied : ∀ a ∈ s.applied, ∃ c, a.Ok s c
  entries : ∀ node key, key ≠ [] → s.Shows node key ((s.servers node).held sm.numShards key)

/-- The same call, later: what it returned stays, and what it returns now has a later
time. -/
structure Session.Later (now : Int) (c c' : Session) : Prop where
  op : c'.op = c.op
  began : c'.began = c.began
  kept : ∀ x, c.returned = some x → c'.returned = some x
  fresh : ∀ e outcome, c'.returned = some (e, outcome) →
    c.returned = some (e, outcome) ∨ now ≤ e

theorem Session.Later.refl (now : Int) (c : Session) : c.Later now c :=
  ⟨rfl, rfl, fun _ h => h, fun _ _ h => Or.inl h⟩

/-- Later the calls are the same ones and more, and no write has been carried out for one
that had been acknowledged. -/
structure Sessions.Grows (s t : Sessions) : Prop where
  now : s.now ≤ t.now
  calls : ∀ (k : Nat) c, s.calls[k]? = some c → ∃ c', t.calls[k]? = some c' ∧ c.Later s.now c'
  applied : ∃ newer, t.applied = newer ++ s.applied ∧
    ∀ (k : Nat) c e, s.calls[k]? = some c → c.AckedAt e → ∀ a ∈ newer, a.call ≠ k

namespace Sessions

theorem Grows.trans {u : Sessions} (h : s.Grows t) (h' : t.Grows u) : s.Grows u where
  now := Int.le_trans h.now h'.now
  calls := by
    intro k c hk
    obtain ⟨c', hk', hl⟩ := h.calls k c hk
    obtain ⟨c'', hk'', hl'⟩ := h'.calls k c' hk'
    refine ⟨c'', hk'', hl'.op.trans hl.op, hl'.began.trans hl.began,
      fun x hx => hl'.kept x (hl.kept x hx), fun e outcome he => ?_⟩
    rcases hl'.fresh e outcome he with he | he
    · exact hl.fresh e outcome he
    · exact Or.inr (Int.le_trans h.now he)
  applied := by
    obtain ⟨newer, heq, hno⟩ := h.applied
    obtain ⟨newer', heq', hno'⟩ := h'.applied
    refine ⟨newer' ++ newer, by rw [heq', heq, List.append_assoc], ?_⟩
    intro k c e hk hack a ha
    rcases List.mem_append.mp ha with ha | ha
    · obtain ⟨c', hk', hl⟩ := h.calls k c hk
      exact hno' k c' e hk' (hl.kept _ hack) a ha
    · exact hno k c e hk hack a ha

theorem Grows.length_le (h : s.Grows t) : s.calls.length ≤ t.calls.length := by
  by_contra hlt
  have hlt : t.calls.length < s.calls.length := by omega
  obtain ⟨c', hk', _⟩ := h.calls _ _ (List.getElem?_eq_getElem hlt)
  exact absurd (List.getElem?_eq_some_iff.mp hk').1 (Nat.lt_irrefl _)

theorem Grows.subset (h : s.Grows t) : s.applied ⊆ t.applied := by
  obtain ⟨newer, heq, _⟩ := h.applied
  rw [heq]
  exact List.subset_append_right newer s.applied

end Sessions

theorem PhaseOk.mono {applied applied' : List Applied} {k : Nat} {op : Op}
    {lingering : List GoString} {phase : CallPhase} (hsub : applied ⊆ applied')
    (h : PhaseOk sm applied k op lingering phase) : PhaseOk sm applied' k op lingering phase := by
  cases h with
  | getting hop hnodes hne herr => exact .getting hop hnodes hne herr
  | writing hop hclean =>
      refine .writing hop fun herrs => ⟨(hclean herrs).1, fun node hnode => ?_⟩
      rcases (hclean herrs).2 node hnode with hmem | ⟨a, ha, hrec⟩
      · exact Or.inl hmem
      · exact Or.inr ⟨a, hsub ha, hrec⟩
  | read hop => exact .read hop
  | unrouted => exact .unrouted

theorem Session.Ok.grow {k : Nat} {c : Session} (hg : s.Grows t) (h : c.Ok sm s k) :
    c.Ok sm t k where
  began := Int.le_trans h.began hg.now
  phase := h.phase.mono hg.subset
  returned := fun e outcome he =>
    ⟨Int.le_trans (h.returned e outcome he).1 hg.now, (h.returned e outcome he).2⟩

/-- A call that has returned without an error is a write that every node has carried out. -/
theorem Session.Ok.acked {k : Nat} {c : Session} {e : Int} (h : c.Ok sm s k)
    (ha : c.AckedAt e) : c.lingering = [] ∧
      ∀ node ∈ sm.nodesForKey c.op.key, ∃ a ∈ s.applied, a.call = k ∧ a.node = node := by
  obtain ⟨op, began, phase, lingering, returned⟩ := c
  have hres := (h.returned e _ ha).2
  have hphase := h.phase
  dsimp only at hres hphase ⊢
  cases hphase with
  | getting hop hnodes hne herr =>
      simp only [CallPhase.result] at hres
      split at hres <;> cases hres
  | @writing todo errs hop hclean =>
      cases todo with
      | cons _ _ => cases hres
      | nil =>
          have herrs : errs = [] := by
            simpa [CallPhase.result] using hres
          refine ⟨(hclean herrs).1, fun node hnode => ?_⟩
          exact ((hclean herrs).2 node hnode).resolve_left List.not_mem_nil
  | read hop => cases hres
  | unrouted => cases op <;> cases hres

/-- A `Get` that has returned an answer has got it from a node. -/
theorem Session.Ok.answered {k : Nat} {c : Session} {e : Int} {value : GoString}
    {wasFound : Bool} (h : c.Ok sm s k)
    (hr : c.returned = some (e, .read value wasFound none)) :
    c.phase = .returning (.read value wasFound none) := by
  obtain ⟨op, began, phase, lingering, returned⟩ := c
  have hres := (h.returned e _ hr).2
  have hphase := h.phase
  dsimp only at hres hphase ⊢
  cases hphase with
  | @getting nodes startIndex i lastErr hop hnodes hne herr =>
      simp only [CallPhase.result] at hres
      split at hres
      · rename_i hle
        cases hres
        have hpos : nodes.length ≠ 0 := fun hlen => hne (List.length_eq_zero_iff.mp hlen)
        rcases herr with rfl | herr
        · exact absurd (Nat.le_zero.mp hle) hpos
        · exact absurd rfl herr
      · cases hres
  | @writing todo errs hop hclean => cases todo <;> cases hres
  | read hop => exact congrArg _ (Option.some.inj hres)
  | unrouted => exact congrArg _ (Option.some.inj hres)

theorem Applied.Ok.grow {a : Applied} {c : Session} (hg : s.Grows t) (h : a.Ok s c) :
    ∃ c', a.Ok t c' ∧ c'.op = c.op := by
  obtain ⟨c', hk', hl⟩ := hg.calls a.call c h.call
  refine ⟨c', ⟨hk', hl.op ▸ h.write, hl.op ▸ h.key, hl.began ▸ h.began,
    Int.le_trans h.now hg.now, fun e he => ?_⟩, hl.op⟩
  rcases hl.fresh e _ he with he | he
  · exact h.acked e he
  · exact Int.le_trans h.now he

namespace Sessions

/-- The last write of a key does not change with the calls. -/
theorem Ok.latest_grow (hok : s.Ok sm) (hg : s.Grows t) (happ : t.applied = s.applied)
    (node key : GoString) : t.latest node key = s.latest node key := by
  rw [latest, latest, happ]
  refine List.find?_congr fun a ha => ?_
  obtain ⟨c, hc⟩ := hok.applied a ha
  obtain ⟨c', hk', hl⟩ := hg.calls a.call c hc.call
  simp only [writes, hc.call, hk', Option.any_some, hl.op]

theorem Ok.shows_grow (hok : s.Ok sm) (hg : s.Grows t) (happ : t.applied = s.applied)
    {node key : GoString} {entry : Option CacheItem} (h : s.Shows node key entry) :
    t.Shows node key entry := by
  unfold Shows at h ⊢
  rw [hok.latest_grow hg happ]
  cases hl : s.latest node key with
  | none =>
      rw [hl] at h
      exact h
  | some a =>
      rw [hl] at h
      obtain ⟨c, hk, hentry⟩ := h
      obtain ⟨c', hk', hlater⟩ := hg.calls a.call c hk
      refine ⟨c', hk', ?_⟩
      rw [hlater.op]
      exact hentry.imp_right fun ⟨hnone, item, hitem, hexp⟩ =>
        ⟨hnone, item, hitem, CacheItem.expired_mono hg.now hexp⟩

theorem Ok.applied_grow (hok : s.Ok sm) (hg : s.Grows t) {a : Applied} (ha : a ∈ s.applied) :
    ∃ c, a.Ok t c := by
  obtain ⟨c, hc⟩ := hok.applied a ha
  obtain ⟨c', hc', _⟩ := hc.grow hg
  exact ⟨c', hc'⟩

/-- A cleaner takes away only what has expired. -/
theorem Shows.clean {node key : GoString} {entry entry' : Option CacheItem}
    (h : s.Shows node key entry) (hc : entry' = entry ∨
      entry' = none ∧ ∃ item, entry = some item ∧ item.expired s.now = true) :
    s.Shows node key entry' := by
  rcases hc with rfl | ⟨rfl, item, rfl, hexp⟩
  · exact h
  · unfold Shows at h ⊢
    split at h
    · cases h
    · obtain ⟨c, hk, hentry | ⟨hnone, _⟩⟩ := h
      · exact ⟨c, hk, Or.inr ⟨rfl, item, hentry.symm, hexp⟩⟩
      · cases hnone

/-- What a server has done with a request of a call. -/
structure Handled (sm : ShardMapState) (s t : Sessions) (k : Nat) (c : Session)
    (node : GoString) (reply : Reply Response) : Prop where
  now : t.now = s.now
  calls : t.calls = s.calls
  others : ∀ other, other ≠ node → t.servers other = s.servers other
  effect : (t.servers node = s.servers node ∧ t.applied = s.applied ∧
      (c.op.isWrite = true → reply.err ≠ none) ∧
      ∀ key, c.op = .get key → reply.err = none → key ≠ [] ∧ reply.response =
        some (.get (response s.now ((s.servers node).held sm.numShards key)))) ∨
    (c.op.isWrite = true ∧ c.op.key ≠ [] ∧ reply.err = none ∧
      t.applied = ⟨k, node, s.now⟩ :: s.applied ∧
      (s.servers node).Wrote (t.servers node) sm.numShards c.op.key (c.op.item s.now))

theorem handled {k : Nat} {c : Session} {node : GoString} {reply : Reply Response}
    (h : s.handle sm k c node = some (t, reply)) : Handled sm s t k c node reply := by
  obtain ⟨⟨server, r⟩, hserve, heq⟩ := Option.map_eq_some_iff.mp h
  cases heq
  refine ⟨rfl, rfl, fun other hne => ?_, ?_⟩
  · simp only [setServer, Function.update_of_ne hne]
  · simp only [setServer, Function.update_self]
    rcases serve_op hserve with ⟨rfl, hfail, hread⟩ | ⟨hw, hk, herr, hwrote⟩
    · refine Or.inl ⟨rfl, if_neg fun hg => hfail hg.1 hg.2, hfail, hread⟩
    · exact Or.inr ⟨hw, hk, herr, if_pos ⟨hw, herr⟩, hwrote⟩

theorem getElem?_setCall {k j : Nat} {c c' : Session} (hk : s.calls[k]? = some c) :
    (s.setCall k c').calls[j]? = if k = j then some c' else s.calls[j]? := by
  rw [setCall, List.getElem?_set, if_pos (List.getElem?_eq_some_iff.mp hk).1]

/-- A call after one of them has gone on is that one, or it has not changed. -/
theorem setCall_cases {u : Sessions} {k j : Nat} {c c' d : Session} (hk : s.calls[k]? = some c)
    (hcalls : u.calls = s.calls) (hj : (u.setCall k c').calls[j]? = some d) :
    k = j ∧ d = c' ∨ s.calls[j]? = some d := by
  rw [getElem?_setCall (by rw [hcalls, hk]), hcalls] at hj
  split at hj
  · exact Or.inl ⟨by assumption, (Option.some.inj hj).symm⟩
  · exact Or.inr hj

/-- One call moves on, and at most one write is carried out, for a call that has not been
acknowledged. -/
theorem Grows.setCall {u : Sessions} {k : Nat} {c c' : Session} (hk : s.calls[k]? = some c)
    (hnow : s.now ≤ u.now) (hcalls : u.calls = s.calls) (hl : c.Later s.now c')
    (happ : u.applied = s.applied ∨ (∃ node, u.applied = ⟨k, node, s.now⟩ :: s.applied) ∧
      ∀ e, ¬ c.AckedAt e) : s.Grows (u.setCall k c') where
  now := hnow
  calls := by
    intro j d hj
    rw [getElem?_setCall (by rw [hcalls, hk]), hcalls]
    split
    · rename_i hkj
      subst hkj
      obtain rfl := Option.some.inj (hk.symm.trans hj)
      exact ⟨c', rfl, hl⟩
    · exact ⟨d, hj, .refl _ d⟩
  applied := by
    rcases happ with happ | ⟨⟨node, happ⟩, hnot⟩
    · exact ⟨[], happ, fun _ _ _ _ _ _ ha => absurd ha List.not_mem_nil⟩
    · refine ⟨[⟨k, node, s.now⟩], happ, fun j d e hj hack a ha => ?_⟩
      rw [List.mem_singleton.mp ha]
      rintro rfl
      obtain rfl := Option.some.inj (hk.symm.trans hj)
      exact hnot e hack

theorem Grows.of_same {u : Sessions} (hnow : s.now ≤ u.now) (hcalls : u.calls = s.calls)
    (happ : u.applied = s.applied) : s.Grows u where
  now := hnow
  calls := fun _ c hk => ⟨c, hcalls ▸ hk, .refl _ c⟩
  applied := ⟨[], happ, fun _ _ _ _ _ _ ha => absurd ha List.not_mem_nil⟩

theorem Handled.applied {k : Nat} {c : Session} {node : GoString} {reply : Reply Response}
    (h : Handled sm s t k c node reply) :
    t.applied = s.applied ∨ ∃ node, t.applied = ⟨k, node, s.now⟩ :: s.applied := by
  rcases h.effect with ⟨_, happ, _⟩ | ⟨_, _, _, happ, _⟩
  · exact Or.inl happ
  · exact Or.inr ⟨node, happ⟩

theorem Ok.grows (hok : s.Ok sm) (h : Step s sm t) : s.Grows t := by
  cases h with
  | panic => exact .of_same (Int.le_refl _) rfl rfl
  | tick hn => exact .of_same hn rfl rfl
  | clean _ => exact .of_same (Int.le_refl _) rfl rfl
  | call _ =>
      refine ⟨Int.le_refl _, fun k c hk => ⟨c, ?_, .refl _ c⟩, [], rfl,
        fun _ _ _ _ _ _ ha => absurd ha List.not_mem_nil⟩
      rw [List.getElem?_append_left (List.getElem?_eq_some_iff.mp hk).1, hk]
  | serve hk hr _ hh =>
      have hu := handled hh
      refine .setCall hk (Int.le_of_eq hu.now.symm) hu.calls
        ⟨rfl, rfl, fun _ hx => hx, fun _ _ hx => Or.inl hx⟩ (hu.applied.imp_right fun happ => ?_)
      refine ⟨happ, fun e hack => ?_⟩
      rw [Session.AckedAt, hr] at hack
      cases hack
  | fail err sent hk _ _ =>
      exact .setCall hk (Int.le_refl _) rfl
        ⟨rfl, rfl, fun _ hx => hx, fun _ _ hx => Or.inl hx⟩ (Or.inl rfl)
  | @late k c node u reply hk hl hh =>
      have hu := handled hh
      refine .setCall hk (Int.le_of_eq hu.now.symm) hu.calls
        ⟨rfl, rfl, fun _ hx => hx, fun _ _ hx => Or.inl hx⟩ (hu.applied.imp_right fun happ => ?_)
      refine ⟨happ, fun e hack => ?_⟩
      rw [Session.Lingers, ((hok.calls k c hk).acked hack).1] at hl
      cases hl
  | finish hk hr _ =>
      refine .setCall hk (Int.le_refl _) rfl ⟨rfl, rfl, fun x hx => ?_, fun e o he => ?_⟩
        (Or.inl rfl)
      · rw [hr] at hx
        cases hx
      · cases he
        exact Or.inr (Int.le_refl _)

/-- The writes that have been carried out, after one more for a call that goes on. -/
theorem Ok.applied_setCall {u : Sessions} {k : Nat} {c c' : Session} {node : GoString}
    {reply : Reply Response} (hok : s.Ok sm) (hk : s.calls[k]? = some c)
    (hu : Handled sm s u k c node reply) (hop : c'.op = c.op) (hbegan : c'.began = c.began)
    (hnot : ∀ e, ¬ c'.AckedAt e) (hg : s.Grows (u.setCall k c')) :
    ∀ a ∈ (u.setCall k c').applied, ∃ d, a.Ok (u.setCall k c') d := by
  intro a ha
  rcases hu.effect with ⟨_, happ, _⟩ | ⟨hw, hkey, _, happ, _⟩
  · exact hok.applied_grow hg (happ ▸ ha)
  · have ha' : a ∈ ⟨k, node, s.now⟩ :: s.applied := happ ▸ ha
    cases ha' with
    | tail _ ha => exact hok.applied_grow hg ha
    | head =>
        refine ⟨c', ?_, hop ▸ hw, hop ▸ hkey, hbegan ▸ (hok.calls k c hk).began,
          Int.le_of_eq hu.now.symm, fun e he => absurd he (hnot e)⟩
        rw [getElem?_setCall (by rw [hu.calls, hk]), if_pos rfl]

/-- The entries after a server has handled a request. -/
theorem Ok.entries_setCall {u : Sessions} {k : Nat} {c c' : Session} {node : GoString}
    {reply : Reply Response} (hok : s.Ok sm) (hk : s.calls[k]? = some c)
    (hu : Handled sm s u k c node reply) (hop : c'.op = c.op)
    (hg : s.Grows (u.setCall k c')) (other key : GoString) (hne : key ≠ []) :
    (u.setCall k c').Shows other key ((u.servers other).held sm.numShards key) := by
  have hself : (u.setCall k c').calls[k]? = some c' := by
    rw [getElem?_setCall (by rw [hu.calls, hk]), if_pos rfl]
  rcases hu.effect with ⟨hserver, happ, _⟩ | ⟨_, _, _, happ, hwrote⟩
  · have hheld : u.servers other = s.servers other := by
      by_cases ho : other = node
      · rw [ho, hserver]
      · exact hu.others other ho
    rw [hheld]
    exact hok.shows_grow hg happ (hok.entries other key hne)
  · by_cases hhere : other = node ∧ key = c.op.key
    · -- the write that has just been carried out is the last one
      obtain ⟨rfl, rfl⟩ := hhere
      have hlatest : (u.setCall k c').latest other c.op.key = some ⟨k, other, s.now⟩ := by
        have hw : (u.setCall k c').writes other c.op.key ⟨k, other, s.now⟩ = true := by
          simp [writes, hself, hop]
        rw [latest]
        change u.applied.find? _ = _
        rw [happ, List.find?_cons_of_pos hw]
      rw [Shows, hlatest, hwrote.self]
      exact ⟨c', hself, Or.inl (by rw [hop])⟩
    · have hskip : (u.setCall k c').writes other key ⟨k, node, s.now⟩ = false := by
        simp only [writes, hself, Option.any_some, hop, Bool.and_eq_false_imp,
          decide_eq_true_eq, decide_eq_false_iff_not]
        rintro rfl heq
        exact hhere ⟨rfl, heq.symm⟩
      have hheld : (u.servers other).held sm.numShards key =
          (s.servers other).held sm.numShards key := by
        by_cases ho : other = node
        · subst ho
          exact hwrote.other key fun heq => hhere ⟨rfl, heq⟩
        · rw [hu.others other ho]
      rw [hheld]
      -- the state without the new record
      let v : Sessions := { u.setCall k c' with applied := s.applied }
      have hv : s.Grows v := ⟨hg.now, hg.calls, [], rfl,
        fun _ _ _ _ _ _ ha => absurd ha List.not_mem_nil⟩
      have hshows : v.Shows other key _ := hok.shows_grow hv rfl (hok.entries other key hne)
      have hlatest : (u.setCall k c').latest other key = v.latest other key := by
        rw [latest]
        change u.applied.find? _ = _
        rw [happ, List.find?_cons_of_neg (by rw [hskip]; exact Bool.false_ne_true)]
        rfl
      rw [Shows, hlatest]
      exact hshows

/-- The calls after one of them has gone on. -/
theorem Ok.calls_setCall {u : Sessions} {k : Nat} {c c' : Session} (hok : s.Ok sm)
    (hk : s.calls[k]? = some c) (hcalls : u.calls = s.calls)
    (hg : s.Grows (u.setCall k c')) (hc' : c'.Ok sm (u.setCall k c') k) :
    ∀ (j : Nat) d, (u.setCall k c').calls[j]? = some d → d.Ok sm (u.setCall k c') j := by
  intro j d hj
  rcases setCall_cases hk hcalls hj with ⟨rfl, rfl⟩ | hj
  · exact hc'
  · exact (hok.calls j d hj).grow hg

end Sessions

theorem PhaseOk.start {op : Op} {startIndex : Nat} {phase : CallPhase} {k : Nat}
    (applied : List Applied) (h : op.start sm startIndex = some (.ok phase)) :
    PhaseOk sm applied k op [] phase := by
  unfold Op.start at h
  split at h
  · cases h
  · split at h
    · cases h
      exact .unrouted
    · rename_i hne
      split at h
      · rename_i hw
        cases h
        exact .writing hw fun _ => ⟨rfl, fun node hnode => Or.inl hnode⟩
      · rename_i hw
        split at h
        · cases h
          exact .getting (Bool.eq_false_iff.mpr hw) rfl hne (Or.inl rfl)
        · cases h

/-- An error is kept. -/
theorem PhaseOk.onError {applied : List Applied} {k : Nat} {op : Op}
    {lingering : List GoString} {phase : CallPhase} (h : PhaseOk sm applied k op lingering phase)
    {node : GoString} (ha : phase.Awaits node) (err : CallErr) (lingering' : List GoString) :
    PhaseOk sm applied k op lingering' (phase.onAnswer node (.error err)) := by
  cases h with
  | getting hop hnodes hne _ => exact .getting hop hnodes hne (Or.inr (Option.some_ne_none err))
  | writing hop _ => exact .writing hop fun herrs => absurd herrs (by simp)
  | read _ | unrouted => cases ha

/-- An answer without an error comes from a server that has carried out the write. -/
theorem PhaseOk.onOk {applied applied' : List Applied} {k : Nat} {op : Op}
    {lingering : List GoString} {phase : CallPhase} (h : PhaseOk sm applied k op lingering phase)
    {node : GoString} (ha : phase.Awaits node) (response : Option Response)
    (hsub : applied ⊆ applied')
    (hdone : op.isWrite = true → ∃ a ∈ applied', a.call = k ∧ a.node = node) :
    PhaseOk sm applied' k op lingering (phase.onAnswer node (.ok response)) := by
  cases h with
  | getting hop _ _ _ => exact .read hop
  | writing hop hclean =>
      refine .writing hop fun herrs => ⟨(hclean herrs).1, fun other hother => ?_⟩
      by_cases ho : other = node
      · exact Or.inr (ho ▸ hdone hop)
      · rcases (hclean herrs).2 other hother with hmem | ⟨a, ha, hrec⟩
        · exact Or.inl ((List.mem_erase_of_ne ho).mpr hmem)
        · exact Or.inr ⟨a, hsub ha, hrec⟩
  | read _ | unrouted => cases ha

/-- A write that has given up on a node has an error, which stays. -/
theorem PhaseOk.onLate {applied : List Applied} {k : Nat} {op : Op}
    {lingering : List GoString} {phase : CallPhase} (h : PhaseOk sm applied k op lingering phase)
    {node : GoString} (hl : node ∈ lingering) :
    PhaseOk sm applied k op (lingering.erase node) phase := by
  cases h with
  | getting hop hnodes hne herr => exact .getting hop hnodes hne herr
  | writing hop hclean =>
      refine .writing hop fun herrs => ?_
      rw [(hclean herrs).1] at hl
      cases hl
  | read hop => exact .read hop
  | unrouted => exact .unrouted

namespace Sessions

theorem Ok.entries_grow (hok : s.Ok sm) (hg : s.Grows t) (happ : t.applied = s.applied)
    (node key : GoString) (hne : key ≠ []) :
    t.Shows node key ((s.servers node).held sm.numShards key) :=
  hok.shows_grow hg happ (hok.entries node key hne)

/-- Nothing but the clock or the panic has changed. -/
theorem Ok.still (hok : s.Ok sm) (hg : s.Grows t) (hcalls : t.calls = s.calls)
    (happ : t.applied = s.applied) (hservers : t.servers = s.servers) : t.Ok sm :=
  ⟨fun k c hk => (hok.calls k c (hcalls ▸ hk)).grow hg,
    fun _ ha => hok.applied_grow hg (happ ▸ ha), hservers ▸ hok.entries_grow hg happ⟩

theorem Ok.clean (hok : s.Ok sm) {node : GoString} {shard : Int} {server : KvServerImpl}
    (hc : (s.servers node).clean shard s.now = some server) :
    (s.setServer node server).Ok sm := by
  have hg := hok.grows (.clean hc)
  refine ⟨fun k c hk => (hok.calls k c hk).grow hg, fun a ha => hok.applied_grow hg ha,
    fun other key hne => ?_⟩
  have hshows := hok.entries_grow hg rfl other key hne
  by_cases ho : other = node
  · subst ho
    simp only [setServer, Function.update_self]
    exact hshows.clean ((KvServerImpl.held_clean sm.numShards hc).2 key)
  · simp only [setServer, Function.update_of_ne ho]
    exact hshows

theorem Ok.call (hok : s.Ok sm) {op : Op} {startIndex : Nat} {phase : CallPhase}
    (hs : op.start sm startIndex = some (.ok phase)) :
    Ok sm { s with calls := s.calls ++ [⟨op, s.now, phase, [], none⟩] } := by
  have hg := hok.grows (.call hs)
  refine ⟨fun k c hk => ?_, fun a ha => hok.applied_grow hg ha, hok.entries_grow hg rfl⟩
  rw [List.getElem?_append] at hk
  split at hk
  · exact (hok.calls k c hk).grow hg
  · rw [List.getElem?_singleton] at hk
    split at hk
    · cases hk
      exact ⟨Int.le_refl _, .start _ hs, fun e o he => by cases he⟩
    · cases hk

/-- A call goes on without a server. -/
theorem Ok.setCall {k : Nat} {c c' : Session} (hok : s.Ok sm) (hk : s.calls[k]? = some c)
    (hg : s.Grows (s.setCall k c')) (hc' : c'.Ok sm (s.setCall k c') k) :
    (s.setCall k c').Ok sm :=
  ⟨hok.calls_setCall hk rfl hg hc', fun _ ha => hok.applied_grow hg ha, hok.entries_grow hg rfl⟩

theorem Ok.serve (hok : s.Ok sm) {k : Nat} {c : Session} {node : GoString}
    {reply : Reply Response} (hk : s.calls[k]? = some c) (hr : c.returned = none)
    (ha : c.phase.Awaits node) (hh : s.handle sm k c node = some (t, reply)) :
    (t.setCall k { c with phase := c.phase.onAnswer node reply.answer }).Ok sm := by
  have hg := hok.grows (.serve hk hr ha hh)
  have hu := handled hh
  have hc := hok.calls k c hk
  have hphase : PhaseOk sm t.applied k c.op c.lingering (c.phase.onAnswer node reply.answer) := by
    cases herr : reply.err with
    | some err =>
        simp only [Reply.answer, herr]
        exact (hc.phase.mono hg.subset).onError ha _ _
    | none =>
        simp only [Reply.answer, herr]
        refine hc.phase.onOk ha reply.response hg.subset fun hw => ?_
        rcases hu.effect with ⟨_, _, hfail, _⟩ | ⟨_, _, _, happ, _⟩
        · exact absurd herr (hfail hw)
        · exact ⟨⟨k, node, s.now⟩, happ ▸ List.mem_cons_self, rfl, rfl⟩
  have hnot : ∀ x, c.returned ≠ some x := fun x hx => by
    rw [hr] at hx
    cases hx
  exact ⟨hok.calls_setCall hk hu.calls hg
      ⟨Int.le_trans hc.began hg.now, hphase, fun e o he => absurd he (hnot _)⟩,
    hok.applied_setCall hk hu rfl rfl (fun e he => absurd he (hnot _)) hg,
    hok.entries_setCall hk hu rfl hg⟩

theorem Ok.late (hok : s.Ok sm) {k : Nat} {c : Session} {node : GoString}
    {reply : Reply Response} (hk : s.calls[k]? = some c) (hl : c.Lingers node)
    (hh : s.handle sm k c node = some (t, reply)) :
    (t.setCall k { c with lingering := c.lingering.erase node }).Ok sm := by
  have hg := hok.grows (.late hk hl hh)
  have hu := handled hh
  have hc := hok.calls k c hk
  have hnot : ∀ e, ¬ c.AckedAt e := fun e he => by
    rw [Session.Lingers, (hc.acked he).1] at hl
    cases hl
  refine ⟨hok.calls_setCall hk hu.calls hg ⟨Int.le_trans hc.began hg.now,
    (hc.phase.mono hg.subset).onLate hl, fun e o he => ?_⟩,
    hok.applied_setCall hk hu rfl rfl hnot hg, hok.entries_setCall hk hu rfl hg⟩
  exact ⟨Int.le_trans (hc.returned e o he).1 hg.now, (hc.returned e o he).2⟩

theorem Ok.step (hok : s.Ok sm) (h : Step s sm t) : t.Ok sm := by
  have hg := hok.grows h
  cases h with
  | panic | tick _ => exact hok.still hg rfl rfl rfl
  | clean hc => exact hok.clean hc
  | call hs => exact hok.call hs
  | serve hk hr ha hh => exact hok.serve hk hr ha hh
  | @fail k c node err sent hk hr ha =>
      have hc := hok.calls k c hk
      refine hok.setCall hk hg ⟨hc.began, hc.phase.onError ha _ _, fun e o he => ?_⟩
      rw [hr] at he
      cases he
  | late hk hl hh => exact hok.late hk hl hh
  | @finish k c outcome hk hr ho =>
      have hc := hok.calls k c hk
      refine hok.setCall hk hg ⟨hc.began, hc.phase, fun e o he => ?_⟩
      cases he
      exact ⟨Int.le_refl _, ho⟩

end Sessions

end KvLab
