import DistributedLabs.Raft.RestartInvariant

/-!
What survives a restart. `crash1` takes the server from the network before it copies the
persister, and the network withholds a reply once the server is gone. So a handler whose
reply reached its caller had returned when the persister was copied, and what it saved is
what the next instance begins with.
-/

namespace RaftLab

open LabRpc (Call)

variable {n : Nat} {ε β : Type}

namespace Config

structure Ok (s : Config n ε β) : Prop where
  pointers : s.PointersOk
  stages : ∃ k : Fin n → Stage, (∀ i, s.Holds i (k i)) ∧ Typed k s.task

variable {s t : Config n ε β}

theorem Ok.init : Ok (Config.init : Config n ε β) where
  pointers := by
    refine ⟨⟨?_, ?_⟩, ⟨?_, ?_⟩, ⟨?_, ?_, ?_⟩, ?_⟩
    · intro i q hq
      cases hq
    · intro i j q hq
      cases hq
    · intro x hx
      cases hx
    · intro a b x y hx
      cases hx
    · intro x hx
      cases hx
    · intro a b x y p hx
      cases hx
    · intro i p hp
      cases hp
    · intro a b x y hs
      cases hs.left
  stages := by
    refine ⟨fun _ => .stopped, fun i => ⟨rfl, rfl, ?_, ?_⟩, fun i => Or.inl rfl⟩
    · intro q hq
      cases hq
    · intro a x hl
      cases hl.entry

/-- The stages after an operation on `i` that leaves the other names alone. -/
theorem Carried.holds_update {k : Fin n → Stage} (hk : ∀ i, s.Holds i (k i)) {i : Fin n}
    {stage : Stage} (h : Carried s t i stage) : ∀ j, t.Holds j (Function.update k i stage j) := by
  intro j
  by_cases hj : j = i
  · subst hj
    rw [Function.update_self]
    exact h.holds
  · rw [Function.update_of_ne hj]
    exact (h.same j hj).holds (hk j)

theorem shared_builds {e : LabRpc.Event ε (Fin n) β} (h : shared e = true) :
    e.builds = false := by
  cases e with
  | call _ _ _ | move _ _ | setReliable _ | setLongReordering _ | setLongDelays _ | cleanup
  | stopListening | deleteServer _ | enable _ _ => rfl
  | makeEnd _ | makeServer | addService _ _ | addServer _ _ | connect _ _ => cases h

theorem charge_heap_length (size : β → Nat) (net : LabRpc.State ε (Fin n) β)
    (c : Call ε (Fin n) β) (m : LabRpc.Move β) :
    (net.charge size c m).heap.length = net.heap.length := by
  unfold LabRpc.State.charge
  split
  · rfl
  · rfl
  · dsimp only
    split
    · simp [LabRpc.State.countDispatch, LabRpc.State.exit]
    · split <;> simp [LabRpc.State.countDispatch, LabRpc.State.exit]
  · rfl

/-- An instance saves its state, also after it was killed. -/
theorem Ok.persist (h : s.Ok) {a : Nat} {x : Instance n ε} (hx : s.instances[a]? = some x)
    (f : Persister → Persister) :
    Ok { s with persisters := s.persisters.modify x.persister f } := by
  have hsame : ∀ j, Same s { s with persisters := s.persisters.modify x.persister f } j := by
    intro j
    refine ⟨rfl, rfl, id, id, fun _ _ _ => Iff.rfl, ?_⟩
    intro q _ hfree
    refine ⟨⟨?_, hfree.2⟩, ?_⟩
    · simp only [List.length_modify]
      exact hfree.1
    · have hne := hfree.2 x (List.mem_of_getElem? hx)
      simp [hne]
  obtain ⟨k, hk, htask⟩ := h.stages
  refine ⟨⟨⟨?_, h.pointers.saved.once⟩, ⟨?_, h.pointers.owners.apart⟩, h.pointers.servers,
    h.pointers.handed⟩, k, fun i => (hsame i).holds (hk i), htask⟩
  · simp only [List.length_modify]
    exact h.pointers.saved.lt
  · simp only [List.length_modify]
    exact h.pointers.owners.lt

theorem Ok.perform (h : s.Ok) (htask : s.task = []) (p : TestOp n ε) :
    Ok { s with task := p.ops } := by
  obtain ⟨k, hk, hend⟩ := h.stages
  rw [htask] at hend
  have hl : SameInstances s { s with task := p.ops } := withTask_sameInstances p.ops
  exact ⟨hl.pointers h.pointers, k, fun i => (hl.same i).holds (hk i), Typed.ops hend p⟩

variable [DecidableEq ε] {size : β → Nat}

theorem shared_heap_length {net net' : LabRpc.State ε (Fin n) β}
    {e : LabRpc.Event ε (Fin n) β} (he : shared e = true) (h : net.step size e = some net') :
    net'.heap.length = net.heap.length := by
  unfold LabRpc.State.step at h
  split at h
  · cases h
  · cases e with
    | call endname svcMeth args =>
        simp only at h
        split at h
        · cases h
          rfl
        · cases h
    | move k m =>
        simp only [LabRpc.State.stepMove] at h
        split at h
        · cases h
        · split at h
          · cases h
          · cases h
            exact charge_heap_length size net _ m
    | cleanup =>
        simp only [LabRpc.State.stepSetup] at h
        split at h
        · cases h
          rfl
        · cases h
          rfl
    | stopListening =>
        simp only [LabRpc.State.stepSetup] at h
        split at h
        · cases h
          rfl
        · cases h
    | setReliable _ | setLongReordering _ | setLongDelays _ =>
        cases h
        rfl
    | makeEnd _ | makeServer | addService _ _ | addServer _ _ | deleteServer _ | connect _ _
    | enable _ _ => cases he

/-- The network moves on its own. -/
theorem Ok.net (h : s.Ok) {e : LabRpc.Event ε (Fin n) β} {net' : LabRpc.State ε (Fin n) β}
    (he : shared e = true) (hs : s.net.step size e = some net') : Ok { s with net := net' } := by
  have hsettled := (LabRpc.State.stepped hs).settled (shared_builds he)
  have hsame : ∀ j, Same s { s with net := net' } j := by
    intro j
    refine ⟨rfl, rfl, ?_, id, fun _ _ _ => Iff.rfl, fun _ _ hfree => ⟨hfree, rfl⟩⟩
    intro hnone
    cases hj : net'.net.servers j with
    | none => rfl
    | some p =>
        rw [hsettled.servers j p hj] at hnone
        cases hnone
  have hheap := shared_heap_length he hs
  obtain ⟨k, hk, htask⟩ := h.stages
  refine ⟨⟨h.pointers.saved, h.pointers.owners, ⟨?_, h.pointers.servers.apart, ?_⟩,
    h.pointers.handed⟩, k, fun i => (hsame i).holds (hk i), htask⟩
  · intro x hx p hp
    change p < net'.heap.length
    rw [hheap]
    exact h.pointers.servers.lt x hx p hp
  · intro i p hp
    exact h.pointers.servers.owned i p (hsettled.servers i p hp)

theorem Ok.run (h : s.Ok) {op : Op n ε} {rest : List (Op n ε)} (htask : s.task = op :: rest) :
    Ok { s.exec op with task := rest } := by
  obtain ⟨k, hk, hnext⟩ := h.stages
  rw [htask] at hnext
  obtain ⟨next, hn, hrest⟩ := hnext
  have hcarried := carried_exec h.pointers (hk op.name) hn
  have hl : SameInstances (s.exec op) { s.exec op with task := rest } := withTask_sameInstances rest
  exact ⟨hl.pointers hcarried.pointers, _,
    fun i => (hl.same i).holds (hcarried.holds_update hk i), hrest⟩

/-- What a step needs and what it leads to. -/
inductive Step (size : β → Nat) (s : Config n ε β) : ConfigEvent n ε β → Config n ε β → Prop
  | net {e : LabRpc.Event ε (Fin n) β} {net' : LabRpc.State ε (Fin n) β}
      (he : shared e = true) (hs : s.net.step size e = some net') :
      Step size s (.net e) { s with net := net' }
  | persist {a : Nat} {x : Instance n ε} (state : List UInt8) (hx : s.instances[a]? = some x) :
      Step size s (.persist a state) { s with
        persisters := s.persisters.modify x.persister fun p => { p with raftstate := state } }
  | perform (p : TestOp n ε) (htask : s.task = []) :
      Step size s (.perform p) { s with task := p.ops }
  | run {op : Op n ε} {rest : List (Op n ε)} (htask : s.task = op :: rest) :
      Step size s .run { s.exec op with task := rest }

theorem step_cases {e : ConfigEvent n ε β} (h : s.step size e = some t) : Step size s e t := by
  unfold step at h
  split at h
  · cases h
  · cases e with
    | net e =>
        simp only at h
        split at h
        · rename_i he
          obtain ⟨net', hs, rfl⟩ := Option.map_eq_some_iff.mp h
          exact .net he hs
        · cases h
    | persist a state =>
        obtain ⟨x, hx, rfl⟩ := Option.map_eq_some_iff.mp h
        exact .persist state hx
    | perform p =>
        simp only at h
        split at h
        · rename_i htask
          cases h
          exact .perform p (List.isEmpty_iff.mp htask)
        · cases h
    | run =>
        cases htask : s.task with
        | nil =>
            simp only [htask] at h
            cases h
        | cons op rest =>
            simp only [htask] at h
            cases h
            exact .run htask

theorem Ok.step (h : s.Ok) {e : ConfigEvent n ε β} (hs : Step size s e t) : t.Ok := by
  cases hs with
  | net he hs => exact h.net he hs
  | persist state hx => exact h.persist hx _
  | perform p htask => exact h.perform htask p
  | run htask => exact h.run htask

theorem setUp_calls (net : LabRpc.State ε (Fin n) β) (e : LabRpc.Event ε (Fin n) β) :
    (setUp net e).calls = net.calls := by
  unfold setUp
  cases h : net.stepSetup e with
  | none => rfl
  | some net' => exact LabRpc.State.calls_of_stepSetup h

theorem makeEnds_calls (names : Fin n → ε) (js : List (Fin n))
    (net : LabRpc.State ε (Fin n) β) : (makeEnds names js net).calls = net.calls := by
  induction js generalizing net with
  | nil => rfl
  | cons j js ih =>
      rw [makeEnds]
      split
      · rfl
      · rw [ih, setUp_calls, setUp_calls]

theorem enable_calls (s : Config n ε β) (names : Option (Fin n → ε)) (other j : Fin n)
    (enabled : Bool) : (s.enable names other j enabled).net.calls = s.net.calls := by
  cases enabled with
  | true =>
      cases names with
      | none =>
          simp only [enable]
          split <;> rfl
      | some names =>
          simp only [enable]
          split
          · exact setUp_calls _ _
          · rfl
  | false =>
      cases names with
      | none => rfl
      | some names => exact setUp_calls _ _

/-- An operation of the test touches no call. -/
theorem exec_calls (s : Config n ε β) (op : Op n ε) : (s.exec op).net.calls = s.net.calls := by
  cases op with
  | setConnected i yes => rfl
  | enableOut i j enabled => exact s.enable_calls _ _ _ _
  | enableIn i j enabled => exact s.enable_calls _ _ _ _
  | deleteServer i => exact setUp_calls _ _
  | copySaved i =>
      rw [exec]
      split <;> rfl
  | kill i =>
      rw [exec]
      split <;> rfl
  | saveAnew i =>
      rw [exec]
      split <;> rfl
  | makeEnds i names => exact makeEnds_calls names _ _
  | renewSaved i =>
      rw [exec]
      split <;> rfl
  | make i =>
      rw [exec]
      split <;> rfl
  | addServer i svc =>
      rw [exec]
      split
      · rfl
      · simp only [setUp_calls]

/-- What an instance keeps once it has its server. -/
structure Keeps (x x' : Instance n ε) : Prop where
  name : x'.name = x.name
  persister : x'.persister = x.persister
  server : x'.server = x.server

/-- The instance had the copy before the operation, or the operation makes it and takes what
the persister of the instance holds. -/
def CopyFrom (s : Config n ε β) (op : Op n ε) (a : Nat) (x : Instance n ε) (p : Persister) :
    Prop :=
  ∃ x₀, s.instances[a]? = some x₀ ∧ Keeps x₀ x ∧ (x₀.final = some p ∨
    op = .copySaved x.name ∧ s.persisters[x.persister]? = some p)

section Final

variable {stage next : Stage} {i : Fin n} {a : Nat} {x : Instance n ε} {p : Persister}

omit [DecidableEq ε] in
theorem CopyFrom.old {op : Op n ε} (hx : s.instances[a]? = some x)
    (hfinal : x.final = some p) : s.CopyFrom op a x p :=
  ⟨x, hx, ⟨rfl, rfl, rfl⟩, Or.inl hfinal⟩

theorem copySaved_final (hptr : s.PointersOk) (hi : s.Holds i stage)
    (hn : (Op.copySaved i : Op n ε).next stage = some next)
    (hx : (s.exec (.copySaved i)).instances[a]? = some x) (hfinal : x.final = some p) :
    s.CopyFrom (.copySaved i) a x p := by
  cases stage with
  | stopped =>
      have hdown : s.Down i := hi
      have hsame : (s.exec (.copySaved i)).instances = s.instances := by
        simp only [exec, hdown.raft]
        split <;> rfl
      exact .old (hsame ▸ hx) hfinal
  | cut =>
      obtain ⟨b, y, hu, hsaved, _, _⟩ := hi
      simp only [exec, hsaved, hu.raft] at hx
      obtain ⟨x₀, hx₀, h⟩ := getElem?_modify_cases hx
      rcases h with ⟨rfl, rfl⟩ | ⟨_, rfl⟩
      · obtain rfl := Option.some.inj (hu.entry.symm.trans hx₀)
        refine ⟨y, hx₀, ⟨rfl, rfl, rfl⟩, Or.inr ⟨?_, ?_⟩⟩
        · exact congrArg Op.copySaved hu.name.symm
        · rw [← hfinal]
          exact getElem?_content (hptr.owners.lt y (List.mem_of_getElem? hx₀))
      · exact .old hx₀ hfinal
  | named | renewed | made | running | copied => cases hn

theorem kill_final (hx : (s.exec (.kill i)).instances[a]? = some x)
    (hfinal : x.final = some p) : s.CopyFrom (.kill i) a x p := by
  cases hr : s.rafts i with
  | none =>
      simp only [exec, hr] at hx
      exact .old hx hfinal
  | some b =>
      simp only [exec, hr] at hx
      obtain ⟨x₀, hx₀, h⟩ := getElem?_modify_cases hx
      rcases h with ⟨_, rfl⟩ | ⟨_, rfl⟩
      · exact ⟨x₀, hx₀, ⟨rfl, rfl, rfl⟩, Or.inl hfinal⟩
      · exact .old hx₀ hfinal

theorem make_final (hx : (s.exec (.make i)).instances[a]? = some x)
    (hfinal : x.final = some p) : s.CopyFrom (.make i) a x p := by
  cases hq : s.saved i with
  | none =>
      simp only [exec, hq] at hx
      exact .old hx hfinal
  | some q =>
      cases hnames : s.endnames i with
      | none =>
          simp only [exec, hq, hnames] at hx
          exact .old hx hfinal
      | some names =>
          simp only [exec, hq, hnames] at hx
          cases getElem?_append_singleton_cases hx with
          | inl hx => exact .old hx hfinal
          | inr hx =>
              rw [hx.2] at hfinal
              cases hfinal

theorem addServer_final {svc : LabRpc.Service} (hi : s.Holds i stage)
    (hn : (Op.addServer i svc : Op n ε).next stage = some next)
    (hx : (s.exec (.addServer i svc)).instances[a]? = some x) (hfinal : x.final = some p) :
    s.CopyFrom (.addServer i svc) a x p := by
  cases stage with
  | made =>
      obtain ⟨b, y, hu, _, hnone, _⟩ := hi
      simp only [exec, hu.raft] at hx
      obtain ⟨x₀, hx₀, h⟩ := getElem?_modify_cases hx
      rcases h with ⟨rfl, rfl⟩ | ⟨_, rfl⟩
      · obtain rfl := Option.some.inj (hu.entry.symm.trans hx₀)
        rw [hnone] at hfinal
        cases hfinal
      · exact .old hx₀ hfinal
  | stopped | named | renewed | running | cut | copied => cases hn

/-- Only the copy in `crash1` sets what is handed on. -/
theorem exec_final {op : Op n ε} (hptr : s.PointersOk) (hi : s.Holds op.name stage)
    (hn : op.next stage = some next) (hx : (s.exec op).instances[a]? = some x)
    (hfinal : x.final = some p) : s.CopyFrom op a x p := by
  have hsame : (s.exec op).instances = s.instances → s.CopyFrom op a x p :=
    fun heq => .old (heq ▸ hx) hfinal
  cases op with
  | setConnected i yes => exact hsame rfl
  | enableOut i j enabled => exact hsame (enable_sameInstances _ _ _ _).instances
  | enableIn i j enabled => exact hsame (enable_sameInstances _ _ _ _).instances
  | deleteServer i => exact hsame rfl
  | makeEnds i names => exact hsame rfl
  | saveAnew i =>
      apply hsame
      rw [exec]
      split <;> rfl
  | renewSaved i =>
      apply hsame
      rw [exec]
      split <;> rfl
  | copySaved i => exact copySaved_final hptr hi hn hx hfinal
  | kill i => exact kill_final hx hfinal
  | make i => exact make_final hx hfinal
  | addServer i svc => exact addServer_final hi hn hx hfinal

end Final

/-- The calls to the server of an instance that have a reply to give had it from the handler
when the persister of the instance was copied. -/
def CopiedAt (s : Config n ε β) (x : Instance n ε) (p : Persister) (t : Config n ε β) : Prop :=
  t.task.head? = some (.copySaved x.name) ∧ t.persisters[x.persister]? = some p ∧
    ∀ (k : Nat) (c : Call ε (Fin n) β) (i : LabRpc.Info (Fin n)) (reply : β),
      s.net.calls[k]? = some c → c.info = some i → x.server = some i.server →
      c.Passed reply → ∃ c', t.net.calls[k]? = some c' ∧ c'.dispatch.answer = some reply

omit [DecidableEq ε] in
theorem CopiedAt.keeps {x x' : Instance n ε} {p : Persister} {u : Config n ε β}
    (h : CopiedAt s x p u) (hx : Keeps x x') (hc : t.net.calls = s.net.calls) :
    CopiedAt t x' p u := by
  unfold CopiedAt
  rw [hx.name, hx.persister, hx.server, hc]
  exact h

/-- A reply is withheld from then on: the name no longer stands for the server. -/
theorem CopiedAt.net {x : Instance n ε} {p : Persister} {u : Config n ε β}
    {e : LabRpc.Event ε (Fin n) β} {net' : LabRpc.State ε (Fin n) β} (h : CopiedAt s x p u)
    (hok : s.net.Ok) (hservers : ServersOk s.net.heap.length s.net.net.servers s.instances)
    {a : Nat} (hx : s.instances[a]? = some x) (hfinal : x.final = some p)
    (hs : s.net.step size e = some net') : CopiedAt { s with net := net' } x p u := by
  refine ⟨h.1, h.2.1, ?_⟩
  intro k c' i reply hk hi hserver hp
  rcases (LabRpc.State.stepped hs).calls hk with hk | ⟨endname, svcMeth, args, rfl⟩ |
    ⟨m, c, hk, hm⟩
  · exact h.2.2 k c' i reply hk hi hserver hp
  · cases hi
  · have hcall : c.Ok := hok c (List.mem_of_getElem? hk)
    cases hm.passed hp with
    | inl hp =>
        obtain ⟨j, hj, _⟩ := hcall.info_of_passed hp
        obtain rfl := Option.some.inj ((hcall.info_kept hm hj).symm.trans hi)
        exact h.2.2 k c j reply hk hj hserver hp
    | inr hp =>
        obtain ⟨j, hj, _, halive⟩ := hp
        obtain rfl := Option.some.inj ((hcall.info_kept hm hj).symm.trans hi)
        have hname : s.net.net.servers j.servername = some j.server := by
          simp only [LabRpc.Network.isServerDead, Bool.or_eq_false_iff] at halive
          simpa using halive.2
        obtain ⟨y, hy, _, hyserver, hyfinal⟩ := hservers.owned _ _ hname
        obtain ⟨b, hb⟩ := List.mem_iff_getElem?.mp hy
        obtain rfl := hservers.apart a b x y _ hx hb hserver hyserver
        obtain rfl := Option.some.inj (hx.symm.trans hb)
        rw [hfinal] at hyfinal
        cases hyfinal

variable {h : List (Config n ε β)}

theorem ok_of_run (run : (config n ε size).Run (fun _ _ => True) (s :: h)) : s.Ok := by
  refine run.invariant (I := Ok) Ok.init ?_ s List.mem_cons_self
  intro s e t hs _ ht
  exact hs.step (step_cases ht)

theorem net_ok_of_run (run : (config n ε size).Run (fun _ _ => True) (s :: h)) : s.net.Ok := by
  refine run.invariant (I := fun s => s.net.Ok) (by intro c hc; cases hc) ?_ s
    List.mem_cons_self
  intro s e t hs _ ht
  cases step_cases ht with
  | net he hstep => exact hs.step (LabRpc.State.stepped hstep)
  | persist state hx => exact hs
  | perform p htask => exact hs
  | run htask =>
      change ∀ c ∈ (s.exec _).net.calls, c.Ok
      rw [exec_calls]
      exact hs

/-- Every copy of a persister was made at a moment of the run. -/
theorem copiedAt_of_run (run : (config n ε size).Run (fun _ _ => True) (s :: h)) :
    ∀ (a : Nat) (x : Instance n ε) (p : Persister), s.instances[a]? = some x →
      x.final = some p → ∃ t ∈ h, CopiedAt s x p t := by
  refine History.head_induction (P := fun s h => ∀ (a : Nat) (x : Instance n ε) (p : Persister),
    s.instances[a]? = some x → x.final = some p → ∃ t ∈ h, CopiedAt s x p t) ?_ ?_ run
  · intro a x p hx
    cases hx
  · intro s t h run ih hn a x p hx hfinal
    obtain ⟨e, _, ht⟩ := (config n ε size).next_cons.mp hn
    have hok := ok_of_run run
    cases step_cases ht with
    | net he hs =>
        obtain ⟨u, hu, hcopied⟩ := ih a x p hx hfinal
        exact ⟨u, List.mem_cons_of_mem _ hu,
          hcopied.net (net_ok_of_run run) hok.pointers.servers hx hfinal hs⟩
    | persist state hx' =>
        obtain ⟨u, hu, hcopied⟩ := ih a x p hx hfinal
        exact ⟨u, List.mem_cons_of_mem _ hu, hcopied⟩
    | perform q htask =>
        obtain ⟨u, hu, hcopied⟩ := ih a x p hx hfinal
        exact ⟨u, List.mem_cons_of_mem _ hu, hcopied⟩
    | @run op rest htask =>
        obtain ⟨k, hk, htyped⟩ := hok.stages
        rw [htask] at htyped
        obtain ⟨next, hnext, _⟩ := htyped
        obtain ⟨x₀, hx₀, hkeeps, hset⟩ :=
          exec_final hok.pointers (hk op.name) hnext hx hfinal
        cases hset with
        | inl hset =>
            obtain ⟨u, hu, hcopied⟩ := ih a x₀ p hx₀ hset
            exact ⟨u, List.mem_cons_of_mem _ hu, hcopied.keeps hkeeps (exec_calls s op)⟩
        | inr hset =>
            refine ⟨s, List.mem_cons_self, ?_, hset.2, ?_⟩
            · rw [htask, hset.1]
              rfl
            · intro k c i reply hc hi hserver hp
              change (s.exec op).net.calls[k]? = some c at hc
              rw [exec_calls] at hc
              obtain ⟨_, _, hdone⟩ :=
                (net_ok_of_run run c (List.mem_of_getElem? hc)).info_of_passed hp
              exact ⟨c, hc, by rw [hdone]; rfl⟩

end Config

/-- When a server is restarted, its new instance has a persister that no other instance of any
server has, and begins with what the old one had saved at one moment of the run, the copy in
`crash1`. Every call to the old instance that returned a reply had been handled by then. -/
theorem acknowledged_state_survives {n : Nat} {ε β : Type} [DecidableEq ε] (size : β → Nat)
    {s : Config n ε β} {h : List (Config n ε β)}
    (run : (config n ε size).Run (fun _ _ => True) (s :: h)) {a b : Nat}
    {x y : Instance n ε} (hxy : Succeeds s.instances a b x y) :
    (∀ (d : Nat) (z : Instance n ε), s.instances[d]? = some z → d ≠ b →
      z.persister ≠ y.persister) ∧
    ∃ t ∈ h, t.task.head? = some (.copySaved x.name) ∧
      t.persisters[x.persister]? = some y.initial ∧
      ∀ (k : Nat) (c : Call ε (Fin n) β) (i : LabRpc.Info (Fin n)) (reply : β),
        s.net.calls[k]? = some c → c.info = some i → x.server = some i.server →
        c.caller = .returned ⟨true, some reply⟩ →
        ∃ c', t.net.calls[k]? = some c' ∧ c'.dispatch.answer = some reply := by
  have hok := Config.ok_of_run run
  constructor
  · intro d z hz hdb heq
    exact hdb (hok.pointers.owners.apart d b z y hz hxy.right heq)
  · obtain ⟨t, ht, htask, hcontent, hcalls⟩ :=
      Config.copiedAt_of_run run a x y.initial hxy.left (hok.pointers.handed a b x y hxy)
    refine ⟨t, ht, htask, hcontent, ?_⟩
    intro k c i reply hk hi hserver hret
    exact hcalls k c i reply hk hi hserver (Or.inr (Or.inr hret))

/-- One server is started and connected, handles a call that makes it save its state, saves
once more after the reply, and is restarted. -/
def restartAfterReply : List (ConfigEvent 1 Nat Nat) :=
  [.perform (.start1 0 (fun _ => 0) ⟨['R'], [['V']]⟩)] ++ List.replicate 11 .run ++
    [.perform (.connect 0), .run, .run, .run] ++
    [.net (.call 0 ['R', '.', 'V'] 5), .net (.move 0 .accept), .net (.move 0 .route),
      .net (.move 0 .dispatch), .net (.move 0 .lookup), .persist 0 [1],
      .net (.move 0 (.handlerReturns 7)), .net (.move 0 .takeReply),
      .net (.move 0 (.conclude .send)), .net (.move 0 .weigh), .net (.move 0 .deliver),
      .persist 0 [1, 2], .perform (.start1 0 (fun _ => 1) ⟨['R'], [['V']]⟩)] ++
    List.replicate 11 .run

theorem acknowledged_state_survives_restart :
    ∃ s h x y, (config 1 Nat id).Run (fun _ _ => True) (s :: h) ∧
      Succeeds s.instances 0 1 x y ∧ y.initial.raftstate = [1, 2] ∧
      x.persister ≠ y.persister ∧ ∃ t ∈ h, t.persisters[x.persister]? = some y.initial ∧
        ∃ c, t.net.calls[0]? = some c ∧ c.dispatch.answer = some 7 := by
  obtain ⟨h, run, s, hs, x, hx, y, hy, hstate, c, hk, i, hi, hserver, hret⟩ :=
    (config 1 Nat id).exists_run_of_replay (fun _ _ => True) restartAfterReply
      (fun h => ∃ s, h.head? = some s ∧ ∃ x, s.instances[0]? = some x ∧
        ∃ y, s.instances[1]? = some y ∧ y.initial.raftstate = [1, 2] ∧
        ∃ c, s.net.calls[0]? = some c ∧ ∃ i, c.info = some i ∧ x.server = some i.server ∧
          c.caller = .returned ⟨true, some 7⟩)
      (by decide +kernel)
  obtain ⟨s', h, rfl⟩ := run.exists_head
  obtain rfl := Option.some.inj hs
  have hsucc : Succeeds s'.instances 0 1 x y :=
    ⟨hx, hy, Nat.zero_lt_one, Subsingleton.elim _ _, fun d _ _ h0 h1 => by omega⟩
  obtain ⟨hown, t, ht, _, hcontent, hcalls⟩ := acknowledged_state_survives id run hsucc
  exact ⟨s', h, x, y, run, hsucc, hstate, hown 0 x hx (by decide), t, ht, hcontent,
    hcalls 0 c i 7 hk hi hserver hret⟩

end RaftLab
