import DistributedLabs.Rpc.Network

/-!
The life of one call. `Call.Moves` says what each step of its goroutines needs and does, and
`Stage` how far they can be at the same time. What a call has been asked and what it has
been answered never changes.
-/

namespace LabRpc

variable {ε ν β : Type}

namespace Call

/-- The steps of a call, with what they need. -/
inductive Moves (rn : Network ε ν) (c : Call ε ν β) : Move β → Call ε ν β → Prop
  | accept : c.caller = .sending → rn.listening = true →
      Moves rn c .accept { c with caller := .waiting, process := .started }
  | abort : c.caller = .sending → rn.done = true →
      Moves rn c .abort { c with caller := .returned noReply }
  | route (i : Info ν) : c.process = .started → rn.readEndnameInfo c.endname = some i →
      Moves rn c .route { c with info := some i, process := .routed }
  | unroutable : c.process = .started → rn.readEndnameInfo c.endname = none →
      Moves rn c .route { c with process := .replying noReply }
  | dropRequest (i : Info ν) : c.process = .routed → c.info = some i → i.reliable = false →
      Moves rn c .dropRequest { c with process := .replying noReply }
  | dispatch : c.process = .routed →
      Moves rn c .dispatch { c with process := .serving, dispatch := .dispatching }
  | lookup : c.dispatch = .dispatching → Moves rn c .lookup { c with dispatch := .handling }
  | handlerReturns (reply : β) : c.dispatch = .handling →
      Moves rn c (.handlerReturns reply) { c with dispatch := .returned reply }
  | takeReply (reply : β) : c.process = .serving → c.dispatch = .returned reply →
      Moves rn c .takeReply { c with process := .answered reply, dispatch := .done reply }
  | alive (i : Info ν) : c.process = .serving → c.info = some i →
      rn.isServerDead c.endname i = false → Moves rn c .poll c
  | dead (i : Info ν) : c.process = .serving → c.info = some i →
      rn.isServerDead c.endname i = true →
      Moves rn c .poll { c with process := .gaveUp, draining := true }
  | drain (reply : β) : c.draining = true → c.dispatch = .returned reply →
      Moves rn c .drain { c with draining := false, dispatch := .done reply }
  | fail (i : Info ν) (fate : Fate) : c.info = some i →
      (c.process = .gaveUp ∨ ∃ reply, c.process = .answered reply) →
      Moves rn c (.conclude fate) { c with process := .replying noReply }
  | pass (i : Info ν) (reply : β) (fate : Fate) : c.info = some i →
      c.process = .answered reply → rn.isServerDead c.endname i = false →
      Moves rn c (.conclude fate) { c with process := .weighing reply }
  | weigh (reply : β) : c.process = .weighing reply →
      Moves rn c .weigh { c with process := .replying ⟨true, some reply⟩ }
  | deliver (msg : ReplyMsg β) : c.process = .replying msg → c.caller = .waiting →
      Moves rn c .deliver { c with caller := .returned msg, process := .finished }

variable {rn : Network ε ν} {c c' : Call ε ν β} {m : Move β}

theorem conclude_cases {i : Info ν} {reply : Option β} {fate : Fate}
    (h : c.conclude rn i reply fate = some c') :
    c' = { c with process := .replying noReply } ∨
      ∃ r, reply = some r ∧ rn.isServerDead c.endname i = false ∧
        c' = { c with process := .weighing r } := by
  unfold conclude at h
  split at h
  · split at h
    · cases h
    · exact Or.inl (Option.some.inj h).symm
  · split at h
    · exact Or.inr ⟨_, rfl, ‹_›, (Option.some.inj h).symm⟩
    · cases h
  · exact Or.inr ⟨_, rfl, ‹_›, (Option.some.inj h).symm⟩
  · exact Or.inl (Option.some.inj h).symm

theorem moves_accept (h : c.move rn .accept = some c') : Moves rn c .accept c' := by
  simp only [move] at h
  split at h
  · cases h
    exact .accept ‹_› ‹_›
  · cases h

theorem moves_abort (h : c.move rn .abort = some c') : Moves rn c .abort c' := by
  simp only [move] at h
  split at h
  · cases h
    exact .abort ‹_› ‹_›
  · cases h

theorem moves_route (h : c.move rn .route = some c') : Moves rn c .route c' := by
  simp only [move] at h
  split at h
  · cases h
    exact .route _ ‹_› ‹_›
  · cases h
    exact .unroutable ‹_› ‹_›
  · cases h

theorem moves_dropRequest (h : c.move rn .dropRequest = some c') :
    Moves rn c .dropRequest c' := by
  simp only [move] at h
  split at h
  · split at h
    · cases h
    · cases h
      exact .dropRequest _ ‹_› ‹_› (eq_false_of_ne_true ‹_›)
  · cases h

theorem moves_dispatch (h : c.move rn .dispatch = some c') : Moves rn c .dispatch c' := by
  simp only [move] at h
  split at h
  · cases h
    exact .dispatch ‹_›
  · cases h

theorem moves_lookup (h : c.move rn .lookup = some c') : Moves rn c .lookup c' := by
  simp only [move] at h
  split at h
  · cases h
    exact .lookup ‹_›
  · cases h

theorem moves_handlerReturns {reply : β} (h : c.move rn (.handlerReturns reply) = some c') :
    Moves rn c (.handlerReturns reply) c' := by
  simp only [move] at h
  split at h
  · cases h
    exact .handlerReturns reply ‹_›
  · cases h

theorem moves_takeReply (h : c.move rn .takeReply = some c') : Moves rn c .takeReply c' := by
  simp only [move] at h
  split at h
  · cases h
    exact .takeReply _ ‹_› ‹_›
  · cases h

theorem moves_poll (h : c.move rn .poll = some c') : Moves rn c .poll c' := by
  simp only [move] at h
  split at h
  · split at h
    · cases h
      exact .dead _ ‹_› ‹_› ‹_›
    · cases h
      exact .alive _ ‹_› ‹_› (eq_false_of_ne_true ‹_›)
  · cases h

theorem moves_drain (h : c.move rn .drain = some c') : Moves rn c .drain c' := by
  simp only [move] at h
  split at h
  · cases h
    exact .drain _ ‹_› ‹_›
  · cases h

theorem moves_conclude {fate : Fate} (h : c.move rn (.conclude fate) = some c') :
    Moves rn c (.conclude fate) c' := by
  simp only [move] at h
  split at h
  · rename_i reply i hp hi
    rcases conclude_cases h with rfl | ⟨r, hr, halive, rfl⟩
    · exact .fail i fate hi (Or.inr ⟨reply, hp⟩)
    · cases hr
      exact .pass i reply fate hi hp halive
  · rename_i i hp hi
    rcases conclude_cases h with rfl | ⟨r, hr, _, rfl⟩
    · exact .fail i fate hi (Or.inl hp)
    · cases hr
  · cases h

theorem moves_weigh (h : c.move rn .weigh = some c') : Moves rn c .weigh c' := by
  simp only [move] at h
  split at h
  · cases h
    exact .weigh _ ‹_›
  · cases h

theorem moves_deliver (h : c.move rn .deliver = some c') : Moves rn c .deliver c' := by
  simp only [move] at h
  split at h
  · cases h
    exact .deliver _ ‹_› ‹_›
  · cases h

theorem moves_of_move (h : c.move rn m = some c') : Moves rn c m c' := by
  cases m with
  | accept => exact moves_accept h
  | abort => exact moves_abort h
  | route => exact moves_route h
  | dropRequest => exact moves_dropRequest h
  | dispatch => exact moves_dispatch h
  | lookup => exact moves_lookup h
  | handlerReturns reply => exact moves_handlerReturns h
  | takeReply => exact moves_takeReply h
  | poll => exact moves_poll h
  | drain => exact moves_drain h
  | conclude fate => exact moves_conclude h
  | weigh => exact moves_weigh h
  | deliver => exact moves_deliver h

/-- A step keeps the request and what was read for it. -/
theorem Moves.request (h : Moves rn c m c') :
    c'.endname = c.endname ∧ c'.svcMeth = c.svcMeth ∧ c'.args = c.args := by
  cases h <;> exact ⟨rfl, rfl, rfl⟩

theorem Moves.info (h : Moves rn c m c') {i : Info ν} (hi : c'.info = some i) :
    c.info = some i ∨ c.process = .started ∧ rn.readEndnameInfo c.endname = some i := by
  cases h with
  | route j hp hr =>
      cases hi
      exact Or.inr ⟨hp, hr⟩
  | _ => exact Or.inl hi

end Call

/-- The goroutine around `dispatch` runs and has not handed over its reply. -/
def Dispatch.active : Dispatch β → Bool
  | .dispatching | .handling | .returned _ => true
  | .idle | .done _ => false

/-- The step belongs to the handler. -/
def Move.byHandler : Move β → Bool
  | .handlerReturns _ => true
  | _ => false

/-- The reply that the handler has returned. -/
def Dispatch.answer : Dispatch β → Option β
  | .returned reply | .done reply => some reply
  | .idle | .dispatching | .handling => none

/-- How far the goroutines of one call can be at the same time. -/
inductive Stage : Option (Info ν) → Caller β → Process β → Dispatch β → Bool → Prop
  | sending : Stage none .sending .idle .idle false
  | aborted : Stage none (.returned noReply) .idle .idle false
  | started : Stage none .waiting .started .idle false
  | unroutable : Stage none .waiting (.replying noReply) .idle false
  | unrouted : Stage none (.returned noReply) .finished .idle false
  | routed (i : Info ν) : Stage (some i) .waiting .routed .idle false
  | serving (i : Info ν) (d : Dispatch β) : d.active = true →
      Stage (some i) .waiting .serving d false
  | answered (i : Info ν) (reply : β) :
      Stage (some i) .waiting (.answered reply) (.done reply) false
  | gaveUp (i : Info ν) (d : Dispatch β) (b : Bool) : Stage (some i) .waiting .gaveUp d b
  | failing (i : Info ν) (d : Dispatch β) (b : Bool) :
      Stage (some i) .waiting (.replying noReply) d b
  | failed (i : Info ν) (d : Dispatch β) (b : Bool) :
      Stage (some i) (.returned noReply) .finished d b
  | weighing (i : Info ν) (reply : β) :
      Stage (some i) .waiting (.weighing reply) (.done reply) false
  | replying (i : Info ν) (reply : β) :
      Stage (some i) .waiting (.replying ⟨true, some reply⟩) (.done reply) false
  | succeeded (i : Info ν) (reply : β) :
      Stage (some i) (.returned ⟨true, some reply⟩) .finished (.done reply) false

namespace Call

variable {rn : Network ε ν} {c c' : Call ε ν β} {m : Move β}

def Ok (c : Call ε ν β) : Prop := Stage c.info c.caller c.process c.dispatch c.draining

theorem make_ok (endname : ε) (svcMeth : List Char) (args : β) :
    (make endname svcMeth args : Call ε ν β).Ok := .sending

theorem Ok.move (hc : c.Ok) (h : Moves rn c m c') : c'.Ok := by
  obtain ⟨endname, svcMeth, args, info, caller, process, dispatch, draining⟩ := c
  simp only [Ok] at hc
  cases h with
  | accept h _ =>
      obtain rfl := h
      cases hc
      exact .started
  | abort h _ =>
      obtain rfl := h
      cases hc
      exact .aborted
  | route i h _ =>
      obtain rfl := h
      cases hc
      exact .routed i
  | unroutable h _ =>
      obtain rfl := h
      cases hc
      exact .unroutable
  | dropRequest i h _ _ =>
      obtain rfl := h
      cases hc
      exact .failing _ _ _
  | dispatch h =>
      obtain rfl := h
      cases hc
      exact .serving _ _ rfl
  | lookup h =>
      obtain rfl := h
      cases hc <;> constructor
      rfl
  | handlerReturns reply h =>
      obtain rfl := h
      cases hc <;> constructor
      rfl
  | takeReply reply h hd =>
      obtain rfl := h
      obtain rfl := hd
      cases hc
      exact .answered _ reply
  | alive i h _ _ => exact hc
  | dead i h _ _ =>
      obtain rfl := h
      cases hc
      exact .gaveUp _ _ _
  | drain reply h hd =>
      obtain rfl := h
      obtain rfl := hd
      cases hc <;> constructor
  | fail i fate hi h =>
      rcases h with h | ⟨reply, h⟩ <;> (obtain rfl := h; cases hc; exact .failing _ _ _)
  | pass i reply fate hi h _ =>
      obtain rfl := h
      cases hc
      exact .weighing _ reply
  | weigh reply h =>
      obtain rfl := h
      cases hc
      exact .replying _ reply
  | deliver msg h _ =>
      obtain rfl := h
      cases hc with
      | unroutable => exact .unrouted
      | failing i => exact .failed i _ _
      | replying i reply => exact .succeeded i reply

/-- The check after the loop has let the reply pass. -/
def Passed (c : Call ε ν β) (reply : β) : Prop :=
  c.process = .weighing reply ∨ c.process = .replying ⟨true, some reply⟩ ∨
    c.caller = .returned ⟨true, some reply⟩

theorem Ok.info_of_started (hc : c.Ok) (h : c.process = .started) : c.info = none := by
  obtain ⟨endname, svcMeth, args, info, caller, process, dispatch, draining⟩ := c
  obtain rfl := h
  simp only [Ok] at hc
  cases hc
  rfl

theorem Ok.info_kept (hc : c.Ok) (h : Moves rn c m c') {i : Info ν} (hi : c.info = some i) :
    c'.info = some i := by
  cases h with
  | route j hp _ =>
      rw [hc.info_of_started hp] at hi
      cases hi
  | _ => exact hi

theorem Ok.info_of_dispatch (hc : c.Ok) (h : c.dispatch ≠ .idle) : ∃ i, c.info = some i := by
  obtain ⟨endname, svcMeth, args, info, caller, process, dispatch, draining⟩ := c
  simp only [Ok] at hc
  cases hc <;> first | exact ⟨_, rfl⟩ | exact absurd rfl h

theorem Ok.dispatch_of_routed (hc : c.Ok) (h : c.process = .routed) : c.dispatch = .idle := by
  obtain ⟨endname, svcMeth, args, info, caller, process, dispatch, draining⟩ := c
  obtain rfl := h
  simp only [Ok] at hc
  cases hc
  rfl

theorem Ok.info_of_passed (hc : c.Ok) {reply : β} (h : c.Passed reply) :
    ∃ i, c.info = some i ∧ c.dispatch = .done reply := by
  obtain ⟨endname, svcMeth, args, info, caller, process, dispatch, draining⟩ := c
  simp only [Ok] at hc
  simp only [Passed] at h
  rcases h with rfl | rfl | rfl <;> cases hc <;> exact ⟨_, rfl, rfl⟩

theorem Ok.dispatch_of_answered (hc : c.Ok) {reply : β} (h : c.process = .answered reply) :
    c.dispatch = .done reply := by
  obtain ⟨endname, svcMeth, args, info, caller, process, dispatch, draining⟩ := c
  obtain rfl := h
  simp only [Ok] at hc
  cases hc
  rfl

/-- Only the handler gives the reply. -/
theorem Moves.answer (h : Moves rn c m c') {reply : β} (hr : c'.dispatch.answer = some reply) :
    c.dispatch.answer = some reply ∨ c.dispatch = .handling := by
  cases h with
  | handlerReturns r hd => exact Or.inr hd
  | takeReply r _ hd | drain r _ hd =>
      rw [hd]
      exact Or.inl hr
  | dispatch | lookup => cases hr
  | _ => exact Or.inl hr

/-- Only the check itself lets a reply pass. -/
theorem Moves.passed (h : Moves rn c m c') {reply : β} (hp : c'.Passed reply) :
    c.Passed reply ∨ ∃ i, c.info = some i ∧ c.process = .answered reply ∧
      rn.isServerDead c.endname i = false := by
  cases h with
  | pass i r fate hi hr halive =>
      rcases hp with hp | hp | hp
      · cases hp
        exact Or.inr ⟨i, hi, hr, halive⟩
      · cases hp
      · exact Or.inl (Or.inr (Or.inr hp))
  | weigh r hr =>
      rcases hp with hp | hp | hp
      · cases hp
      · cases hp
        exact Or.inl (Or.inl hr)
      · exact Or.inl (Or.inr (Or.inr hp))
  | deliver msg hr hw =>
      rcases hp with hp | hp | hp
      · cases hp
      · cases hp
      · cases hp
        exact Or.inl (Or.inr (Or.inl hr))
  | lookup | handlerReturns | drain | alive => exact Or.inl hp
  | accept => rcases hp with hp | hp | hp <;> cases hp
  | abort =>
      rcases hp with hp | hp | hp
      · exact Or.inl (Or.inl hp)
      · exact Or.inl (Or.inr (Or.inl hp))
      · cases hp
  | route | unroutable | dropRequest | dispatch | takeReply | dead | fail =>
      rcases hp with hp | hp | hp
      · cases hp
      · cases hp
      · exact Or.inl (Or.inr (Or.inr hp))

end Call

namespace Call

variable {rn : Network ε ν} {c c' : Call ε ν β} {m : Move β}

/-- A call that a later state still knows: the request is the same, and so are the reply
of its handler and the reply it has returned. -/
structure Later (c c' : Call ε ν β) : Prop where
  endname : c'.endname = c.endname
  svcMeth : c'.svcMeth = c.svcMeth
  args : c'.args = c.args
  answer : ∀ reply, c.dispatch.answer = some reply → c'.dispatch.answer = some reply
  returned : ∀ rep, c.caller = .returned rep → c'.caller = .returned rep

theorem Later.refl (c : Call ε ν β) : c.Later c :=
  ⟨rfl, rfl, rfl, fun _ h => h, fun _ h => h⟩

theorem Later.trans {c'' : Call ε ν β} (h : c.Later c') (h' : c'.Later c'') : c.Later c'' :=
  ⟨h'.endname.trans h.endname, h'.svcMeth.trans h.svcMeth, h'.args.trans h.args,
    fun r hr => h'.answer r (h.answer r hr), fun r hr => h'.returned r (h.returned r hr)⟩

theorem Ok.answer_kept (hc : c.Ok) (h : Moves rn c m c') {reply : β}
    (hr : c.dispatch.answer = some reply) : c'.dispatch.answer = some reply := by
  cases h with
  | dispatch hp =>
      rw [hc.dispatch_of_routed hp] at hr
      cases hr
  | lookup hd | handlerReturns _ hd =>
      rw [hd] at hr
      cases hr
  | takeReply r _ hd | drain r _ hd =>
      rw [hd] at hr
      exact hr
  | _ => exact hr

/-- A step that is not the handler's keeps what the handler has returned. -/
theorem Ok.answer_eq (hc : c.Ok) (h : Moves rn c m c') (hm : m.byHandler = false) :
    c'.dispatch.answer = c.dispatch.answer := by
  cases h with
  | dispatch hp =>
      rw [hc.dispatch_of_routed hp]
      rfl
  | lookup hd =>
      rw [hd]
      rfl
  | handlerReturns => cases hm
  | takeReply r _ hd | drain r _ hd =>
      rw [hd]
      rfl
  | _ => rfl

theorem Ok.later (hc : c.Ok) (h : Moves rn c m c') : c.Later c' where
  endname := h.request.1
  svcMeth := h.request.2.1
  args := h.request.2.2
  answer := fun _ hr => hc.answer_kept h hr
  returned := by
    intro rep hr
    cases h with
    | accept hs _ | abort hs _ =>
        rw [hs] at hr
        cases hr
    | deliver _ _ hw =>
        rw [hw] at hr
        cases hr
    | _ => exact hr

end Call

/-- No end is connected anew and no name gets another server. -/
structure Network.Settled (rn rn' : Network ε ν) : Prop where
  connections : rn'.connections = rn.connections
  servers : ∀ name server, rn'.servers name = some server → rn.servers name = some server

theorem Network.Settled.refl (rn : Network ε ν) : rn.Settled rn := ⟨rfl, fun _ _ h => h⟩

/-- The events that set up the network. -/
def Event.builds : Event ε ν β → Bool
  | .makeEnd _ | .makeServer | .addService _ _ | .addServer _ _ | .connect _ _ => true
  | _ => false

namespace State

variable {size : β → Nat} {s t : State ε ν β} {e : Event ε ν β}

theorem charge_settled (c : Call ε ν β) (m : Move β) :
    s.net.Settled (s.charge size c m).net := by
  unfold charge
  split
  · exact ⟨rfl, fun _ _ h => h⟩
  · exact ⟨rfl, fun _ _ h => h⟩
  · dsimp only
    split
    · exact .refl _
    · split <;> exact .refl _
  · exact .refl _

/-- The steps of the network: the tables change, a call is made, or a call moves. -/
inductive Stepped (s t : State ε ν β) : Event ε ν β → Prop
  | setup (e : Event ε ν β) : (∀ k m, e ≠ .move k m) → t.calls = s.calls →
      (e.builds = false → s.net.Settled t.net) → Stepped s t e
  | call (endname : ε) (svcMeth : List Char) (args : β) : t.net = s.net →
      t.calls = s.calls ++ [Call.make endname svcMeth args] →
      Stepped s t (.call endname svcMeth args)
  | move (k : Nat) (m : Move β) (c c' : Call ε ν β) : s.calls[k]? = some c →
      Call.Moves s.net c m c' → s.net.Settled t.net → t.calls = s.calls.set k c' →
      Stepped s t (.move k m)

/-- A network that has been set up keeps its routes but for deleted servers. -/
theorem Stepped.settled (h : s.Stepped t e) (he : e.builds = false) : s.net.Settled t.net := by
  cases h with
  | setup _ _ _ hset => exact hset he
  | call _ _ _ hnet _ =>
      rw [hnet]
      exact .refl _
  | move _ _ _ _ _ _ hset _ => exact hset

def Ok (s : State ε ν β) : Prop := ∀ c ∈ s.calls, c.Ok

/-- What a step makes of the calls: a new one comes last, or one of them moves. -/
theorem Stepped.calls (h : s.Stepped t e) {k : Nat} {c' : Call ε ν β}
    (hk : t.calls[k]? = some c') :
    s.calls[k]? = some c' ∨ (∃ endname svcMeth args, c' = .make endname svcMeth args) ∨
      ∃ m c, s.calls[k]? = some c ∧ Call.Moves s.net c m c' := by
  cases h with
  | setup _ _ heq _ =>
      rw [heq] at hk
      exact Or.inl hk
  | call endname svcMeth args _ heq =>
      rw [heq, List.getElem?_append] at hk
      split at hk
      · exact Or.inl hk
      · rw [List.getElem?_singleton] at hk
        split at hk
        · exact Or.inr (Or.inl ⟨endname, svcMeth, args, (Option.some.inj hk).symm⟩)
        · cases hk
  | move j m c c'' hj hm _ heq =>
      rw [heq, List.getElem?_set] at hk
      split at hk
      · rename_i hjk
        subst hjk
        split at hk
        · cases hk
          exact Or.inr (Or.inr ⟨m, c, hj, hm⟩)
        · cases hk
      · exact Or.inl hk

theorem Ok.step (hs : s.Ok) (h : s.Stepped t e) : t.Ok := by
  intro c' hc'
  obtain ⟨k, hk⟩ := List.mem_iff_getElem?.mp hc'
  rcases h.calls hk with hk | ⟨endname, svcMeth, args, rfl⟩ | ⟨m, c, hk, hm⟩
  · exact hs c' (List.mem_of_getElem? hk)
  · exact Call.make_ok endname svcMeth args
  · exact (hs c (List.mem_of_getElem? hk)).move hm

/-- What every step of a call respects relates the calls before and after a step. -/
theorem Ok.calls_kept {R : Call ε ν β → Call ε ν β → Prop} (hrefl : ∀ c, R c c)
    (hmove : ∀ k m c c', e = .move k m → c.Ok → Call.Moves s.net c m c' → R c c')
    (hs : s.Ok) (h : s.Stepped t e) (k : Nat) (c : Call ε ν β) (hk : s.calls[k]? = some c) :
    ∃ c', t.calls[k]? = some c' ∧ R c c' := by
  cases h with
  | setup _ _ heq _ => exact ⟨c, heq ▸ hk, hrefl c⟩
  | call endname svcMeth args _ heq =>
      refine ⟨c, ?_, hrefl c⟩
      rw [heq, List.getElem?_append_left (List.getElem?_eq_some_iff.mp hk).1, hk]
  | move j m c₀ c' hj hm _ heq =>
      rw [heq, List.getElem?_set]
      by_cases hjk : j = k
      · subst hjk
        obtain rfl := Option.some.inj (hj.symm.trans hk)
        refine ⟨c', ?_, hmove j m c₀ c' rfl (hs c₀ (List.mem_of_getElem? hk)) hm⟩
        simp [(List.getElem?_eq_some_iff.mp hk).1]
      · exact ⟨c, by rw [if_neg hjk, hk], hrefl c⟩

variable [DecidableEq ε] [DecidableEq ν]

theorem calls_of_stepSetup (h : s.stepSetup e = some t) : t.calls = s.calls := by
  cases e <;> simp only [stepSetup] at h
  case call | move => cases h
  all_goals (repeat' split at h) <;> first | cases h; rfl | cases h

theorem settled_of_stepSetup (h : s.stepSetup e = some t) (he : e.builds = false) :
    s.net.Settled t.net := by
  cases e <;> simp only [stepSetup] at h
  case makeEnd | makeServer | addService | addServer | connect => cases he
  case call | move => cases h
  case deleteServer name =>
    cases h
    refine ⟨rfl, fun j p hj => ?_⟩
    simp only [Function.update_apply] at hj
    split at hj
    · cases hj
    · exact hj
  case cleanup | stopListening =>
    split at h <;> cases h <;> exact ⟨rfl, fun _ _ hj => hj⟩
  all_goals
    cases h
    exact ⟨rfl, fun _ _ hj => hj⟩

theorem stepped (h : s.step size e = some t) : s.Stepped t e := by
  unfold step at h
  split at h
  · cases h
  · split at h
    · split at h
      · cases h
        exact .call _ _ _ rfl rfl
      · cases h
    · simp only [stepMove] at h
      split at h
      · cases h
      · split at h
        · cases h
        · cases h
          exact .move _ _ _ _ ‹_› (Call.moves_of_move ‹_›) (charge_settled _ _) rfl
    · exact .setup _ ‹_› (calls_of_stepSetup h) (settled_of_stepSetup h)

/-- A preorder that every step of a call respects relates a call at an older point of a run
to the call at a newer one. -/
theorem calls_of_run {R : Call ε ν β → Call ε ν β → Prop} (hrefl : ∀ c, R c c)
    (htrans : ∀ c c' c'', R c c' → R c' c'' → R c c'')
    (hmove : ∀ (rn : Network ε ν) c m c', c.Ok → Call.Moves rn c m c' → R c c')
    {h : List (State ε ν β)} (run : (network ε ν size).Run (fun _ _ => True) h) :
    h.Pairwise fun newer older => ∀ (k : Nat) (c : Call ε ν β), older.calls[k]? = some c →
      ∃ c', newer.calls[k]? = some c' ∧ R c c' := by
  refine run.pairwise (I := Ok) (R := fun older newer => ∀ (k : Nat) (c : Call ε ν β),
    older.calls[k]? = some c → ∃ c', newer.calls[k]? = some c' ∧ R c c') ?_ ?_ ?_ ?_
  · intro c hc
    cases hc
  · exact fun s e t hs _ ht => hs.step (stepped ht)
  · intro s t u hst htu k c hk
    obtain ⟨c', hk', hr⟩ := hst k c hk
    obtain ⟨c'', hk'', hr'⟩ := htu k c' hk'
    exact ⟨c'', hk'', htrans c c' c'' hr hr'⟩
  · exact fun s e t hs _ ht =>
      hs.calls_kept hrefl (fun _ m c c' _ => hmove s.net c m c') (stepped ht)

theorem ok_of_run {h : List (State ε ν β)}
    (run : (network ε ν size).Run (fun _ _ => True) h) : ∀ s ∈ h, s.Ok := by
  refine run.invariant (I := Ok) ?_ (fun s e t hs _ ht => hs.step (stepped ht))
  intro c hc
  cases hc

end State

end LabRpc
