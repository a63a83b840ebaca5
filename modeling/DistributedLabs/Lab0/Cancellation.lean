import DistributedLabs.Lab0.MergeOrCancel

/-!
When `MergeChannelsOrCancel` is blocked. The loop is that of `OrCancel`; added here are the
senders and closers of the inputs and the reader of `out`, on whom a receive and a send may
have to wait. Neither the select nor the sends look at the context, so a cancellation is
noticed only if they need not wait.
-/

namespace MergeLab

variable {T ε : Type}

/-- The loop, whose `left` has the values that can be received now, with all that was sent
on the inputs, the inputs that are closed, and the number of values that `out` takes before
a send on it blocks. A sender that has offered a value waits until it is received, and a
reader until it gets one; neither withdraws. -/
structure Attended (T ε : Type) where
  loop : OrCancel T ε
  offered : Input → List T
  closed : Input → Bool
  room : Nat

/-- What the senders, the closers, the reader, and the function or its context do. -/
inductive AttendedEvent (T ε : Type) where
  | offer (i : Input) (x : T)
  | closeInput (i : Input)
  | read
  | loop (e : OrCancelEvent ε)

namespace OrCancelEvent

/-- A step of the function itself. -/
def own : OrCancelEvent ε → Bool
  | .cancel _ => false
  | .check | .select _ | .send | .close => true

/-- The room on `out` that a step uses up. -/
def uses : OrCancelEvent ε → Nat
  | .send => 1
  | .cancel _ | .check | .select _ | .close => 0

end OrCancelEvent

namespace Attended

variable (s : Attended T ε)

/-- A receive waits for a value or for the end of its input, a send for room on `out`. -/
def ready : OrCancelEvent ε → Bool
  | .select i => !(s.loop.left i).isEmpty || s.closed i
  | .send => 0 < s.room
  | .cancel _ | .check | .close => true

def offer (i : Input) (x : T) : Attended T ε :=
  { s with
    loop := { s.loop with left := Function.update s.loop.left i (s.loop.left i ++ [x]) }
    offered := Function.update s.offered i (s.offered i ++ [x]) }

def step : AttendedEvent T ε → Option (Attended T ε)
  | .offer i x => if s.closed i then none else some (s.offer i x)
  | .closeInput i =>
      if s.closed i then none else some { s with closed := Function.update s.closed i true }
  | .read => some { s with room := s.room + 1 }
  | .loop e =>
      if s.ready e then
        (s.loop.step e).map fun loop => { s with loop, room := s.room - e.uses }
      else none

/-- The function has returned, or it can take its next step without the others. -/
def CanMove : Prop :=
  (∃ err, s.loop.phase = .returned err) ∨
    ∃ e t, e.own = true ∧ s.step (.loop e) = some t

/-- The loop is not in a select on idle inputs or in a send without room. -/
def unblocked : Bool :=
  match s.loop.phase with
  | .checking | .closing _ | .returned _ => true
  | .selecting => s.ready (.select .a) || s.ready (.select .b)
  | .sending _ _ => 0 < s.room

/-- The context is not cancelled while the loop is blocked, and when it is done a select
does not take a value that there is no room for. -/
def Notices : AttendedEvent T ε → Prop
  | .loop (.cancel _) => s.unblocked = true
  | .loop (.select i) => s.loop.ctxErr ≠ none → (s.loop.left i).isEmpty = false → 0 < s.room
  | .offer _ _ | .closeInput _ | .read | .loop .check | .loop .send | .loop .close => True

instance (e : AttendedEvent T ε) [DecidableEq ε] : Decidable (s.Notices e) :=
  match e with
  | .loop (.cancel _) => inferInstanceAs (Decidable (s.unblocked = true))
  | .loop (.select _) => inferInstanceAs (Decidable (_ → _ → _))
  | .offer _ _ | .closeInput _ | .read | .loop .check | .loop .send | .loop .close =>
      isTrue trivial

end Attended

/-- `out` has room for some values at the start. -/
def attended (T ε : Type) (room : Nat) : Machine (Attended T ε) (AttendedEvent T ε) where
  init := ⟨⟨none, fun _ => [], fun _ => false, .checking, .make, false⟩, fun _ => [],
    fun _ => false, room⟩
  step := Attended.step

namespace OrCancel

/-- The same loop with more values to come. -/
def extend (s : OrCancel T ε) (future : Input → List T) : OrCancel T ε :=
  { s with left := fun i => s.left i ++ future i }

theorem select_extend {s : OrCancel T ε} {i : Input} {future : Input → List T}
    (hf : s.left i = [] → future i = []) :
    (s.extend future).select i = (s.select i).extend future := by
  cases hl : s.left i with
  | nil => simp [OrCancel.select, extend, hl, hf hl, receive]
  | cons x rest =>
      simp only [OrCancel.select, extend, hl, List.cons_append, receive]
      congr 1
      funext j
      by_cases hji : j = i
      · subst hji
        simp
      · simp [Function.update_of_ne hji]

theorem send_extend {s : OrCancel T ε} {x : T} {future : Input → List T} :
    (s.extend future).send x = (s.send x).extend future := by
  simp only [OrCancel.send, extend]
  cases s.out.send x <;> rfl

theorem close_extend {s : OrCancel T ε} {err : Option ε} {future : Input → List T} :
    (s.extend future).close err = (s.close err).extend future := by
  simp only [OrCancel.close, extend]
  cases s.out.close <;> rfl

/-- A step of the loop does not depend on what is to come, unless it finds an input empty
that is not. -/
theorem step_extend {s t : OrCancel T ε} {e : OrCancelEvent ε} {future : Input → List T}
    (hf : ∀ i, e = .select i → s.left i = [] → future i = [])
    (h : s.step e = some t) : (s.extend future).step e = some (t.extend future) := by
  obtain ⟨hp, h⟩ := step_iff.mp h
  refine step_iff.mpr ⟨hp, ?_⟩
  cases h with
  | cancel hc => exact .cancel hc
  | check hphase => exact .check hphase
  | @select i hphase =>
      rw [← select_extend (hf i rfl)]
      exact .select hphase
  | send hphase =>
      rw [← send_extend]
      exact .send hphase
  | close hphase =>
      rw [← close_extend]
      exact .close hphase

end OrCancel

namespace Attended

variable {s t : Attended T ε} {h : List (Attended T ε)} {room : Nat}

theorem ready_select {i : Input} :
    s.ready (.select i) = true ↔ s.loop.left i ≠ [] ∨ s.closed i = true := by
  simp [ready]

theorem ready_any : (s.ready (.select .a) || s.ready (.select .b)) = true ↔
    ∃ i, s.ready (.select i) = true := by
  rw [Bool.or_eq_true]
  constructor
  · intro h
    cases h with
    | inl ha => exact ⟨.a, ha⟩
    | inr hb => exact ⟨.b, hb⟩
  · rintro ⟨i, hi⟩
    cases i with
    | a => exact Or.inl hi
    | b => exact Or.inr hi

/-- The loop has made a run of `OrCancel`, whatever is sent later on inputs that are not
closed. -/
def Refines (s : Attended T ε) : Prop :=
  ∀ future : Input → List T, (∀ i, s.closed i = true → future i = []) →
    ∃ g, (mergeChannelsOrCancel ε (s.offered .a ++ future .a)
      (s.offered .b ++ future .b)).Run (fun _ _ => True) (s.loop.extend future :: g)

theorem refines_init : (attended T ε room).init.Refines := by
  intro future _
  have hinit : (attended T ε room).init.loop.extend future =
      (mergeChannelsOrCancel ε (future .a) (future .b)).init := by
    simp only [attended, mergeChannelsOrCancel, OrCancel.extend, List.nil_append]
    congr 1
    funext i
    cases i with
    | a | b => rfl
  refine ⟨[], ?_⟩
  rw [hinit]
  exact .start

/-- A value that is sent now is the first of those that are sent later. -/
theorem Refines.offer (hs : s.Refines) {i : Input} (hopen : ¬ s.closed i = true) (x : T) :
    (s.offer i x).Refines := by
  intro future hfuture
  have hmove (l : Input → List T) (j : Input) :
      Function.update l i (l i ++ [x]) j ++ future j =
        l j ++ Function.update future i (x :: future i) j := by
    by_cases hji : j = i
    · subst hji
      simp
    · simp [Function.update_of_ne hji]
  have hlater (j : Input) (hj : s.closed j = true) :
      Function.update future i (x :: future i) j = [] := by
    by_cases hji : j = i
    · subst hji
      exact absurd hj hopen
    · rw [Function.update_of_ne hji]
      exact hfuture j hj
  obtain ⟨g, hg⟩ := hs (Function.update future i (x :: future i)) hlater
  have hloop : (s.offer i x).loop.extend future =
      s.loop.extend (Function.update future i (x :: future i)) := by
    simp only [OrCancel.extend, Attended.offer, hmove]
  refine ⟨g, ?_⟩
  rw [hloop]
  simpa only [Attended.offer, hmove] using hg

/-- The loop finds an input empty only if nothing is sent on it later. -/
theorem Refines.own (hs : s.Refines) {e : OrCancelEvent ε} {loop : OrCancel T ε}
    (hready : s.ready e = true) (hloop : s.loop.step e = some loop) (room : Nat) :
    ({ s with loop, room } : Attended T ε).Refines := by
  intro future hfuture
  obtain ⟨g, hg⟩ := hs future hfuture
  refine ⟨_, hg.next (Machine.next_cons _ |>.mpr ⟨e, trivial, ?_⟩)⟩
  refine OrCancel.step_extend ?_ hloop
  intro i he hnil
  subst he
  cases ready_select.mp hready with
  | inl hvalue => exact absurd hnil hvalue
  | inr hclosed => exact hfuture i hclosed

theorem Refines.step (hs : s.Refines) {e : AttendedEvent T ε} (ht : s.step e = some t) :
    t.Refines := by
  cases e with
  | offer i x =>
      obtain ⟨hopen, ht⟩ := Option.ite_none_left_eq_some.mp ht
      cases ht
      exact hs.offer hopen x
  | closeInput i =>
      obtain ⟨_, ht⟩ := Option.ite_none_left_eq_some.mp ht
      cases ht
      refine fun future hfuture => hs future fun j hj => hfuture j ?_
      by_cases hji : j = i
      · subst hji
        simp
      · simpa [Function.update_of_ne hji] using hj
  | read =>
      cases ht
      exact hs
  | loop e =>
      obtain ⟨hready, ht⟩ := Option.ite_none_right_eq_some.mp ht
      obtain ⟨loop, hloop, rfl⟩ := Option.map_eq_some_iff.mp ht
      exact hs.own hready hloop _

theorem not_panicked (run : (attended T ε room).Run (fun _ _ => True) h) :
    ∀ s ∈ h, s.loop.panicked = false := by
  have hrefines := run.invariant (I := Refines) refines_init (fun _ _ _ hs _ ht => hs.step ht)
  intro s hs
  obtain ⟨g, hg⟩ := hrefines s hs (fun _ => []) (fun _ _ => rfl)
  obtain ⟨sent, values, hok⟩ := orCancel_ok hg _ List.mem_cons_self
  exact hok.panicked

/-- The function can move on its own if and only if it is not blocked. -/
theorem canMove_iff (hp : s.loop.panicked = false) : s.CanMove ↔ s.unblocked = true := by
  have hmove {e : OrCancelEvent ε} {loop : OrCancel T ε} (ho : e.own = true)
      (hr : s.ready e = true) (hstep : s.loop.Step e loop) : s.CanMove := by
    refine Or.inr ⟨e, { s with loop, room := s.room - e.uses }, ho, ?_⟩
    rw [step, if_pos hr, OrCancel.step_iff.mpr ⟨hp, hstep⟩]
    rfl
  unfold unblocked
  constructor
  · intro h
    cases h with
    | inl hret =>
        obtain ⟨err, hret⟩ := hret
        rw [hret]
    | inr hstep =>
        obtain ⟨e, t, ho, ht⟩ := hstep
        obtain ⟨hr, ht⟩ := Option.ite_none_right_eq_some.mp ht
        obtain ⟨loop, hloop, _⟩ := Option.map_eq_some_iff.mp ht
        cases (OrCancel.step_iff.mp hloop).2 with
        | cancel _ => cases ho
        | check hphase | close hphase => rw [hphase]
        | @select i hphase =>
            rw [hphase]
            exact ready_any.mpr ⟨i, hr⟩
        | send hphase =>
            rw [hphase]
            exact hr
  · intro h
    cases hphase : s.loop.phase with
    | checking => exact hmove rfl rfl (.check hphase)
    | selecting =>
        rw [hphase] at h
        obtain ⟨i, hr⟩ := ready_any.mp h
        exact hmove rfl hr (.select hphase)
    | sending i x =>
        rw [hphase] at h
        exact hmove (e := .send) rfl h (.send hphase)
    | closing err => exact hmove rfl rfl (.close hphase)
    | returned err => exact Or.inl ⟨err, hphase⟩

/-- What the others do can only unblock the function. -/
theorem unblocked_mono (h : s.unblocked = true) (hphase : t.loop.phase = s.loop.phase)
    (hready : ∀ i, s.ready (.select i) = true → t.ready (.select i) = true)
    (hroom : s.room ≤ t.room) : t.unblocked = true := by
  unfold unblocked at h ⊢
  rw [hphase]
  cases hp : s.loop.phase with
  | checking | closing err | returned err => rfl
  | selecting =>
      rw [hp] at h
      obtain ⟨i, hi⟩ := ready_any.mp h
      exact ready_any.mpr ⟨i, hready i hi⟩
  | sending i x =>
      rw [hp] at h
      exact decide_eq_true (Nat.lt_of_lt_of_le (of_decide_eq_true h) hroom)

theorem ctxErr_own {e : OrCancelEvent ε} {loop : OrCancel T ε} (ho : e.own = true)
    (hstep : s.loop.Step e loop) :
    loop.ctxErr = s.loop.ctxErr := by
  cases hstep with
  | cancel _ => cases ho
  | check _ => rfl
  | @select i _ =>
      unfold OrCancel.select
      cases receive (s.loop.left i) <;> rfl
  | @send _ x _ =>
      unfold OrCancel.send
      cases s.loop.out.send x <;> rfl
  | close _ =>
      unfold OrCancel.close
      cases s.loop.out.close <;> rfl

theorem notices_of_live {e : OrCancelEvent ε} (hc : s.loop.ctxErr = none)
    (ho : e.own = true) : s.Notices (.loop e) := by
  cases e with
  | cancel err => cases ho
  | check | send | close => trivial
  | select i => exact fun hne => absurd hc hne

/-- The state after a step of the function whose context is done is blocked only if the
step was a select that took a value without room for it. -/
theorem unblocked_own {e : OrCancelEvent ε} {loop : OrCancel T ε} (hc : s.loop.ctxErr ≠ none)
    (ho : e.own = true) (hp : loop.panicked = false) (hstep : s.loop.Step e loop) :
    unblocked { s with loop, room := s.room - e.uses } = true ↔ s.Notices (.loop e) := by
  cases hstep with
  | cancel _ => cases ho
  | check hphase =>
      obtain ⟨err, herr⟩ := Option.ne_none_iff_exists'.mp hc
      simp only [unblocked, Notices, OrCancel.check, herr]
  | @select i hphase =>
      cases hl : s.loop.left i with
      | nil => simp [unblocked, Notices, OrCancel.select, hl, receive]
      | cons x rest =>
          simp only [unblocked, Notices, OrCancel.select, hl, receive, OrCancelEvent.uses,
            List.isEmpty_cons]
          exact ⟨fun hroom _ _ => of_decide_eq_true hroom,
            fun hroom => decide_eq_true (hroom hc trivial)⟩
  | @send i x hphase =>
      unfold OrCancel.send at hp ⊢
      cases hsend : s.loop.out.send x with
      | none =>
          rw [hsend] at hp
          cases hp
      | some out => simp only [unblocked, Notices]
  | @close err hphase =>
      unfold OrCancel.close at hp ⊢
      cases hclose : s.loop.out.close with
      | none =>
          rw [hclose] at hp
          cases hp
      | some out => simp only [unblocked, Notices]

/-- Once the context is done, an event leaves the function able to move if and only if it
is one that lets the cancellation be noticed. -/
theorem noticed_step {e : AttendedEvent T ε} (hp : t.loop.panicked = false)
    (hs : s.loop.ctxErr ≠ none → s.unblocked = true) (h : s.step e = some t) :
    (t.loop.ctxErr ≠ none → t.unblocked = true) ↔ s.Notices e := by
  cases e with
  | offer i x =>
      obtain ⟨_, h⟩ := Option.ite_none_left_eq_some.mp h
      cases h
      refine ⟨fun _ => trivial, fun _ hc => unblocked_mono (hs hc) rfl ?_ (Nat.le_refl _)⟩
      intro j hj
      rw [ready_select] at hj ⊢
      refine hj.imp (fun hl => ?_) id
      by_cases hji : j = i
      · subst hji
        simp [offer]
      · simpa [offer, Function.update_of_ne hji] using hl
  | closeInput i =>
      obtain ⟨_, h⟩ := Option.ite_none_left_eq_some.mp h
      cases h
      refine ⟨fun _ => trivial, fun _ hc => unblocked_mono (hs hc) rfl ?_ (Nat.le_refl _)⟩
      intro j hj
      rw [ready_select] at hj ⊢
      refine hj.imp id (fun hclosed => ?_)
      by_cases hji : j = i
      · subst hji
        simp
      · simpa [Function.update_of_ne hji] using hclosed
  | read =>
      cases h
      exact ⟨fun _ => trivial,
        fun _ hc => unblocked_mono (hs hc) rfl (fun _ hr => hr) (Nat.le_succ _)⟩
  | loop e =>
      obtain ⟨_, h⟩ := Option.ite_none_right_eq_some.mp h
      obtain ⟨loop, hloop, rfl⟩ := Option.map_eq_some_iff.mp h
      have hstep := (OrCancel.step_iff.mp hloop).2
      cases ho : e.own with
      | false =>
          cases hstep with
          | cancel _ => exact ⟨fun h => h (Option.some_ne_none _), fun h _ => h⟩
          | check _ | select _ | send _ | close _ => cases ho
      | true =>
          have hctx := ctxErr_own ho hstep
          by_cases hc : s.loop.ctxErr = none
          · refine ⟨fun _ => notices_of_live hc ho, fun _ hne => absurd hc ?_⟩
            rwa [← hctx]
          · rw [← unblocked_own hc ho hp hstep]
            exact ⟨fun h => h (hctx ▸ hc), fun h _ => h⟩

end Attended

/-- Whenever the context is done and the function has not returned, it can go on without the
others if and only if it was never cancelled while blocked and took no value without room
for it afterwards. -/
theorem cancellation_noticed_iff {room : Nat} {h : List (Attended T ε)}
    (run : (attended T ε room).Run (fun _ _ => True) h) :
    (∀ s ∈ h, s.loop.ctxErr ≠ none → s.CanMove) ↔
      (attended T ε room).Run (fun s e => s.Notices e) h := by
  have hp := Attended.not_panicked run
  have hiff : (∀ s ∈ h, s.loop.ctxErr ≠ none → s.unblocked = true) ↔
      (attended T ε room).Run (fun s e => s.Notices e) h := by
    refine Machine.Run.invariant_iff
      (I := fun s : Attended T ε => s.loop.ctxErr ≠ none → s.unblocked = true)
      (G := fun s : Attended T ε => s.loop.panicked = false) ?_ ?_ ?_ run hp
    · exact fun hc => absurd rfl hc
    · exact fun s e t hs hpt hn ht => (Attended.noticed_step hpt hs ht).mpr hn
    · exact fun s e t hs hst hpt ht => (Attended.noticed_step hpt hs ht).mp hst
  rw [← hiff]
  constructor
  · exact fun hall s hs hc => (Attended.canMove_iff (hp s hs)).mp (hall s hs hc)
  · exact fun hall s hs hc => (Attended.canMove_iff (hp s hs)).mpr (hall s hs hc)

/-- The context is cancelled between two steps, a value is still sent, and the function
returns. -/
theorem cancellation_noticed_iff_returns :
    ∃ h, (attended Nat String 1).Run (fun _ _ => True) h ∧
      (∃ s ∈ h, s.loop.phase = .returned (some "context canceled")) ∧
      ∀ s ∈ h, s.loop.ctxErr ≠ none → s.CanMove := by
  obtain ⟨h, run, hend⟩ := (attended Nat String 1).exists_run_of_replay
    (fun s e => s.Notices e)
    [.offer .a 1, .loop .check, .loop (.select .a), .loop (.cancel "context canceled"),
      .loop .send, .loop .check, .loop .close]
    (fun h => ∃ s ∈ h, s.loop.phase = .returned (some "context canceled"))
    (by decide +kernel)
  have hrun : (attended Nat String 1).Run (fun _ _ => True) h :=
    Machine.Run.mono (fun _ _ _ => trivial) run
  exact ⟨h, hrun, hend, (cancellation_noticed_iff hrun).mpr run⟩

/-- A context that is cancelled while both inputs are idle is not noticed, and neither is one
that is cancelled while nobody reads the value that is being sent. -/
theorem cancellation_unnoticed :
    (∃ h, (attended Nat String 0).Run (fun _ _ => True) h ∧
      ∃ s ∈ h, s.loop.ctxErr ≠ none ∧ s.loop.phase = .selecting ∧ ¬ s.CanMove) ∧
    ∃ h, (attended Nat String 0).Run (fun _ _ => True) h ∧
      ∃ s ∈ h, s.loop.ctxErr ≠ none ∧ s.loop.phase = .sending .a 1 ∧ ¬ s.CanMove := by
  have stuck {h : List (Attended Nat String)} {phase : LoopPhase Nat String}
      (run : (attended Nat String 0).Run (fun _ _ => True) h)
      (hs : ∃ s ∈ h, s.loop.ctxErr ≠ none ∧ s.loop.phase = phase ∧ s.unblocked = false) :
      ∃ s ∈ h, s.loop.ctxErr ≠ none ∧ s.loop.phase = phase ∧ ¬ s.CanMove := by
    obtain ⟨s, hs, hc, hphase, hblocked⟩ := hs
    refine ⟨s, hs, hc, hphase, ?_⟩
    rw [Attended.canMove_iff (Attended.not_panicked run s hs), hblocked]
    exact Bool.false_ne_true
  constructor
  · obtain ⟨h, run, hs⟩ := (attended Nat String 0).exists_run_of_replay (fun _ _ => True)
      [.loop .check, .loop (.cancel "context canceled")]
      (fun h => ∃ s ∈ h, s.loop.ctxErr ≠ none ∧ s.loop.phase = .selecting ∧
        s.unblocked = false)
      (by decide +kernel)
    exact ⟨h, run, stuck run hs⟩
  · obtain ⟨h, run, hs⟩ := (attended Nat String 0).exists_run_of_replay (fun _ _ => True)
      [.offer .a 1, .loop .check, .loop (.select .a), .loop (.cancel "context canceled")]
      (fun h => ∃ s ∈ h, s.loop.ctxErr ≠ none ∧ s.loop.phase = .sending .a 1 ∧
        s.unblocked = false)
      (by decide +kernel)
    exact ⟨h, run, stuck run hs⟩

end MergeLab
