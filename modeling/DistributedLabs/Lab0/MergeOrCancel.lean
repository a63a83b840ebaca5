import DistributedLabs.Lab0.Merge

/-!
`MergeChannelsOrCancel`, one loop around a select that also ends when its context is
cancelled, and what it has in common with the merging by goroutines: nothing is lost.
-/

namespace MergeLab

variable {T ε : Type}

/-- The loop of `MergeChannelsOrCancel`: before `ctx.Err()`, in the select, before the value
of an input has been sent, and before and after the return. -/
inductive LoopPhase (T ε : Type) where
  | checking
  | selecting
  | sending (i : Input) (x : T)
  | closing (err : Option ε)
  | returned (err : Option ε)
  deriving DecidableEq

structure OrCancel (T ε : Type) where
  ctxErr : Option ε
  left : Input → List T
  done : Input → Bool
  phase : LoopPhase T ε
  out : GoChan T
  panicked : Bool

inductive OrCancelEvent (ε : Type) where
  | cancel (err : ε)
  | check
  | select (i : Input)
  | send
  | close

namespace OrCancel

variable (s : OrCancel T ε)

/-- The first cancellation decides what `ctx.Err()` returns from then on. -/
def cancel (err : ε) : Option (OrCancel T ε) :=
  match s.ctxErr with
  | none => some { s with ctxErr := some err }
  | some _ => none

def check : LoopPhase T ε :=
  match s.ctxErr with
  | some err => .closing (some err)
  | none => if s.done .a && s.done .b then .closing none else .selecting

/-- A case of the select. A closed channel is always ready. -/
def select (i : Input) : OrCancel T ε :=
  match receive (s.left i) with
  | none => { s with
      done := Function.update s.done i true
      phase := .checking }
  | some (x, rest) => { s with
      left := Function.update s.left i rest
      phase := .sending i x }

def send (x : T) : OrCancel T ε :=
  match s.out.send x with
  | none => { s with panicked := true }
  | some out => { s with out, phase := .checking }

def close (err : Option ε) : OrCancel T ε :=
  match s.out.close with
  | none => { s with panicked := true }
  | some out => { s with out, phase := .returned err }

def step (e : OrCancelEvent ε) : Option (OrCancel T ε) :=
  if s.panicked then none
  else
    match e, s.phase with
    | .cancel err, _ => s.cancel err
    | .check, .checking => some { s with phase := s.check }
    | .select i, .selecting => some (s.select i)
    | .send, .sending _ x => some (s.send x)
    | .close, .closing err => some (s.close err)
    | _, _ => none

/-- What a step needs and what it leads to. -/
inductive Step : OrCancelEvent ε → OrCancel T ε → Prop
  | cancel {err : ε} (hc : s.ctxErr = none) : Step (.cancel err) { s with ctxErr := some err }
  | check (hp : s.phase = .checking) : Step .check { s with phase := s.check }
  | select {i : Input} (hp : s.phase = .selecting) : Step (.select i) (s.select i)
  | send {i : Input} {x : T} (hp : s.phase = .sending i x) : Step .send (s.send x)
  | close {err : Option ε} (hp : s.phase = .closing err) : Step .close (s.close err)

theorem step_iff {s t : OrCancel T ε} {e : OrCancelEvent ε} :
    s.step e = some t ↔ s.panicked = false ∧ s.Step e t := by
  constructor
  · intro h
    unfold step at h
    split at h
    · cases h
    · refine ⟨Bool.eq_false_iff.mpr ‹_›, ?_⟩
      split at h
      · unfold cancel at h
        split at h <;> cases h
        exact .cancel ‹_›
      · cases h
        exact .check ‹_›
      · cases h
        exact .select ‹_›
      · cases h
        exact .send ‹_›
      · cases h
        exact .close ‹_›
      · cases h
  · rintro ⟨hp, h⟩
    cases h with
    | cancel hc => simp [step, hp, cancel, hc]
    | check hphase | select hphase | send hphase | close hphase => simp [step, hp, hphase]

end OrCancel

def mergeChannelsOrCancel (ε : Type) (a b : List T) :
    Machine (OrCancel T ε) (OrCancelEvent ε) where
  init := ⟨none, inputs a b, fun _ => false, .checking, .make, false⟩
  step := OrCancel.step

variable {input sent : Input → List T} {values : List T} {s s' : OrCancel T ε}

namespace LoopPhase

/-- The value of an input that was taken and not yet sent. -/
def pending (i : Input) : LoopPhase T ε → List T
  | .sending j x => if j = i then [x] else []
  | .checking | .selecting | .closing _ | .returned _ => []

/-- What is going to be returned. -/
def result : LoopPhase T ε → Option (Option ε)
  | .closing err | .returned err => some err
  | .checking | .selecting | .sending _ _ => none

def rank : LoopPhase T ε → Nat
  | .sending _ _ => 4
  | .checking => 3
  | .selecting => 2
  | .closing _ => 1
  | .returned _ => 0

end LoopPhase

namespace OrCancel

/-- What was sent, what the loop holds and what is left make up each input. -/
structure Ok (input sent : Input → List T) (values : List T) (s : OrCancel T ε) : Prop where
  interleaves : Interleaves sent values
  split : ∀ i, input i = sent i ++ s.phase.pending i ++ s.left i
  drained : ∀ i, s.done i = true → s.left i = []
  undone : s.phase = .selecting → ∃ i, s.done i = false
  isNil : s.phase.result = some none → ∀ i, s.done i = true
  isErr : ∀ err, s.phase.result = some (some err) → s.ctxErr = some err
  opened : (∀ err, s.phase ≠ .returned err) → s.out.Holds values
  closed : ∀ err, s.phase = .returned err → s.out.ClosedAfter values
  panicked : s.panicked = false

theorem Ok.cancel (hok : s.Ok input sent values) {err : ε} (hc : s.ctxErr = none) :
    ({ s with ctxErr := some err } : OrCancel T ε).Ok input sent values := by
  refine ⟨hok.interleaves, hok.split, hok.drained, hok.undone, hok.isNil, fun e he => ?_,
    hok.opened, hok.closed, hok.panicked⟩
  have hsome := hok.isErr e he
  rw [hc] at hsome
  cases hsome

theorem Ok.holds (hok : s.Ok input sent values) {q : LoopPhase T ε} (hphase : s.phase = q)
    (hq : ∀ err, q ≠ .returned err) : s.out.Holds values := by
  apply hok.opened
  rw [hphase]
  exact hq

theorem Ok.check (hok : s.Ok input sent values) (hphase : s.phase = .checking) :
    ({ s with phase := s.check } : OrCancel T ε).Ok input sent values := by
  have hholds := hok.holds hphase nofun
  have hsplit := hok.split
  rw [hphase] at hsplit
  simp only [OrCancel.check]
  cases hctx : s.ctxErr with
  | some err =>
      refine ⟨hok.interleaves, hsplit, hok.drained, nofun, nofun, fun e he => ?_,
        fun _ => hholds, nofun, hok.panicked⟩
      simpa [LoopPhase.result, hctx] using he
  | none =>
      simp only
      split
      · rename_i hdone
        rw [Bool.and_eq_true] at hdone
        refine ⟨hok.interleaves, hsplit, hok.drained, nofun, fun _ i => ?_, nofun,
          fun _ => hholds, nofun, hok.panicked⟩
        cases i with
        | a => exact hdone.1
        | b => exact hdone.2
      · rename_i hdone
        refine ⟨hok.interleaves, hsplit, hok.drained, fun _ => ?_, nofun, nofun,
          fun _ => hholds, nofun, hok.panicked⟩
        cases ha : s.done .a with
        | false => exact ⟨.a, ha⟩
        | true =>
            rw [ha, Bool.true_and] at hdone
            exact ⟨.b, Bool.eq_false_iff.mpr hdone⟩

theorem Ok.select (hok : s.Ok input sent values) (hphase : s.phase = .selecting) (i : Input) :
    (s.select i).Ok input sent values := by
  have hholds := hok.holds hphase nofun
  have hsplit := hok.split
  rw [hphase] at hsplit
  cases hl : s.left i with
  | nil =>
      simp only [OrCancel.select, hl, receive]
      refine ⟨hok.interleaves, hsplit, fun j hj => ?_, nofun, nofun, nofun, fun _ => hholds,
        nofun, hok.panicked⟩
      by_cases hji : j = i
      · rw [hji]
        exact hl
      · exact hok.drained j ((Function.update_of_ne hji _ _).symm.trans hj)
  | cons x rest =>
      simp only [OrCancel.select, hl, receive]
      refine ⟨hok.interleaves, fun j => ?_, fun j hj => ?_, nofun, nofun, nofun,
        fun _ => hholds, nofun, hok.panicked⟩
      · rw [hsplit j]
        by_cases hji : j = i
        · subst hji
          simp [LoopPhase.pending, hl]
        · simp [LoopPhase.pending, Function.update_of_ne hji, Ne.symm hji]
      · have hnil := hok.drained j hj
        by_cases hji : j = i
        · rw [hji, hl] at hnil
          cases hnil
        · simpa [Function.update_of_ne hji] using hnil

theorem Ok.send (hok : s.Ok input sent values) {i : Input} {x : T}
    (hphase : s.phase = .sending i x) :
    (s.send x).Ok input (Function.update sent i (sent i ++ [x])) (values ++ [x]) := by
  have hholds := hok.holds hphase nofun
  obtain ⟨out, hsend, hout⟩ := hholds.send x
  simp only [OrCancel.send, hsend]
  refine ⟨hok.interleaves.snoc i x, fun j => ?_, hok.drained, nofun, nofun, nofun,
    fun _ => hout, nofun, hok.panicked⟩
  rw [hok.split j, hphase]
  by_cases hji : j = i
  · subst hji
    simp [LoopPhase.pending]
  · simp [LoopPhase.pending, Function.update_of_ne hji, Ne.symm hji]

theorem Ok.close (hok : s.Ok input sent values) {err : Option ε}
    (hphase : s.phase = .closing err) : (s.close err).Ok input sent values := by
  have hholds := hok.holds hphase nofun
  obtain ⟨out, hclose, hout⟩ := hholds.close
  have hsplit := hok.split
  have hnil := hok.isNil
  have herr := hok.isErr
  rw [hphase] at hsplit hnil herr
  simp only [OrCancel.close, hclose]
  exact ⟨hok.interleaves, hsplit, hok.drained, nofun, hnil, herr, fun hne => absurd rfl (hne err),
    fun _ _ => hout, hok.panicked⟩

theorem Ok.step (hok : s.Ok input sent values) {e : OrCancelEvent ε}
    (h : s.step e = some s') : ∃ sent' values', s'.Ok input sent' values' := by
  cases (step_iff.mp h).2 with
  | cancel hc => exact ⟨sent, values, hok.cancel hc⟩
  | check hp => exact ⟨sent, values, hok.check hp⟩
  | select hp => exact ⟨sent, values, hok.select hp _⟩
  | send hp => exact ⟨_, _, hok.send hp⟩
  | close hp => exact ⟨sent, values, hok.close hp⟩

/-- What holds when the loop has returned. -/
theorem Ok.returned (hok : s.Ok input sent values) {err : Option ε}
    (h : s.phase = .returned err) :
    (∀ i, input i = sent i ++ s.left i) ∧ Interleaves sent values ∧
      s.out.ClosedAfter values ∧ (err = none → ∀ i, s.left i = []) ∧
      ∀ e, err = some e → s.ctxErr = some e := by
  have hsplit := hok.split
  have hnil := hok.isNil
  have herr := hok.isErr
  rw [h] at hsplit hnil herr
  refine ⟨fun i => ?_, hok.interleaves, hok.closed err h, ?_, ?_⟩
  · rw [hsplit i]
    simp [LoopPhase.pending]
  · rintro rfl i
    exact hok.drained i (hnil rfl i)
  · rintro e rfl
    exact herr e rfl

end OrCancel

theorem orCancel_init_ok (ε : Type) (a b : List T) :
    (mergeChannelsOrCancel ε a b).init.Ok (inputs a b) (fun _ => []) [] where
  interleaves := .nil
  split _ := rfl
  drained _ h := nomatch h
  undone h := nomatch h
  isNil h := nomatch h
  isErr _ h := nomatch h
  opened _ := GoChan.make_holds
  closed _ h := nomatch h
  panicked := rfl

theorem orCancel_ok {a b : List T} {h : List (OrCancel T ε)}
    (run : (mergeChannelsOrCancel ε a b).Run (fun _ _ => True) h) :
    ∀ s ∈ h, ∃ sent values, s.Ok (inputs a b) sent values := by
  refine run.invariant (I := fun s => ∃ sent values, s.Ok (inputs a b) sent values)
    ⟨_, _, orCancel_init_ok ε a b⟩ ?_
  intro s e t hok _ hstep
  obtain ⟨sent, values, hok⟩ := hok
  exact hok.step hstep

namespace OrCancel

/-- What an input still costs the loop if it finds it closed once. -/
def inputRank (s : OrCancel T ε) (i : Input) : Nat :=
  (s.left i).length + if s.done i then 0 else 1

def rank (s : OrCancel T ε) : Nat :=
  4 * (s.inputRank .a + s.inputRank .b) + s.phase.rank

theorem rank_select (hphase : s.phase = .selecting) {i : Input} (hdone : s.done i = false) :
    (s.select i).rank < s.rank := by
  have hinput : (s.select i).inputRank i + 1 = s.inputRank i := by
    cases hl : s.left i with
    | nil => simp [OrCancel.select, hl, receive, inputRank, hdone]
    | cons x rest => simp [OrCancel.select, hl, receive, inputRank, hdone]
  have hother : ∀ j, j ≠ i → (s.select i).inputRank j = s.inputRank j := by
    intro j hj
    cases hl : s.left i with
    | nil => simp [OrCancel.select, hl, receive, inputRank, Function.update_of_ne hj]
    | cons x rest => simp [OrCancel.select, hl, receive, inputRank, Function.update_of_ne hj]
  have hloop : (s.select i).phase.rank ≤ 4 := by
    cases hl : s.left i with
    | nil => simp [OrCancel.select, hl, receive, LoopPhase.rank]
    | cons x rest => simp [OrCancel.select, hl, receive, LoopPhase.rank]
  have hselecting : s.phase.rank = 2 := by rw [hphase, LoopPhase.rank]
  simp only [rank]
  cases i with
  | a =>
      have hb := hother .b nofun
      omega
  | b =>
      have ha := hother .a nofun
      omega

theorem rank_check (hphase : s.phase = .checking) : s.check.rank < s.phase.rank := by
  rw [hphase, OrCancel.check]
  cases s.ctxErr with
  | some err => simp [LoopPhase.rank]
  | none =>
      dsimp only
      split
      · simp [LoopPhase.rank]
      · simp [LoopPhase.rank]

/-- Until it has returned, the loop can take a step of its own towards the return. -/
theorem Ok.advances (hok : s.Ok input sent values) (h : ∀ err, s.phase ≠ .returned err) :
    ∃ e t, (∀ err, e ≠ .cancel err) ∧ s.step e = some t ∧ t.rank < s.rank := by
  cases hphase : s.phase with
  | returned err => exact absurd hphase (h err)
  | checking =>
      refine ⟨.check, _, nofun, step_iff.mpr ⟨hok.panicked, .check hphase⟩, ?_⟩
      exact Nat.add_lt_add_left (rank_check hphase) _
  | selecting =>
      obtain ⟨i, hdone⟩ := hok.undone hphase
      exact ⟨.select i, _, nofun, step_iff.mpr ⟨hok.panicked, .select hphase⟩,
        rank_select hphase hdone⟩
  | sending i x =>
      obtain ⟨out, hsend, _⟩ := (hok.holds hphase nofun).send x
      refine ⟨.send, _, nofun, step_iff.mpr ⟨hok.panicked, .send hphase⟩, ?_⟩
      simp [OrCancel.send, hsend, rank, inputRank, hphase, LoopPhase.rank]
  | closing err =>
      obtain ⟨out, hclose, _⟩ := (hok.holds hphase nofun).close
      refine ⟨.close, _, nofun, step_iff.mpr ⟨hok.panicked, .close hphase⟩, ?_⟩
      simp [OrCancel.close, hclose, rank, inputRank, hphase, LoopPhase.rank]

end OrCancel

/-- The loop can return from every state that it gets into. -/
theorem orCancel_reaches_return {a b : List T} {h : List (OrCancel T ε)}
    (run : (mergeChannelsOrCancel ε a b).Run (fun _ _ => True) h) :
    ∃ newer, (mergeChannelsOrCancel ε a b).Run (fun _ _ => True) (newer ++ h) ∧
      ∃ t, (newer ++ h).head? = some t ∧ ∃ err, t.phase = .returned err := by
  obtain ⟨s, h, rfl⟩ := run.exists_head
  refine run.exists_reach OrCancel.rank (G := fun s => ∃ err, s.phase = .returned err)
    (I := fun s => ∃ sent values, s.Ok (inputs a b) sent values) ?_ ?_
    (orCancel_ok run s List.mem_cons_self)
  · intro s e t hok _ hstep
    obtain ⟨sent, values, hok⟩ := hok
    exact hok.step hstep
  · intro s hok hret
    obtain ⟨sent, values, hok⟩ := hok
    obtain ⟨e, t, _, hstep, hlt⟩ := hok.advances (not_exists.mp hret)
    exact ⟨e, t, trivial, hstep, hlt⟩

/-- Merging loses nothing and keeps the order of each input: what was sent on `out` is an
interleaving of the inputs, or of what was received from them before a cancellation. -/
theorem merging_lossless {T : Type} (ε : Type) (a b : List T) (f g : List String) :
    (∀ h, (mergeChannels a b).Run (fun _ _ => True) h → Lossless (mergeChannels a b) a b h) ∧
    (∀ h, (mergeFetches f g).Run (fun _ _ => True) h → Lossless (mergeFetches f g) f g h) ∧
    ∀ h, (mergeChannelsOrCancel ε a b).Run (fun _ _ => True) h →
      (∀ s ∈ h, s.panicked = false ∧
        (∀ err, s.phase = .returned err →
          ∃ received values, (∀ i, inputs a b i = received i ++ s.left i) ∧
            Interleaves received values ∧ s.out.ClosedAfter values ∧
            (err = none → ∀ i, s.left i = []) ∧ ∀ e, err = some e → s.ctxErr = some e) ∧
        ((∀ err, s.phase ≠ .returned err) → ∃ e t, (∀ err, e ≠ .cancel err) ∧
          (mergeChannelsOrCancel ε a b).step s e = some t)) ∧
      ∃ newer, (mergeChannelsOrCancel ε a b).Run (fun _ _ => True) (newer ++ h) ∧
        ∃ t, (newer ++ h).head? = some t ∧ ∃ err, t.phase = .returned err := by
  refine ⟨fun h run => merging_run_lossless (fun _ => rfl) run,
    fun h run => merging_run_lossless fetchNext_eq_receive run,
    fun h run => ⟨fun s hs => ?_, orCancel_reaches_return run⟩⟩
  obtain ⟨sent, values, hok⟩ := orCancel_ok run s hs
  refine ⟨hok.panicked, fun err hret => ⟨sent, values, hok.returned hret⟩, fun hret => ?_⟩
  obtain ⟨e, t, hown, hstep, _⟩ := hok.advances hret
  exact ⟨e, t, hown, hstep⟩

/-- The second value of `a` is taken before and sent after the value of `b`. -/
def overtaking : List MergeEvent :=
  [.next .a, .send .a, .next .b, .next .a, .send .b, .next .b, .send .a, .next .a, .wait, .close]

/-- A value of `b` overtakes one of `a`, in channels and in fetchers; and the
context is cancelled while the value of `b` is being sent: it still is. -/
theorem merging_lossless_runs :
    (∃ h, (mergeChannels [1, 2] [3]).Run (fun _ _ => True) h ∧
      Lossless (mergeChannels [1, 2] [3]) [1, 2] [3] h ∧ ∃ s ∈ h, s.main = .returned ∧
        s.out.ops = [.send 1, .send 3, .send 2, .close]) ∧
    (∃ h, (mergeFetches ["x", "y"] ["z"]).Run (fun _ _ => True) h ∧
      Lossless (mergeFetches ["x", "y"] ["z"]) ["x", "y"] ["z"] h ∧
      ∃ s ∈ h, s.main = .returned ∧
        s.out.ops = [.send "x", .send "z", .send "y", .close]) ∧
    ∃ h, (mergeChannelsOrCancel String [1, 2] [3]).Run (fun _ _ => True) h ∧
      ∃ s ∈ h, (s.out.ops = [.send 1, .send 3, .close] ∧ s.left .a = [2]) ∧
        ∃ received values, (∀ i, inputs [1, 2] [3] i = received i ++ s.left i) ∧
          Interleaves received values ∧ s.out.ClosedAfter values ∧
          (some "context canceled" = none → ∀ i, s.left i = []) ∧
          ∀ e, some "context canceled" = some e → s.ctxErr = some e := by
  refine ⟨?_, ?_, ?_⟩
  · obtain ⟨h, run, hend⟩ := (mergeChannels [1, 2] [3]).exists_run_of_replay (fun _ _ => True)
      overtaking
      (fun h => ∃ s ∈ h, s.main = .returned ∧
        s.out.ops = [.send 1, .send 3, .send 2, .close])
      (by decide +kernel)
    exact ⟨h, run, (merging_lossless String [1, 2] [3] [] []).1 h run, hend⟩
  · obtain ⟨h, run, hend⟩ := (mergeFetches ["x", "y"] ["z"]).exists_run_of_replay
      (fun _ _ => True)
      overtaking
      (fun h => ∃ s ∈ h, s.main = .returned ∧
        s.out.ops = [.send "x", .send "z", .send "y", .close])
      (by decide +kernel)
    exact ⟨h, run, (merging_lossless String ([] : List Nat) [] ["x", "y"] ["z"]).2.1 h run, hend⟩
  · obtain ⟨h, run, s, hs, hfeature, hret⟩ :=
      (mergeChannelsOrCancel String [1, 2] [3]).exists_run_of_replay (fun _ _ => True)
        [.check, .select .a, .send, .check, .select .b, .cancel "context canceled", .send, .check,
          .close]
        (fun h => ∃ s ∈ h, (s.out.ops = [.send 1, .send 3, .close] ∧ s.left .a = [2]) ∧
          s.phase = .returned (some "context canceled"))
        (by decide +kernel)
    exact ⟨h, run, s, hs, hfeature,
      (((merging_lossless String [1, 2] [3] [] []).2.2 h run).1 s hs).2.1 _ hret⟩

end MergeLab
