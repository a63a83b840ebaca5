import DistributedLabs.Library.GoChan
import DistributedLabs.Library.History

/-!
Merging two inputs into one channel. An input is the finite sequence of values that it
yields before it ends; when a value is there and when a send on `out` goes through is left
to the schedule, so that every sender, every buffer and every reader is covered.
`MergeChannels` and `MergeFetches` run one goroutine for each input and wait for both.
-/

namespace MergeLab

variable {T : Type}

inductive Input where
  | a
  | b
  deriving DecidableEq

/-- The parameters `a` and `b`. -/
def inputs (a b : List T) : Input → List T
  | .a => a
  | .b => b

/-- `x, ok := <-in`: a closed channel yields no more values. -/
def receive : List T → Option (T × List T)
  | [] => none
  | x :: rest => some (x, rest)

/-- `Fetch()` of a fetcher with the data that it still has. -/
def fetch : List String → (String × Bool) × List String
  | [] => (("", false), [])
  | data :: rest => ((data, true), rest)

/-- `data, ok := fetcher.Fetch()` and the test of `ok`. -/
def fetchNext (fetcher : List String) : Option (String × List String) :=
  match fetch fetcher with
  | ((data, true), rest) => some (data, rest)
  | ((_, false), _) => none

/-- The goroutine of an input: before it takes a value, before it has sent it on `out`, and
after `wg.Done()`. -/
inductive ReaderPhase (T : Type) where
  | receiving
  | sending (x : T)
  | done

inductive MainPhase where
  | waiting
  | closing
  | returned
  deriving DecidableEq

structure Merge (T : Type) where
  left : Input → List T
  readers : Input → ReaderPhase T
  wg : Int
  main : MainPhase
  out : GoChan T
  panicked : Bool

inductive MergeEvent where
  | next (i : Input)
  | send (i : Input)
  | wait
  | close

namespace Merge

variable (s : Merge T)

def next (take : List T → Option (T × List T)) (i : Input) : Option (Merge T) :=
  match s.readers i with
  | .receiving =>
      match take (s.left i) with
      | none => some { s with
          readers := Function.update s.readers i .done
          wg := s.wg - 1 }
      | some (x, rest) => some { s with
          left := Function.update s.left i rest
          readers := Function.update s.readers i (.sending x) }
  | .sending _ | .done => none

def send (i : Input) : Option (Merge T) :=
  match s.readers i with
  | .sending x =>
      match s.out.send x with
      | none => some { s with panicked := true }
      | some out => some { s with out, readers := Function.update s.readers i .receiving }
  | .receiving | .done => none

def close : Option (Merge T) :=
  match s.out.close with
  | none => some { s with panicked := true }
  | some out => some { s with out, main := .returned }

def step (take : List T → Option (T × List T)) (e : MergeEvent) : Option (Merge T) :=
  if s.panicked then none
  else
    match e with
    | .next i => s.next take i
    | .send i => s.send i
    | .wait => if s.main = .waiting ∧ s.wg = 0 then some { s with main := .closing } else none
    | .close => if s.main = .closing then s.close else none

end Merge

/-- Two goroutines, one for each input, and the caller, which waits for them. -/
def merging (take : List T → Option (T × List T)) (a b : List T) :
    Machine (Merge T) MergeEvent where
  init := ⟨inputs a b, fun _ => .receiving, 2, .waiting, .make, false⟩
  step s e := s.step take e

def mergeChannels (a b : List T) : Machine (Merge T) MergeEvent := merging receive a b

def mergeFetches (a b : List String) : Machine (Merge String) MergeEvent :=
  merging fetchNext a b

namespace ReaderPhase

/-- The value that was taken and not yet sent. -/
def pending : ReaderPhase T → List T
  | .sending x => [x]
  | .receiving | .done => []

/-- What the goroutine adds to the wait group. -/
def running : ReaderPhase T → Int
  | .receiving | .sending _ => 1
  | .done => 0

theorem running_nonneg (q : ReaderPhase T) : 0 ≤ q.running := by
  cases q <;> simp [running]

theorem done_of_running {q : ReaderPhase T} (h : q.running = 0) : q = .done := by
  cases q with
  | done => rfl
  | receiving | sending _ => cases h

end ReaderPhase

variable {input sent : Input → List T} {values : List T} {s s' : Merge T}
  {take : List T → Option (T × List T)}

namespace Merge

/-- What was sent, what a goroutine holds and what is left make up each input, and the
caller goes on when both goroutines are done. -/
structure Ok (input sent : Input → List T) (values : List T) (s : Merge T) : Prop where
  interleaves : Interleaves sent values
  split : ∀ i, input i = sent i ++ (s.readers i).pending ++ s.left i
  drained : ∀ i, s.readers i = .done → s.left i = []
  counted : s.wg = (s.readers .a).running + (s.readers .b).running
  waited : s.main ≠ .waiting → ∀ i, s.readers i = .done
  opened : s.main ≠ .returned → s.out.Holds values
  closed : s.main = .returned → s.out.ClosedAfter values
  panicked : s.panicked = false

theorem running_update (readers : Input → ReaderPhase T) (i : Input) (q : ReaderPhase T) :
    (Function.update readers i q .a).running + (Function.update readers i q .b).running +
        (readers i).running =
      (readers .a).running + (readers .b).running + q.running := by
  cases i with
  | a => simp [Function.update]; omega
  | b => simp [Function.update]; omega

/-- The caller waits for a goroutine that is not done. -/
theorem Ok.waiting (hok : s.Ok input sent values) {i : Input}
    (h : (s.readers i).running = 1) : s.main = .waiting := by
  by_contra hmain
  rw [hok.waited hmain i] at h
  cases h

/-- A goroutine moves on; its input stays made up of the same parts. -/
theorem Ok.move (hok : s.Ok input sent values) {i : Input} {q : ReaderPhase T}
    {l part whole : List T} (hrunning : (s.readers i).running = 1)
    (hreaders : s'.readers = Function.update s.readers i q)
    (hleft : s'.left = Function.update s.left i l) (hwg : s'.wg = s.wg - 1 + q.running)
    (hmain : s'.main = s.main) (hpanicked : s'.panicked = false)
    (hinter : Interleaves (Function.update sent i part) whole) (hout : s'.out.Holds whole)
    (hsplit : part ++ q.pending ++ l = sent i ++ (s.readers i).pending ++ s.left i)
    (hdone : q = .done → l = []) : s'.Ok input (Function.update sent i part) whole := by
  have hwaiting : s'.main = .waiting := hmain.trans (hok.waiting hrunning)
  refine ⟨hinter, fun j => ?_, fun j hj => ?_, ?_, fun hw => absurd hwaiting hw, fun _ => hout,
    fun hret => ?_, hpanicked⟩
  · rw [hok.split j, hreaders, hleft]
    by_cases hji : j = i
    · subst hji
      simp only [Function.update_self, hsplit]
    · simp only [Function.update_of_ne hji]
  · rw [hleft]
    rw [hreaders] at hj
    by_cases hji : j = i
    · subst hji
      rw [Function.update_self] at hj ⊢
      exact hdone hj
    · rw [Function.update_of_ne hji] at hj ⊢
      exact hok.drained j hj
  · have hcount := running_update s.readers i q
    rw [hwg, hok.counted, hreaders]
    omega
  · rw [hwaiting] at hret
    cases hret

theorem Ok.holds (hok : s.Ok input sent values) {i : Input}
    (h : (s.readers i).running = 1) : s.out.Holds values := by
  apply hok.opened
  rw [hok.waiting h]
  exact nofun

theorem Ok.next (hok : s.Ok input sent values) {i : Input}
    (htake : ∀ l, take l = receive l) (h : s.next take i = some s') :
    s'.Ok input sent values := by
  have hself := Function.update_eq_self i sent
  have hinter : Interleaves (Function.update sent i (sent i)) values := by
    rw [hself]
    exact hok.interleaves
  rw [← hself]
  simp only [Merge.next, htake] at h
  split at h
  · rename_i hr
    have hrunning : (s.readers i).running = 1 := by
      rw [hr]
      rfl
    cases hl : s.left i with
    | nil =>
        rw [hl] at h
        obtain rfl := Option.some.inj h
        refine hok.move (l := []) hrunning rfl ?_ ?_ rfl hok.panicked hinter
          (hok.holds hrunning) ?_ (fun _ => rfl)
        · rw [← hl, Function.update_eq_self]
        · simp [ReaderPhase.running]
        · rw [hr, hl]
          rfl
    | cons x rest =>
        rw [hl] at h
        obtain rfl := Option.some.inj h
        refine hok.move hrunning rfl rfl ?_ rfl hok.panicked hinter (hok.holds hrunning) ?_ nofun
        · simp [ReaderPhase.running]
        · rw [hr, hl]
          simp [ReaderPhase.pending]
  · cases h
  · cases h

theorem Ok.send (hok : s.Ok input sent values) {i : Input} (h : s.send i = some s') :
    ∃ sent' values', s'.Ok input sent' values' := by
  simp only [Merge.send] at h
  split at h
  · rename_i x hr
    have hrunning : (s.readers i).running = 1 := by
      rw [hr]
      rfl
    obtain ⟨out, hsend, hholds⟩ := (hok.holds hrunning).send x
    rw [hsend] at h
    obtain rfl := Option.some.inj h
    refine ⟨_, values ++ [x], hok.move hrunning rfl (Function.update_eq_self i s.left).symm ?_ rfl
      hok.panicked (hok.interleaves.snoc i x) hholds ?_ nofun⟩
    · simp [ReaderPhase.running]
    · rw [hr]
      simp [ReaderPhase.pending]
  · cases h
  · cases h

theorem Ok.wait (hok : s.Ok input sent values) (hmain : s.main = .waiting) (h : s.wg = 0) :
    ({ s with main := .closing } : Merge T).Ok input sent values := by
  have hdone (i : Input) : s.readers i = .done := by
    have hcounted := hok.counted
    have ha := (s.readers .a).running_nonneg
    have hb := (s.readers .b).running_nonneg
    apply ReaderPhase.done_of_running
    cases i with
    | a => omega
    | b => omega
  have hholds : s.out.Holds values := by
    apply hok.opened
    rw [hmain]
    exact nofun
  exact ⟨hok.interleaves, hok.split, hok.drained, hok.counted, fun _ => hdone, fun _ => hholds,
    nofun, hok.panicked⟩

theorem Ok.close (hok : s.Ok input sent values) (hmain : s.main = .closing)
    (h : s.close = some s') : s'.Ok input sent values := by
  have hholds : s.out.Holds values := by
    apply hok.opened
    rw [hmain]
    exact nofun
  obtain ⟨out, hclose, hclosed⟩ := hholds.close
  rw [Merge.close, hclose] at h
  obtain rfl := Option.some.inj h
  have hdone := hok.waited (by rw [hmain]; exact nofun)
  exact ⟨hok.interleaves, hok.split, hok.drained, hok.counted, fun _ => hdone,
    fun hret => absurd rfl hret, fun _ => hclosed, hok.panicked⟩

theorem Ok.step (hok : s.Ok input sent values) (htake : ∀ l, take l = receive l)
    {e : MergeEvent} (h : s.step take e = some s') :
    ∃ sent' values', s'.Ok input sent' values' := by
  simp only [Merge.step] at h
  split at h
  · cases h
  · cases e with
    | next i => exact ⟨sent, values, hok.next htake h⟩
    | send i => exact hok.send h
    | wait =>
        obtain ⟨⟨hmain, hwg⟩, hs⟩ := Option.ite_none_right_eq_some.mp h
        obtain rfl := Option.some.inj hs
        exact ⟨sent, values, hok.wait hmain hwg⟩
    | close =>
        obtain ⟨hmain, hs⟩ := Option.ite_none_right_eq_some.mp h
        exact ⟨sent, values, hok.close hmain hs⟩

theorem Ok.merged (hok : s.Ok input sent values) (h : s.main = .returned) :
    Interleaves input values ∧ s.out.ClosedAfter values := by
  have hsent : sent = input := by
    funext i
    have hdone := hok.waited (by rw [h]; exact nofun) i
    rw [hok.split i, hok.drained i hdone, hdone]
    simp [ReaderPhase.pending]
  exact ⟨hsent ▸ hok.interleaves, hok.closed h⟩

end Merge

theorem merging_init_ok (take : List T → Option (T × List T)) (a b : List T) :
    (merging take a b).init.Ok (inputs a b) (fun _ => []) [] where
  interleaves := .nil
  split _ := rfl
  drained _ h := nomatch h
  counted := rfl
  waited h := absurd rfl h
  opened _ := GoChan.make_holds
  closed h := nomatch h
  panicked := rfl

namespace Merge

/-- A goroutine that is not done can make a step. -/
theorem Ok.reader_progress (hok : s.Ok input sent values) {i : Input}
    (h : s.readers i ≠ .done) : ∃ e s', s.step take e = some s' := by
  cases hr : s.readers i with
  | done => exact absurd hr h
  | receiving =>
      refine ⟨.next i, ?_⟩
      simp only [Merge.step, hok.panicked, Bool.false_eq_true, if_false, Merge.next, hr]
      split
      · exact ⟨_, rfl⟩
      · exact ⟨_, rfl⟩
  | sending x =>
      refine ⟨.send i, ?_⟩
      simp only [Merge.step, hok.panicked, Bool.false_eq_true, if_false, Merge.send, hr]
      split
      · exact ⟨_, rfl⟩
      · exact ⟨_, rfl⟩

theorem Ok.progress (hok : s.Ok input sent values) (h : s.main ≠ .returned) :
    ∃ e s', s.step take e = some s' := by
  by_cases hdone : ∀ i, s.readers i = .done
  · cases hmain : s.main with
    | returned => exact absurd hmain h
    | waiting =>
        have hwg : s.wg = 0 := by
          rw [hok.counted, hdone, hdone]
          rfl
        refine ⟨.wait, ?_⟩
        simp [Merge.step, hok.panicked, hmain, hwg]
    | closing =>
        obtain ⟨out, hclose, _⟩ := (hok.opened h).close
        refine ⟨.close, ?_⟩
        simp [Merge.step, hok.panicked, hmain, Merge.close, hclose]
  · obtain ⟨i, hi⟩ := not_forall.mp hdone
    exact hok.reader_progress hi

/-- The steps that a goroutine takes at most. -/
def readerRank (left : List T) : ReaderPhase T → Nat
  | .receiving => 2 * left.length + 1
  | .sending _ => 2 * left.length + 2
  | .done => 2 * left.length

def mainRank : MainPhase → Nat
  | .waiting => 2
  | .closing => 1
  | .returned => 0

def rank (s : Merge T) : Nat :=
  readerRank (s.left .a) (s.readers .a) + readerRank (s.left .b) (s.readers .b) + mainRank s.main

theorem rank_move {i : Input} {q : ReaderPhase T} {l : List T}
    (hreaders : s'.readers = Function.update s.readers i q)
    (hleft : s'.left = Function.update s.left i l) (hmain : s'.main = s.main)
    (h : readerRank l q < readerRank (s.left i) (s.readers i)) : s'.rank < s.rank := by
  simp only [rank, hreaders, hleft, hmain]
  cases i with
  | a =>
      simp only [Function.update_self, Function.update_of_ne (show Input.b ≠ .a by decide)]
      omega
  | b =>
      simp only [Function.update_self, Function.update_of_ne (show Input.a ≠ .b by decide)]
      omega

theorem Ok.rank_step (hok : s.Ok input sent values) (htake : ∀ l, take l = receive l)
    {e : MergeEvent} (h : s.step take e = some s') : s'.rank < s.rank := by
  simp only [Merge.step] at h
  split at h
  · cases h
  · cases e with
    | next i =>
        simp only [Merge.next, htake] at h
        split at h
        · rename_i hr
          cases hl : s.left i with
          | nil =>
              rw [hl] at h
              obtain rfl := Option.some.inj h
              refine rank_move rfl (Function.update_eq_self i s.left).symm rfl ?_
              simp [readerRank, hr]
          | cons x rest =>
              rw [hl] at h
              obtain rfl := Option.some.inj h
              refine rank_move rfl rfl rfl ?_
              simp only [readerRank, hr, hl, List.length_cons]
              omega
        · cases h
        · cases h
    | send i =>
        simp only [Merge.send] at h
        split at h
        · rename_i x hr
          have hrunning : (s.readers i).running = 1 := by
            rw [hr]
            rfl
          obtain ⟨out, hsend, _⟩ := (hok.holds hrunning).send x
          rw [hsend] at h
          obtain rfl := Option.some.inj h
          refine rank_move rfl (Function.update_eq_self i s.left).symm rfl ?_
          simp [readerRank, hr]
        · cases h
        · cases h
    | wait =>
        obtain ⟨⟨hmain, _⟩, hs⟩ := Option.ite_none_right_eq_some.mp h
        obtain rfl := Option.some.inj hs
        simp [rank, mainRank, hmain]
    | close =>
        obtain ⟨hmain, hs⟩ := Option.ite_none_right_eq_some.mp h
        obtain ⟨out, hclose, _⟩ := (hok.opened (by rw [hmain]; exact nofun)).close
        rw [Merge.close, hclose] at hs
        obtain rfl := Option.some.inj hs
        simp [rank, mainRank, hmain]

end Merge

theorem merging_ok (htake : ∀ l, take l = receive l) {a b : List T} {h : List (Merge T)}
    (run : (merging take a b).Run (fun _ _ => True) h) :
    ∀ s ∈ h, ∃ sent values, s.Ok (inputs a b) sent values := by
  refine run.invariant ⟨_, _, merging_init_ok take a b⟩ ?_
  rintro s e t ⟨sent, values, hok⟩ _ hstep
  exact hok.step htake hstep

/-- A run of a machine that merges `a` and `b` panics nowhere, can go on until the caller
returns, and ends. When the caller has returned, `out` has got an interleaving of the inputs
and was closed. -/
structure Lossless (M : Machine (Merge T) MergeEvent) (a b : List T) (h : List (Merge T)) :
    Prop where
  panicked : ∀ s ∈ h, s.panicked = false
  merged : ∀ s ∈ h, s.main = .returned →
    ∃ values, Interleaves (inputs a b) values ∧ s.out.ClosedAfter values
  progress : ∀ s ∈ h, s.main ≠ .returned → ∃ e t, M.step s e = some t
  bounded : h.length ≤ 2 * (a.length + b.length) + 5

theorem merging_run_lossless (htake : ∀ l, take l = receive l) {a b : List T}
    {h : List (Merge T)} (run : (merging take a b).Run (fun _ _ => True) h) :
    Lossless (merging take a b) a b h := by
  have hok := merging_ok htake run
  refine ⟨fun s hs => ?_, fun s hs hret => ?_, fun s hs hmain => ?_, ?_⟩
  · obtain ⟨sent, values, hok⟩ := hok s hs
    exact hok.panicked
  · obtain ⟨sent, values, hok⟩ := hok s hs
    exact ⟨values, hok.merged hret⟩
  · obtain ⟨sent, values, hok⟩ := hok s hs
    exact hok.progress hmain
  · have hbound := run.length_le Merge.rank
      (I := fun s => ∃ sent values, s.Ok (inputs a b) sent values)
      ⟨_, _, merging_init_ok take a b⟩ ?_ ?_
    · simp only [merging, Merge.rank, inputs, Merge.readerRank, Merge.mainRank] at hbound
      omega
    · rintro s e t ⟨sent, values, hok⟩ _ hstep
      exact hok.step htake hstep
    · rintro s e t ⟨sent, values, hok⟩ _ hstep
      exact hok.rank_step htake hstep

theorem fetchNext_eq_receive (fetcher : List String) : fetchNext fetcher = receive fetcher := by
  cases fetcher with
  | nil => rfl
  | cons data rest => rfl

end MergeLab
