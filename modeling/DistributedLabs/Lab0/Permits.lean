import DistributedLabs.Lab0.Semaphore

/-!
The permits of the semaphore. A `Post` whose increment leaves the counter positive
pays for a `Wait` that takes the counter; one that leaves it at most zero owes a
signal to a `Wait` that blocks. The signal is offered in a second step, which looks
neither at the counter nor at that debt, so it can pay twice or be dropped.
-/

namespace SemaphoreLab

open Phases (countP_move countP_keep countP_gain countP_sum)

namespace PostPhase

def counted : PostPhase → Bool
  | .started => false
  | .incremented _ | .returned _ => true

def hasReturned : PostPhase → Bool
  | .returned _ => true
  | _ => false

/-- The increment left a permit in the counter. -/
def surplus : PostPhase → Bool
  | .started => false
  | .incremented r | .returned r => 0 < r

/-- The increment met a `Wait` that had gone below zero. -/
def deficit : PostPhase → Bool
  | .started => false
  | .incremented r | .returned r => r ≤ 0

/-- Such a call has offered its signal. -/
def paid (post : PostPhase) : Bool := post.deficit && post.hasReturned

theorem counted_toNat (post : PostPhase) :
    post.counted.toNat = post.surplus.toNat + post.deficit.toNat := by
  cases post with
  | started => rfl
  | incremented r | returned r =>
      by_cases hr : 0 < r
      · simp [counted, surplus, deficit, hr, Int.not_le.mpr hr]
      · simp [counted, surplus, deficit, hr, Int.not_lt.mp hr]

theorem counted_of_hasReturned {post : PostPhase} (h : post.hasReturned = true) :
    post.counted = true := by
  cases post with
  | started | incremented r => cases h
  | returned r => rfl

theorem paid_returned (r : Int) : paid (.returned r) = decide (r ≤ 0) := by
  simp [paid, deficit, hasReturned]

end PostPhase

namespace WaitPhase

def fromCounter : WaitPhase → Bool
  | .acquired => true
  | _ => false

def fromChannel : WaitPhase → Bool
  | .signalled => true
  | _ => false

def returnedNil : WaitPhase → Bool
  | .acquired | .signalled => true
  | _ => false

/-- The decrement went below zero and no signal has come yet. -/
def blocked : WaitPhase → Bool
  | .decremented | .selecting => true
  | _ => false

/-- The decrement is done and stands. -/
def drew (w : WaitPhase) : Bool := w.blocked || w.returnedNil

theorem drew_toNat (w : WaitPhase) :
    w.drew.toNat = w.blocked.toNat + w.returnedNil.toNat := by
  cases w <;> rfl

theorem returnedNil_toNat (w : WaitPhase) :
    w.returnedNil.toNat = w.fromCounter.toNat + w.fromChannel.toNat := by
  cases w <;> rfl

end WaitPhase

namespace Semaphore

/-- The counter, while it is positive, is what the surplus has left to take. -/
structure Tally (s : Semaphore) : Prop where
  low : -2 ^ 63 ≤ s.v
  high : s.v < 2 ^ 63
  surplus : (s.posts.countP PostPhase.surplus : Int) =
    max s.v 0 + s.waits.countP WaitPhase.fromCounter

/-- The counter is the difference of the increments and of the decrements. -/
def Balanced (s : Semaphore) : Prop :=
  s.v + (s.waits.countP WaitPhase.drew : Int) = s.posts.countP PostPhase.counted

end Semaphore

/-- The counter stays within its 64 bits. -/
def NoWrap (s : Semaphore) : Event → Prop
  | .increment _ => s.v < 2 ^ 63 - 1
  | .decrement _ => -2 ^ 63 < s.v
  | _ => True

instance (s : Semaphore) (e : Event) : Decidable (NoWrap s e) :=
  match e with
  | .increment _ | .decrement _ => inferInstanceAs (Decidable (_ < _))
  | .post | .send _ _ | .default _ | .wait | .select _ | .done _ => isTrue trivial

/-- No `Post` whose increment left the counter positive hands its signal to a `Wait`. -/
def HandoffSafe (s : Semaphore) : Event → Prop
  | .send p _ => ∀ post ∈ s.posts[p]?, post.surplus = false
  | _ => True

instance (s : Semaphore) (e : Event) : Decidable (HandoffSafe s e) :=
  match e with
  | .send p _ => Option.decidableForallMem s.posts[p]?
  | .increment _ | .decrement _ | .post | .default _ | .wait | .select _ | .done _ =>
      isTrue trivial

/-- When a `Post` whose increment left the counter at most zero offers its signal, some
`Wait` is inside its select. -/
def WakeSafe (s : Semaphore) : Event → Prop
  | .default p => ∀ post ∈ s.posts[p]?, post.surplus = true ∨ .selecting ∈ s.waits
  | _ => True

instance (s : Semaphore) (e : Event) : Decidable (WakeSafe s e) :=
  match e with
  | .default p => Option.decidableForallMem s.posts[p]?
  | .increment _ | .decrement _ | .post | .send _ _ | .wait | .select _ | .done _ =>
      isTrue trivial

/-- No context is cancelled. -/
def NeverDone : Event → Prop
  | .done _ => False
  | _ => True

instance (e : Event) : Decidable (NeverDone e) :=
  match e with
  | .done _ => isFalse id
  | .increment _ | .decrement _ | .post | .send _ _ | .default _ | .wait | .select _ =>
      isTrue trivial

theorem tally_init : newSemaphore.Tally := by
  constructor <;> decide

section Steps

variable {s t : Semaphore} {e : Event}

theorem tally_step (h : s.Tally) (hn : NoWrap s e) (hs : s.Step e t) : t.Tally := by
  obtain ⟨low, high, hsur⟩ := h
  cases hs with
  | post | wait =>
      refine ⟨low, high, ?_⟩
      simpa [PostPhase.surplus, WaitPhase.fromCounter] using hsur
  | increment hp =>
      simp only [NoWrap] at hn
      rw [add_one low hn]
      refine ⟨by dsimp only; omega, by dsimp only; omega, ?_⟩
      by_cases hr : 0 < s.v + 1
      · have hgain := countP_gain PostPhase.surplus (.incremented (s.v + 1)) hp rfl
          (decide_eq_true hr)
        simp only [hgain]
        omega
      · have hkeep := countP_keep PostPhase.surplus (.incremented (s.v + 1)) hp
          (decide_eq_false hr).symm
        simp only [hkeep]
        omega
  | @send p w r hp hw =>
      have hpost := countP_keep PostPhase.surplus (.returned r) hp rfl
      have hwait := countP_keep WaitPhase.fromCounter .signalled hw rfl
      exact ⟨low, high, by simpa only [hpost, hwait] using hsur⟩
  | @default p r hp _ =>
      have hpost := countP_keep PostPhase.surplus (.returned r) hp rfl
      exact ⟨low, high, by simpa only [hpost] using hsur⟩
  | block hw hv =>
      simp only [NoWrap] at hn
      rw [add_neg_one high hn] at hv ⊢
      refine ⟨by dsimp only; omega, by dsimp only; omega, ?_⟩
      simp only [countP_keep WaitPhase.fromCounter .decremented hw rfl]
      omega
  | acquire hw hv =>
      simp only [NoWrap] at hn
      rw [add_neg_one high hn] at hv ⊢
      refine ⟨by dsimp only; omega, by dsimp only; omega, ?_⟩
      simp only [countP_gain WaitPhase.fromCounter .acquired hw rfl rfl]
      omega
  | select hw =>
      have hwait := countP_keep WaitPhase.fromCounter .selecting hw rfl
      exact ⟨low, high, by simpa only [hwait] using hsur⟩
  | done hw =>
      have hwait := countP_keep WaitPhase.fromCounter .cancelled hw rfl
      exact ⟨low, high, by simpa only [hwait] using hsur⟩

/-- What a step does to the signals: a `Post` that ends pays if its increment met a `Wait`,
and a `Wait` that it wakes comes through the channel. No other step changes the two counts. -/
theorem signals_cases (hs : s.Step e t) :
    (t.posts.countP PostPhase.paid = s.posts.countP PostPhase.paid ∧
        t.waits.countP WaitPhase.fromChannel = s.waits.countP WaitPhase.fromChannel) ∨
      ∃ p r, s.posts[p]? = some (.incremented r) ∧
        t.posts.countP PostPhase.paid =
          s.posts.countP PostPhase.paid + (PostPhase.paid (.returned r)).toNat ∧
        ((∃ w, e = .send p w ∧ t.waits.countP WaitPhase.fromChannel =
            s.waits.countP WaitPhase.fromChannel + 1) ∨
          (e = .default p ∧ .selecting ∉ s.waits ∧ t.waits.countP WaitPhase.fromChannel =
            s.waits.countP WaitPhase.fromChannel)) := by
  have hends : ∀ {p : Nat} {r : Int}, s.posts[p]? = some (.incremented r) →
      (s.posts.set p (.returned r)).countP PostPhase.paid =
        s.posts.countP PostPhase.paid + (PostPhase.paid (.returned r)).toNat := by
    intro p r hp
    have hmove := countP_move PostPhase.paid (.returned r) hp
    have hbefore : PostPhase.paid (.incremented r) = false := Bool.and_false _
    rwa [hbefore] at hmove
  cases hs with
  | post | wait => simp [PostPhase.paid, PostPhase.deficit, WaitPhase.fromChannel]
  | increment hp =>
      have hkeep := countP_keep PostPhase.paid (.incremented (add s.v 1)) hp
        (by simp [PostPhase.paid, PostPhase.hasReturned])
      exact Or.inl ⟨hkeep, rfl⟩
  | @send p w r hp hw =>
      have hgain := countP_gain WaitPhase.fromChannel .signalled hw rfl rfl
      exact Or.inr ⟨p, r, hp, hends hp, Or.inl ⟨w, rfl, hgain⟩⟩
  | @default p r hp hno => exact Or.inr ⟨p, r, hp, hends hp, Or.inr ⟨rfl, hno, rfl⟩⟩
  | block hw _ => exact Or.inl ⟨rfl, countP_keep WaitPhase.fromChannel .decremented hw rfl⟩
  | acquire hw _ => exact Or.inl ⟨rfl, countP_keep WaitPhase.fromChannel .acquired hw rfl⟩
  | select hw => exact Or.inl ⟨rfl, countP_keep WaitPhase.fromChannel .selecting hw rfl⟩
  | done hw => exact Or.inl ⟨rfl, countP_keep WaitPhase.fromChannel .cancelled hw rfl⟩

/-- Only a signal wakes a `Wait` through the channel, and each signal is one `Post`. -/
theorem signalled_le_step (h : s.waits.countP WaitPhase.fromChannel ≤
    s.posts.countP PostPhase.paid) (hn : HandoffSafe s e) (hs : s.Step e t) :
    t.waits.countP WaitPhase.fromChannel ≤ t.posts.countP PostPhase.paid := by
  rcases signals_cases hs with
    ⟨hposts, hwaits⟩ | ⟨p, r, hp, hposts, ⟨w, rfl, hwaits⟩ | ⟨rfl, _, hwaits⟩⟩
  · omega
  · have hr := hn _ hp
    have hpaid : PostPhase.paid (.returned r) = true := by
      simpa [PostPhase.paid_returned, PostPhase.surplus] using hr
    rw [hpaid, Bool.toNat_true] at hposts
    omega
  · omega

/-- A signal that a blocked `Wait` is owed is never dropped. -/
theorem paid_le_step (h : s.posts.countP PostPhase.paid ≤
    s.waits.countP WaitPhase.fromChannel) (hn : WakeSafe s e) (hs : s.Step e t) :
    t.posts.countP PostPhase.paid ≤ t.waits.countP WaitPhase.fromChannel := by
  rcases signals_cases hs with
    ⟨hposts, hwaits⟩ | ⟨p, r, hp, hposts, ⟨w, rfl, hwaits⟩ | ⟨rfl, hno, hwaits⟩⟩
  · omega
  · have hone := Bool.toNat_le (PostPhase.paid (.returned r))
    omega
  · have hr := (hn _ hp).resolve_right hno
    have hpaid : PostPhase.paid (.returned r) = false := by
      simpa [PostPhase.paid_returned, PostPhase.surplus] using hr
    rw [hpaid, Bool.toNat_false] at hposts
    omega

theorem balance_step (h : s.Tally) (hb : s.Balanced) (hn : NoWrap s e) (hd : NeverDone e)
    (hs : s.Step e t) : t.Balanced := by
  simp only [Semaphore.Balanced] at hb ⊢
  cases hs with
  | post => simpa [PostPhase.counted] using hb
  | wait => simpa [WaitPhase.drew, WaitPhase.blocked, WaitPhase.returnedNil] using hb
  | increment hp =>
      have hpost := countP_gain PostPhase.counted (.incremented (s.v + 1)) hp rfl rfl
      simp only [add_one h.low hn, hpost]
      omega
  | @send p w r hp hw =>
      have hpost := countP_keep PostPhase.counted (.returned r) hp rfl
      have hwait := countP_keep WaitPhase.drew .signalled hw rfl
      simpa only [hpost, hwait] using hb
  | @default p r hp _ =>
      simpa only [countP_keep PostPhase.counted (.returned r) hp rfl] using hb
  | block hw _ =>
      simp only [countP_gain WaitPhase.drew .decremented hw rfl rfl, add_neg_one h.high hn]
      omega
  | acquire hw _ =>
      simp only [countP_gain WaitPhase.drew .acquired hw rfl rfl, add_neg_one h.high hn]
      omega
  | select hw =>
      simpa only [countP_keep WaitPhase.drew .selecting hw rfl] using hb
  | done _ => exact hd.elim

end Steps

theorem paid_le_deficit (posts : List PostPhase) :
    posts.countP PostPhase.paid ≤ posts.countP PostPhase.deficit :=
  List.countP_mono_left fun _ _ h => (Bool.and_eq_true_iff.mp h).1

/-- The `Wait`s that returned nil, by what woke them, against the `Post`s, by what
their increment met. -/
theorem nil_le_counted {s : Semaphore} (h : s.Tally)
    (hs : s.waits.countP WaitPhase.fromChannel ≤ s.posts.countP PostPhase.paid) :
    s.waits.countP WaitPhase.returnedNil ≤ s.posts.countP PostPhase.counted := by
  have hnil := countP_sum WaitPhase.returnedNil_toNat s.waits
  have hcounted := countP_sum PostPhase.counted_toNat s.posts
  have hpaid := paid_le_deficit s.posts
  have hsur := h.surplus
  omega

/-- In a run in which no `Post` that left the counter positive wakes a blocked `Wait`,
no more `Wait`s return nil than `Post`s have incremented the counter. -/
theorem issued_le_posted {h : List Semaphore}
    (run : machine.Run (fun s e => NoWrap s e ∧ HandoffSafe s e) h) :
    ∀ s ∈ h, s.waits.countP WaitPhase.returnedNil ≤ s.posts.countP PostPhase.counted := by
  have inv := run.invariant (I := fun s => s.Tally ∧
    s.waits.countP WaitPhase.fromChannel ≤ s.posts.countP PostPhase.paid)
    ⟨tally_init, Nat.le_refl 0⟩ ?_
  · intro s hs
    exact nil_le_counted (inv s hs).1 (inv s hs).2
  · intro s e t ⟨htally, hpaid⟩ ⟨hn, he⟩ ht
    have hstep := Semaphore.step_cases ht
    exact ⟨tally_step htally hn hstep, signalled_le_step hpaid he hstep⟩

/-- A `Wait` that blocked first is woken by the one `Post`. -/
theorem issued_le_posted_handoff : ∃ h,
    machine.Run (fun s e => NoWrap s e ∧ HandoffSafe s e) h ∧
    ∃ s ∈ h, s.waits = [.signalled] ∧ s.posts = [.returned 0] ∧
      s.waits.countP WaitPhase.returnedNil ≤ s.posts.countP PostPhase.counted := by
  obtain ⟨h, run, s, hs, hw, hp⟩ :=
    machine.exists_run_of_replay (fun s e => NoWrap s e ∧ HandoffSafe s e)
      [.wait, .decrement 0, .select 0, .post, .increment 0, .send 0 0]
      (fun h => ∃ s ∈ h, s.waits = [.signalled] ∧ s.posts = [.returned 0])
      (by decide +kernel)
  exact ⟨h, run, s, hs, hw, hp, issued_le_posted run s hs⟩

/-- One `Post` pays twice: between its increment and its send one `Wait` takes the
counter and another one blocks, and the send wakes the second. -/
theorem one_post_two_waits : ∃ h, machine.Run (fun _ _ => True) h ∧
    ∃ s ∈ h, s.posts.countP PostPhase.counted < s.waits.countP WaitPhase.returnedNil :=
  machine.exists_run_of_replay (fun _ _ => True)
    [.post, .increment 0, .wait, .decrement 0, .wait, .decrement 1, .select 1, .send 0 1]
    (fun h => ∃ s ∈ h,
      s.posts.countP PostPhase.counted < s.waits.countP WaitPhase.returnedNil)
    (by decide +kernel)

/-- Every started `Post` has returned, some `Wait` is blocked on the channel, and there
are more `Post`s than `Wait`s that returned nil. -/
def Semaphore.LostWakeup (s : Semaphore) : Prop :=
  (∀ post ∈ s.posts, post.hasReturned = true) ∧ .selecting ∈ s.waits ∧
    s.waits.countP WaitPhase.returnedNil < s.posts.length

instance (s : Semaphore) : Decidable s.LostWakeup :=
  inferInstanceAs (Decidable (_ ∧ _))

theorem not_lostWakeup {s : Semaphore} (h : s.Tally)
    (hs : s.posts.countP PostPhase.paid ≤ s.waits.countP WaitPhase.fromChannel)
    (hb : s.Balanced) : ¬ s.LostWakeup := by
  rintro ⟨hall, hsel, hlt⟩
  have hlen : s.posts.countP PostPhase.counted = s.posts.length :=
    List.countP_eq_length.mpr fun post hp => PostPhase.counted_of_hasReturned (hall post hp)
  have hpaid : s.posts.countP PostPhase.paid = s.posts.countP PostPhase.deficit :=
    List.countP_congr fun post hp => by simp [PostPhase.paid, hall post hp]
  have hblocked : 0 < s.waits.countP WaitPhase.blocked :=
    List.countP_pos_iff.mpr ⟨_, hsel, rfl⟩
  have hdrew := countP_sum WaitPhase.drew_toNat s.waits
  have hnil := countP_sum WaitPhase.returnedNil_toNat s.waits
  have hcounted := countP_sum PostPhase.counted_toNat s.posts
  have hsur := h.surplus
  simp only [Semaphore.Balanced] at hb
  omega

/-- In a run without cancellation in which every signal owed to a blocked `Wait` finds
one inside its select, no wakeup is lost. -/
theorem no_lost_wakeup {h : List Semaphore}
    (run : machine.Run (fun s e => NeverDone e ∧ NoWrap s e ∧ WakeSafe s e) h) :
    ∀ s ∈ h, ¬ s.LostWakeup := by
  have inv := run.invariant (I := fun s => s.Tally ∧
    s.posts.countP PostPhase.paid ≤ s.waits.countP WaitPhase.fromChannel ∧
    s.Balanced) ⟨tally_init, Nat.le_refl 0, rfl⟩ ?_
  · intro s hs
    obtain ⟨htally, hpaid, hbal⟩ := inv s hs
    exact not_lostWakeup htally hpaid hbal
  · intro s e t ⟨htally, hpaid, hbal⟩ ⟨hd, hn, he⟩ ht
    have hstep := Semaphore.step_cases ht
    exact ⟨tally_step htally hn hstep, paid_le_step hpaid he hstep,
      balance_step htally hbal hn hd hstep⟩

/-- Two `Wait`s block and one `Post` wakes one of them. -/
theorem no_lost_wakeup_one_of_two : ∃ h,
    machine.Run (fun s e => NeverDone e ∧ NoWrap s e ∧ WakeSafe s e) h ∧
    ∃ s ∈ h, s.waits = [.selecting, .signalled] ∧ s.posts = [.returned (-1)] ∧
      ¬ s.LostWakeup := by
  obtain ⟨h, run, s, hs, hw, hp⟩ :=
    machine.exists_run_of_replay (fun s e => NeverDone e ∧ NoWrap s e ∧ WakeSafe s e)
      [.wait, .wait, .decrement 0, .select 0, .decrement 1, .select 1, .post, .increment 0,
        .send 0 1]
      (fun h => ∃ s ∈ h, s.waits = [.selecting, .signalled] ∧ s.posts = [.returned (-1)])
      (by decide +kernel)
  exact ⟨h, run, s, hs, hw, hp, no_lost_wakeup run s hs⟩

/-- The `Post` runs between the decrement and the select of the only `Wait`: its signal
finds no receiver and is dropped, and the `Wait` then blocks. -/
theorem signal_dropped : ∃ h, machine.Run (fun _ e => NeverDone e) h ∧
    ∃ s ∈ h, s.LostWakeup :=
  machine.exists_run_of_replay (fun _ e => NeverDone e)
    [.wait, .decrement 0, .post, .increment 0, .default 0, .select 0]
    (fun h => ∃ s ∈ h, s.LostWakeup) (by decide +kernel)

end SemaphoreLab
