import DistributedLabs.Lab1.Trending
import DistributedLabs.Library.GoInt

/-!
When the loop refetches the trending videos. The video service announces the unix time at
which its answer expires. The loop adds that to the time at which it stores the answer, as
if it were a duration, and waits until the clock has passed the sum.
-/

namespace VideoLab

/-- The part of the video service behind `GetTrendingVideos`. -/
structure TrendingServer where
  topVideos : List UInt64
  ttlSeconds : Int64
  ttl_nonneg : 0 ≤ ttlSeconds.toInt

def TrendingServer.getTrendingVideos (db : TrendingServer) (shouldError : Bool) (now : Int64) :
    Except Status GetTrendingVideosResponse :=
  if shouldError then .error VideoServiceServer.injected
  else .ok ⟨db.topVideos, (now + db.ttlSeconds).toUInt64⟩

/-- The answer for the trending ids is that of the service, which may inject a failure. -/
def Pass.AnsweredBy (db : TrendingServer) (pass : Pass) : Prop :=
  ∃ shouldError, pass.getTrendingVideos = db.getTrendingVideos shouldError pass.answered

namespace Refresher

variable (s : Refresher)

/-- No refresh has succeeded yet, or the last answer has expired. -/
def Due (now : Int64) : Prop :=
  s.complete = none ∨ ∃ a ∈ s.announced, (a.expirationTimeS.toNat : Int) < now.toInt

/-- A check after the timeout, or before the announced expiration if a refresh has
succeeded. If the timeout is too large for an `int64` it wraps around and has passed at
once. -/
def Timely (now : Int64) : Prop :=
  match s.announced with
  | none => 0 < now.toInt
  | some a =>
      if a.stored.toInt + a.expirationTimeS.toNat < 2 ^ 63 then
        s.complete ≠ none ∧ now.toInt ≤ a.expirationTimeS.toNat ∨
          a.stored.toInt + a.expirationTimeS.toNat < now.toInt
      else s.complete = none ∨ (a.expirationTimeS.toNat : Int) < now.toInt

end Refresher

/-- The announced expiration is that of the answer, and it has gone into the timeout. -/
structure Announcement.Ok (a : Announcement) (db : TrendingServer) (s : Refresher) : Prop where
  timeout : s.server.trendingVids.timeout = a.stored + a.expirationTimeS.toInt64
  expiration : (a.expirationTimeS.toNat : Int) = a.answered.toInt + db.ttlSeconds.toInt
  stored_nonneg : 0 ≤ a.stored.toInt
  stored_le : a.stored.toInt ≤ s.wakes

/-- The timeout wraps around if it is too large. -/
theorem Announcement.Ok.timeout_toInt {a : Announcement} {db : TrendingServer} {s : Refresher}
    (ha : a.Ok db s) :
    s.server.trendingVids.timeout.toInt =
      if a.stored.toInt + a.expirationTimeS.toNat < 2 ^ 63 then
        a.stored.toInt + a.expirationTimeS.toNat
      else a.stored.toInt + a.expirationTimeS.toNat - 2 ^ 64 := by
  have hstored := ha.stored_nonneg
  have hlt := a.stored.toInt_lt
  have hexpiration := a.expirationTimeS.toNat_lt
  rw [ha.timeout, GoInt.toInt_add_toInt64, GoInt.bmod_eq_ite (by omega) (by omega)]

structure Refresher.Ok (db : TrendingServer) (s : Refresher) : Prop where
  wakes_nonneg : 0 ≤ s.wakes
  unannounced : s.announced = none → s.server.trendingVids.timeout = 0 ∧ s.complete = none
  announced : ∀ a ∈ s.announced, a.Ok db s

namespace Refresher

variable {db : TrendingServer} {s t : Refresher} {pass : Pass}

theorem InOrder.wakes_le_ended (h : s.InOrder pass) : s.wakes ≤ (s.ended pass).toInt := by
  obtain ⟨hchecked, hanswered, hstored⟩ := h
  unfold ended
  split
  · cases pass.getTrendingVideos with
    | error err => exact hchecked.trans hanswered
    | ok trendingResp => exact hchecked.trans (hanswered.trans hstored)
  · exact hchecked

theorem expiration_of_answeredBy {trendingResp : GetTrendingVideosResponse}
    (hby : pass.AnsweredBy db) (hget : pass.getTrendingVideos = .ok trendingResp)
    (hanswered : 0 ≤ pass.answered.toInt) :
    (trendingResp.expirationTimeS.toNat : Int) =
      pass.answered.toInt + db.ttlSeconds.toInt := by
  obtain ⟨shouldError, hby⟩ := hby
  rw [hby] at hget
  cases shouldError with
  | true => cases hget
  | false =>
      cases hget
      exact GoInt.toNat_toUInt64_add hanswered db.ttl_nonneg

theorem exists_step (h : s.InOrder pass) : ∃ t, s.step pass = some t := ⟨_, if_pos h⟩

theorem Ok.step (hok : Ok db s) (hby : pass.AnsweredBy db) (ht : s.step pass = some t) :
    Ok db t := by
  obtain ⟨horder, hstep⟩ := step_cases ht
  have hwakes := hok.wakes_nonneg
  cases hstep with
  | idle h =>
      have hlater : s.wakes ≤ (s.ended pass).toInt + 10 :=
        horder.wakes_le_ended.trans (Int.le_add_of_nonneg_right (by decide))
      refine ⟨hwakes.trans hlater, hok.unannounced, fun a ha => ?_⟩
      obtain ⟨htimeout, hexpiration, hnonneg, hle⟩ := hok.announced a ha
      exact ⟨htimeout, hexpiration, hnonneg, hle.trans hlater⟩
  | store hdue hget =>
      obtain ⟨hchecked, hanswered, hstored⟩ := horder
      have hnonneg : 0 ≤ pass.stored.toInt := by omega
      have hle : pass.stored.toInt ≤ pass.stored.toInt + 10 := by omega
      refine ⟨hnonneg.trans hle, fun h => (Option.some_ne_none _ h).elim, fun a ha => ?_⟩
      obtain rfl := Option.some.inj ha
      exact ⟨rfl, expiration_of_answeredBy hby hget (by omega), hnonneg, hle⟩

theorem refetches_iff : s.server.refetches pass = true ↔
    s.server.trendingVids.timeout.toInt < pass.checked.toInt := by
  rw [VideoRecServiceServer.refetches, decide_eq_true_iff, gt_iff_lt, Int64.lt_iff_toInt_lt]

theorem Ok.refetches_iff_timely (hok : Ok db s) (ht : s.step pass = some t) :
    (s.server.refetches pass = true ↔ s.Due pass.checked) ↔ s.Timely pass.checked := by
  obtain ⟨hchecked, _, _⟩ := (step_cases ht).1
  rw [refetches_iff]
  unfold Due Timely
  cases hannounced : s.announced with
  | none =>
      obtain ⟨htimeout, hcomplete⟩ := hok.unannounced hannounced
      rw [htimeout, hcomplete]
      simp
  | some a =>
      have ha := hok.announced a hannounced
      have hnonneg := ha.stored_nonneg
      have hstored := ha.stored_le
      have hexpiration := a.expirationTimeS.toNat_lt
      rw [ha.timeout_toInt]
      simp only [Option.mem_def, Option.some.injEq, exists_eq_left']
      split
      · by_cases hcomplete : s.complete = none
        · simp [hcomplete]
        · simp only [hcomplete, false_or, ne_eq, not_false_eq_true, true_and]
          omega
      · -- the sum has wrapped around, so the pass refetches whatever is due
        have hpast : a.stored.toInt + a.expirationTimeS.toNat - 2 ^ 64 < pass.checked.toInt := by
          omega
        exact iff_true_left hpast

end Refresher

theorem refresher_ok {options : VideoRecServiceOptions} {db : TrendingServer} {start : Nat}
    {h : List Refresher}
    (run : (refresher options start).Run (fun _ pass => pass.AnsweredBy db) h) :
    ∀ s ∈ h, s.Ok db := by
  refine run.invariant (I := Refresher.Ok db) ?_ ?_
  · exact ⟨Int.natCast_nonneg start, fun _ => ⟨rfl, rfl⟩,
      fun a ha => absurd ha (Option.not_mem_none a)⟩
  · exact fun s pass t hok hby ht => hok.step hby ht

/-- The announced expiration is the time of the answer plus the time to live, and a pass
refetches exactly when that is due if and only if it is timely. -/
theorem refetches_when_due_iff {options : VideoRecServiceOptions} {db : TrendingServer}
    {start : Nat} {h : List Refresher}
    (run : (refresher options start).Run (fun _ pass => pass.AnsweredBy db) h) :
    ∀ s ∈ h,
      (∀ a ∈ s.announced,
        (a.expirationTimeS.toNat : Int) = a.answered.toInt + db.ttlSeconds.toInt) ∧
      ∀ pass t, s.step pass = some t →
        ((s.server.refetches pass = true ↔ s.Due pass.checked) ↔ s.Timely pass.checked) := by
  intro s hs
  have hok := refresher_ok run s hs
  exact ⟨fun a ha => (hok.announced a ha).expiration,
    fun pass t ht => hok.refetches_iff_timely ht⟩

/-- Answers are good for a minute. -/
def minuteTrends : TrendingServer := ⟨[7, 8], 60, by decide⟩

/-- The loop starts in November 2023 and gets its ids at once. -/
theorem first_refresh_run {failing : List Nat} {t : Refresher}
    (ht : (refresher oneByOne 1700000000).step (refresher oneByOne 1700000000).init
      (sampleRefresh 1700000000 failing) = some t) :
    (refresher oneByOne 1700000000).Run (fun _ pass => pass.AnsweredBy minuteTrends)
      [t, (refresher oneByOne 1700000000).init] :=
  .next .start (Machine.next_cons _ |>.mpr ⟨_, ⟨false, rfl⟩, ht⟩)

theorem exists_first_refresh :
    ∃ h, (refresher oneByOne 1700000000).Run (fun _ pass => pass.AnsweredBy minuteTrends) h ∧
      ∃ s ∈ h, s.announced = some ⟨1700000060, 1700000000, 1700000000⟩ ∧
        s.completeIds = some [7, 8] ∧
        s.server.trendingVids.timeout = 3400000060 ∧ s.wakes = 1700000010 := by
  obtain ⟨t, ht, hend⟩ : ∃ t,
      (refresher oneByOne 1700000000).step (refresher oneByOne 1700000000).init
        (sampleRefresh 1700000000 []) = some t ∧
      t.announced = some ⟨1700000060, 1700000000, 1700000000⟩ ∧
        t.completeIds = some [7, 8] ∧
        t.server.trendingVids.timeout = 3400000060 ∧ t.wakes = 1700000010 := by
    decide +kernel
  exact ⟨_, first_refresh_run ht, t, List.mem_cons_self, hend⟩

/-- The call for video 8 fails. -/
theorem exists_failed_refresh :
    ∃ h, (refresher oneByOne 1700000000).Run (fun _ pass => pass.AnsweredBy minuteTrends) h ∧
      ∃ s ∈ h, s.completeIds = none ∧ s.server.trendingVids.timeout = 3400000060 ∧
        s.wakes = 1700000010 := by
  obtain ⟨t, ht, hend⟩ : ∃ t,
      (refresher oneByOne 1700000000).step (refresher oneByOne 1700000000).init
        (sampleRefresh 1700000000 [1]) = some t ∧
      t.completeIds = none ∧ t.server.trendingVids.timeout = 3400000060 ∧
        t.wakes = 1700000010 := by
    decide +kernel
  exact ⟨_, first_refresh_run ht, t, List.mem_cons_self, hend⟩

/-- The next pass after ten seconds: the answer is still good, and the pass does not
refetch. -/
theorem refetches_when_due_iff_fresh :
    ∃ h, (refresher oneByOne 1700000000).Run (fun _ pass => pass.AnsweredBy minuteTrends) h ∧
      ∃ s ∈ h, ∃ t, s.step (sampleRefresh 1700000010 []) = some t ∧
        s.Timely 1700000010 ∧
        (s.server.refetches (sampleRefresh 1700000010 []) = true ↔ s.Due 1700000010) := by
  obtain ⟨h, run, s, hs, hannounced, hcomplete, htimeout, hwakes⟩ := exists_first_refresh
  obtain ⟨t, ht⟩ : ∃ t, s.step (sampleRefresh 1700000010 []) = some t := by
    apply Refresher.exists_step
    rw [Refresher.InOrder, hwakes]
    decide
  have hsome : s.complete ≠ none := by
    intro hnone
    rw [Refresher.completeIds, hnone] at hcomplete
    cases hcomplete
  have htimely : s.Timely 1700000010 := by
    rw [Refresher.Timely, hannounced]
    exact Or.inl ⟨hsome, by decide⟩
  exact ⟨h, run, s, hs, t, ht, htimely,
    ((refetches_when_due_iff run s hs).2 _ t ht).mpr htimely⟩

/-- A pass one minute later: the answer has expired, and the pass does not refetch. A pass
ten seconds after a first refresh one of whose calls failed does not refetch either. -/
theorem expired_not_refetched :
    (∃ h, (refresher oneByOne 1700000000).Run (fun _ pass => pass.AnsweredBy minuteTrends) h ∧
      ∃ s ∈ h, ∃ t, s.step (sampleRefresh 1700000070 []) = some t ∧
        s.Due 1700000070 ∧ s.server.refetches (sampleRefresh 1700000070 []) = false) ∧
    ∃ h, (refresher oneByOne 1700000000).Run (fun _ pass => pass.AnsweredBy minuteTrends) h ∧
      ∃ s ∈ h, ∃ t, s.step (sampleRefresh 1700000010 []) = some t ∧
        s.Due 1700000010 ∧ s.server.refetches (sampleRefresh 1700000010 []) = false := by
  constructor
  · obtain ⟨h, run, s, hs, hannounced, _, htimeout, hwakes⟩ := exists_first_refresh
    obtain ⟨t, ht⟩ : ∃ t, s.step (sampleRefresh 1700000070 []) = some t := by
      apply Refresher.exists_step
      rw [Refresher.InOrder, hwakes]
      decide
    refine ⟨h, run, s, hs, t, ht, Or.inr ⟨_, hannounced, by decide⟩, ?_⟩
    rw [VideoRecServiceServer.refetches, htimeout]
    decide
  · obtain ⟨h, run, s, hs, hincomplete, htimeout, hwakes⟩ := exists_failed_refresh
    obtain ⟨t, ht⟩ : ∃ t, s.step (sampleRefresh 1700000010 []) = some t := by
      apply Refresher.exists_step
      rw [Refresher.InOrder, hwakes]
      decide
    refine ⟨h, run, s, hs, t, ht, Or.inl (Option.map_eq_none_iff.mp hincomplete), ?_⟩
    rw [VideoRecServiceServer.refetches, htimeout]
    decide

end VideoLab
