import DistributedLabs.Lab1.Recommendations
import DistributedLabs.Library.GoInt
import DistributedLabs.Library.History
import Mathlib.Data.List.TakeWhile

/-!
The cache of trending videos, which the fallback serves. `refreshTrendingVideos` asks the
video service for the trending ids and, in batches, for their infos, and stores what it has
got. A failed call for infos ends the loop over the batches but not the refresh.
-/

namespace VideoLab

structure GetTrendingVideosResponse where
  videos : List UInt64
  expirationTimeS : UInt64
  deriving DecidableEq

/-- What one pass of the loop finds: the answer for the trending ids, what the video service
returns for the `n`-th call after it, and the unix times at which the pass looks at the
timeout, gets the answer and stores the result. -/
structure Pass where
  checked : Int64
  getTrendingVideos : Except Status GetTrendingVideosResponse
  answered : Int64
  getVideo : Nat → List UInt64 → Except Status (List VideoInfo)
  stored : Int64

/-- What the video service returns for each batch; a call that fails returns nothing. -/
def Pass.answers (pass : Pass) (batches : List (List UInt64)) : List (Option (List VideoInfo)) :=
  batches.mapIdx fun n videoIds => (pass.getVideo n videoIds).toOption

def concatenated (answers : List (Option (List VideoInfo))) : List VideoInfo :=
  answers.flatMap fun infos => infos.getD []

/-- The videos of the calls before the first one that fails. -/
def gathered (answers : List (Option (List VideoInfo))) : List VideoInfo :=
  concatenated (answers.takeWhile Option.isSome)

theorem gathered_of_all {answers : List (Option (List VideoInfo))}
    (h : answers.all Option.isSome = true) : gathered answers = concatenated answers := by
  rw [gathered, List.takeWhile_eq_self_iff.mpr (List.all_eq_true.mp h)]

def Call.videoIds : Call → List UInt64
  | .getUser _ _ => []
  | .getVideo videoIds _ => videoIds

/-- The loop over the batches breaks at an error and keeps what it has. -/
def trendingLoop (getVideo : Nat → List UInt64 → Except Status (List VideoInfo)) :
    List (List UInt64) → List VideoInfo → List Call → List VideoInfo × List Call
  | [], trendingVids, calls => (trendingVids, calls)
  | videoIds :: batches, trendingVids, calls =>
      match getVideo calls.length videoIds with
      | .error err => (trendingVids, calls ++ [.getVideo videoIds (.error err)])
      | .ok batchVids => trendingLoop getVideo batches (trendingVids ++ batchVids)
          (calls ++ [.getVideo videoIds (.ok batchVids)])

namespace VideoRecServiceServer

variable (server : VideoRecServiceServer) (pass : Pass)

/-- `time.Now().Unix() > server.trending_vids.timeout` -/
def refetches : Bool := pass.checked > server.trendingVids.timeout

def trendingBatches (trendingResp : GetTrendingVideosResponse) : List (List UInt64) :=
  GoSlice.batches server.options.maxBatchSize trendingResp.videos

def fetchTrending (trendingResp : GetTrendingVideosResponse) : List VideoInfo × List Call :=
  trendingLoop pass.getVideo (server.trendingBatches trendingResp) [] []

/-- One pass of the loop. The expiration is added to the time at which the result is
stored. -/
def refreshTrendingVideos : VideoRecServiceServer :=
  if server.refetches pass then
    match pass.getTrendingVideos with
    | .error _ => server
    | .ok trendingResp =>
        { server with
          trendingVids :=
            ⟨(server.fetchTrending pass trendingResp).1,
              pass.stored + trendingResp.expirationTimeS.toInt64⟩ }
  else server

/-- No call of a refresh fails. -/
def succeeds : Bool :=
  match pass.getTrendingVideos with
  | .error _ => false
  | .ok trendingResp =>
      (pass.answers (server.trendingBatches trendingResp)).all Option.isSome

/-- The server with another list of videos in its cache. -/
def withVideos (videos : List VideoInfo) : VideoRecServiceServer :=
  { server with trendingVids := { server.trendingVids with videos } }

end VideoRecServiceServer

/-- The last answer of the video service that was used: what it announced, and when it was
given and its result stored. -/
structure Announcement where
  expirationTimeS : UInt64
  answered : Int64
  stored : Int64
  deriving DecidableEq

/-- The loop between two passes: the time until which it sleeps, the last answer for the
trending ids, and the videos of the last refresh all of whose calls succeeded. -/
structure Refresher where
  server : VideoRecServiceServer
  wakes : Int
  announced : Option Announcement
  complete : Option (List VideoInfo)

namespace Refresher

variable (s : Refresher) (pass : Pass)

/-- The answer for the trending ids, if the pass asks for it and gets it. -/
def response : Option GetTrendingVideosResponse :=
  if s.server.refetches pass then pass.getTrendingVideos.toOption else none

def ended : Int64 :=
  if s.server.refetches pass then
    match pass.getTrendingVideos with
    | .error _ => pass.answered
    | .ok _ => pass.stored
  else pass.checked

/-- The times of a pass are readings of one clock. -/
def InOrder : Prop :=
  s.wakes ≤ pass.checked.toInt ∧ pass.checked.toInt ≤ pass.answered.toInt ∧
    pass.answered.toInt ≤ pass.stored.toInt

instance : Decidable (s.InOrder pass) := inferInstanceAs (Decidable (_ ∧ _ ∧ _))

/-- A pass, after which the loop sleeps for ten seconds. -/
def step : Option Refresher :=
  if s.InOrder pass then
    some {
      server := s.server.refreshTrendingVideos pass
      wakes := (s.ended pass).toInt + 10
      announced :=
        match s.response pass with
        | none => s.announced
        | some trendingResp =>
            some ⟨trendingResp.expirationTimeS, pass.answered, pass.stored⟩
      complete :=
        match s.response pass with
        | none => s.complete
        | some trendingResp =>
            if s.server.succeeds pass then
              some (concatenated (pass.answers (s.server.trendingBatches trendingResp)))
            else s.complete }
  else none

/-- Once a refresh has succeeded, the fallback serves the videos of the last one that
has. -/
def ServesComplete : Prop :=
  ∀ videos ∈ s.complete, ∀ req stats,
    s.server.handleFallback req stats = (s.server.withVideos videos).handleFallback req stats

end Refresher

def refresher (options : VideoRecServiceOptions) (start : Nat) : Machine Refresher Pass where
  init := ⟨⟨options, ⟨[], 0⟩⟩, start, none, none⟩
  step := Refresher.step

/-- The loop gets the videos of the calls before the first one that fails, and makes a call
for every batch if none does. -/
theorem trendingLoop_spec (getVideo : Nat → List UInt64 → Except Status (List VideoInfo))
    (batches : List (List UInt64)) (vids : List VideoInfo) (calls : List Call) :
    (trendingLoop getVideo batches vids calls).1 = vids ++ gathered (batches.mapIdx
        fun n videoIds => (getVideo (calls.length + n) videoIds).toOption) ∧
      ((batches.mapIdx fun n videoIds =>
          (getVideo (calls.length + n) videoIds).toOption).all Option.isSome = true →
        (trendingLoop getVideo batches vids calls).2.map Call.videoIds =
          calls.map Call.videoIds ++ batches) := by
  induction batches generalizing vids calls with
  | nil => simp [trendingLoop, gathered, concatenated]
  | cons videoIds batches ih =>
      cases hget : getVideo calls.length videoIds with
      | error err =>
          simp [trendingLoop, hget, gathered, concatenated, List.mapIdx_cons, Except.toOption]
      | ok batchVids =>
          have hnext := ih (vids ++ batchVids) (calls ++ [.getVideo videoIds (.ok batchVids)])
          have hone : (Except.ok batchVids : Except Status (List VideoInfo)).toOption =
            some batchVids := rfl
          simp only [List.length_append, List.length_singleton, Nat.add_assoc,
            Nat.add_comm 1] at hnext
          simp only [trendingLoop, hget, List.mapIdx_cons, Nat.add_zero, hone]
          refine ⟨?_, fun hall => ?_⟩
          · rw [hnext.1]
            simp [gathered, concatenated]
          · rw [List.all_cons, Option.isSome_some, Bool.true_and] at hall
            rw [hnext.2 hall]
            simp [Call.videoIds]

namespace VideoRecServiceServer

variable {server : VideoRecServiceServer} {pass : Pass}
  {trendingResp : GetTrendingVideosResponse}

theorem fetchTrending_videos (server : VideoRecServiceServer) (pass : Pass)
    (trendingResp : GetTrendingVideosResponse) :
    (server.fetchTrending pass trendingResp).1 =
      gathered (pass.answers (server.trendingBatches trendingResp)) := by
  have hspec := (trendingLoop_spec pass.getVideo (server.trendingBatches trendingResp) [] []).1
  simpa [fetchTrending, Pass.answers] using hspec

theorem fetchTrending_batches
    (h : (pass.answers (server.trendingBatches trendingResp)).all Option.isSome = true) :
    (server.fetchTrending pass trendingResp).2.map Call.videoIds =
      server.trendingBatches trendingResp := by
  have hspec := (trendingLoop_spec pass.getVideo (server.trendingBatches trendingResp) [] []).2
  simpa [fetchTrending] using hspec (by simpa [Pass.answers] using h)

theorem refresh_error (hget : ∃ err, pass.getTrendingVideos = .error err) :
    server.refreshTrendingVideos pass = server := by
  obtain ⟨err, hget⟩ := hget
  simp [refreshTrendingVideos, hget]

theorem refresh_ok (hdue : server.refetches pass = true)
    (hget : pass.getTrendingVideos = .ok trendingResp) :
    server.refreshTrendingVideos pass =
      { server with
        trendingVids :=
          ⟨gathered (pass.answers (server.trendingBatches trendingResp)),
            pass.stored + trendingResp.expirationTimeS.toInt64⟩ } := by
  simp [refreshTrendingVideos, hdue, hget, fetchTrending_videos]

theorem succeeds_ok (hget : pass.getTrendingVideos = .ok trendingResp) :
    server.succeeds pass =
      (pass.answers (server.trendingBatches trendingResp)).all Option.isSome := by
  simp [succeeds, hget]

@[simp] theorem refresh_options : (server.refreshTrendingVideos pass).options = server.options := by
  unfold refreshTrendingVideos
  split
  · cases pass.getTrendingVideos with
    | error err => rfl
    | ok trendingResp => rfl
  · rfl

/-- The fallback serves all that the cache has, unless it is disabled. -/
theorem handleFallback_withVideos_iff {videos : List VideoInfo} :
    (∀ req stats, server.handleFallback req stats =
        (server.withVideos videos).handleFallback req stats) ↔
      (server.options.disableFallback = false → server.trendingVids.videos = videos) := by
  cases hdisable : server.options.disableFallback with
  | true => simp [handleFallback, withVideos, hdisable]
  | false =>
      simp only [true_imp_iff]
      constructor
      · intro h
        have hall := congrArg Prod.fst (h ⟨0, 0⟩ ⟨0, 0, 0, 0, 0, 0, 0⟩)
        have hslice (vids : List VideoInfo) :
            GoSlice.sliceTo vids (limNumVids 0 vids) = some vids := by
          rw [sliceTo_limNumVids (by decide)]
          simp
        simpa [handleFallback, withVideos, hdisable, hslice] using hall
      · intro h req stats
        simp [handleFallback, withVideos, hdisable, h]

end VideoRecServiceServer

namespace Refresher

variable {s t : Refresher} {pass : Pass}

/-- A pass either leaves all but the time as it is, or it stores what it has got. -/
inductive Step (s : Refresher) (pass : Pass) : Refresher → Prop
  | idle (h : s.response pass = none) :
      Step s pass { s with wakes := (s.ended pass).toInt + 10 }
  | store {trendingResp : GetTrendingVideosResponse} (hdue : s.server.refetches pass = true)
      (hget : pass.getTrendingVideos = .ok trendingResp) :
      Step s pass {
        server := { s.server with
          trendingVids :=
            ⟨gathered (pass.answers (s.server.trendingBatches trendingResp)),
              pass.stored + trendingResp.expirationTimeS.toInt64⟩ }
        wakes := pass.stored.toInt + 10
        announced := some ⟨trendingResp.expirationTimeS, pass.answered, pass.stored⟩
        complete :=
          if s.server.succeeds pass then
            some (concatenated (pass.answers (s.server.trendingBatches trendingResp)))
          else s.complete }

theorem step_cases (h : s.step pass = some t) : s.InOrder pass ∧ Step s pass t := by
  unfold step at h
  split at h
  · rename_i horder
    obtain rfl := Option.some.inj h
    refine ⟨horder, ?_⟩
    cases hdue : s.server.refetches pass with
    | false =>
        have hnone : s.response pass = none := by simp [response, hdue]
        have hserver : s.server.refreshTrendingVideos pass = s.server := by
          simp [VideoRecServiceServer.refreshTrendingVideos, hdue]
        simpa only [hnone, hserver] using Step.idle hnone
    | true =>
        cases hget : pass.getTrendingVideos with
        | error err =>
            have hnone : s.response pass = none := by simp [response, hget, Except.toOption]
            have hserver : s.server.refreshTrendingVideos pass = s.server :=
              VideoRecServiceServer.refresh_error ⟨err, hget⟩
            simpa only [hnone, hserver] using Step.idle hnone
        | ok trendingResp =>
            have hsome : s.response pass = some trendingResp := by
              simp [response, hdue, hget, Except.toOption]
            have hended : s.ended pass = pass.stored := by simp [ended, hdue, hget]
            simpa only [hsome, hended, VideoRecServiceServer.refresh_ok hdue hget]
              using Step.store hdue hget
  · cases h

/-- The cache has the videos of the last refresh that succeeded. -/
def Complete (s : Refresher) : Prop :=
  s.server.options.disableFallback = false →
    ∀ videos ∈ s.complete, s.server.trendingVids.videos = videos

theorem servesComplete_iff : s.ServesComplete ↔ s.Complete := by
  unfold ServesComplete Complete
  constructor
  · exact fun h hdisable videos hv =>
      VideoRecServiceServer.handleFallback_withVideos_iff.mp (h videos hv) hdisable
  · exact fun h videos hv =>
      VideoRecServiceServer.handleFallback_withVideos_iff.mpr fun hdisable => h hdisable videos hv

/-- Once a refresh has succeeded: if a later one gets its ids and a call for infos fails,
the calls before that return the videos of the last refresh that succeeded. Nothing is asked
while the fallback is disabled. -/
def Keeps (s : Refresher) (pass : Pass) : Prop :=
  s.server.options.disableFallback = false → s.server.refetches pass = true →
    ∀ trendingResp, pass.getTrendingVideos = .ok trendingResp →
      (pass.answers (s.server.trendingBatches trendingResp)).all Option.isSome = false →
      ∀ videos ∈ s.complete,
        gathered (pass.answers (s.server.trendingBatches trendingResp)) = videos

theorem keeps_of_succeeds (h : s.server.succeeds pass = true) : s.Keeps pass := by
  intro _ _ trendingResp hget hfails
  rw [VideoRecServiceServer.succeeds_ok hget, hfails] at h
  cases h

theorem keeps_of_response_none (h : s.response pass = none) : s.Keeps pass := by
  intro _ hdue trendingResp hget
  simp [response, hdue, hget, Except.toOption] at h

theorem complete_step (hs : s.Complete) (ht : s.step pass = some t) :
    t.Complete ↔ s.Keeps pass := by
  cases (step_cases ht).2 with
  | idle h => exact iff_of_true hs (keeps_of_response_none h)
  | @store trendingResp hdue hget =>
      cases hok : s.server.succeeds pass with
      | true =>
          refine iff_of_true ?_ (keeps_of_succeeds hok)
          intro _ videos hv
          rw [if_pos rfl] at hv
          rw [← Option.some.inj hv]
          rw [VideoRecServiceServer.succeeds_ok hget] at hok
          exact gathered_of_all hok
      | false =>
          have hfails := hok
          rw [VideoRecServiceServer.succeeds_ok hget] at hfails
          constructor
          · intro h hdisable _ resp hget' _ videos hv
            cases hget.symm.trans hget'
            exact h hdisable videos hv
          · intro h hdisable videos hv
            exact h hdisable hdue trendingResp hget hfails videos hv

end Refresher

section Refreshes

variable {server : VideoRecServiceServer} {pass : Pass}

/-- A refresh all of whose calls succeed stores the videos of all batches. -/
theorem refresh_of_succeeds (hdue : server.refetches pass = true)
    (hok : server.succeeds pass = true) :
    ∃ trendingResp, pass.getTrendingVideos = .ok trendingResp ∧
      (server.fetchTrending pass trendingResp).2.map Call.videoIds =
        server.trendingBatches trendingResp ∧
      (server.refreshTrendingVideos pass).trendingVids =
        ⟨concatenated (pass.answers (server.trendingBatches trendingResp)),
          pass.stored + trendingResp.expirationTimeS.toInt64⟩ := by
  cases hget : pass.getTrendingVideos with
  | error err => simp [VideoRecServiceServer.succeeds, hget] at hok
  | ok trendingResp =>
      rw [VideoRecServiceServer.succeeds_ok hget] at hok
      refine ⟨trendingResp, rfl, VideoRecServiceServer.fetchTrending_batches hok, ?_⟩
      rw [VideoRecServiceServer.refresh_ok hdue hget, gathered_of_all hok]

/-- A refresh keeps the cache if it gets no ids, or if the calls before the first failure
return the cached videos and the sum for the timeout is the cached one. -/
theorem refresh_keeps_iff (hdue : server.refetches pass = true) :
    (server.refreshTrendingVideos pass).trendingVids = server.trendingVids ↔
      (∃ err, pass.getTrendingVideos = .error err) ∨
      ∃ trendingResp, pass.getTrendingVideos = .ok trendingResp ∧
        gathered (pass.answers (server.trendingBatches trendingResp)) =
          server.trendingVids.videos ∧
        pass.stored + trendingResp.expirationTimeS.toInt64 = server.trendingVids.timeout := by
  cases hget : pass.getTrendingVideos with
  | error err =>
      rw [VideoRecServiceServer.refresh_error ⟨err, hget⟩]
      simp
  | ok trendingResp =>
      rw [VideoRecServiceServer.refresh_ok hdue hget]
      rw [CachedVideos.mk.injEq]
      simp

/-- On one clock the timeout moves on, unless it wraps around. -/
theorem refresh_keeps_iff_error (hdue : server.refetches pass = true)
    (horder : pass.checked.toInt ≤ pass.stored.toInt)
    (hsum : ∀ trendingResp, pass.getTrendingVideos = .ok trendingResp →
      pass.stored.toInt + trendingResp.expirationTimeS.toNat < 2 ^ 63) :
    (server.refreshTrendingVideos pass).trendingVids = server.trendingVids ↔
      ∃ err, pass.getTrendingVideos = .error err := by
  rw [refresh_keeps_iff hdue]
  refine or_iff_left ?_
  rintro ⟨trendingResp, hget, _, htimeout⟩
  have hlt := hsum trendingResp hget
  have hge := pass.stored.le_toInt
  rw [VideoRecServiceServer.refetches, decide_eq_true_iff, gt_iff_lt, Int64.lt_iff_toInt_lt,
    ← htimeout, GoInt.toInt_add_toInt64, Int.bmod_eq_of_le (by omega) (by omega)] at hdue
  omega

end Refreshes

/-- When a refresh one of whose calls fails leaves the cache as it is, and when the fallback
goes on serving the videos of the last refresh that succeeded. -/
theorem failed_refresh_intact_iff {options : VideoRecServiceOptions} {start : Nat}
    {h : List Refresher} (run : (refresher options start).Run (fun _ _ => True) h) :
    (∀ (server : VideoRecServiceServer) (pass : Pass), server.refetches pass = true →
      (server.succeeds pass = true → ∃ trendingResp,
        pass.getTrendingVideos = .ok trendingResp ∧
        (server.fetchTrending pass trendingResp).2.map Call.videoIds =
          server.trendingBatches trendingResp ∧
        (server.refreshTrendingVideos pass).trendingVids =
          ⟨concatenated (pass.answers (server.trendingBatches trendingResp)),
            pass.stored + trendingResp.expirationTimeS.toInt64⟩) ∧
      (server.succeeds pass = false →
        ((server.refreshTrendingVideos pass).trendingVids = server.trendingVids ↔
          (∃ err, pass.getTrendingVideos = .error err) ∨
          ∃ trendingResp, pass.getTrendingVideos = .ok trendingResp ∧
            gathered (pass.answers (server.trendingBatches trendingResp)) =
              server.trendingVids.videos ∧
            pass.stored + trendingResp.expirationTimeS.toInt64 =
              server.trendingVids.timeout)) ∧
      (server.succeeds pass = false → pass.checked.toInt ≤ pass.stored.toInt →
        (∀ trendingResp, pass.getTrendingVideos = .ok trendingResp →
          pass.stored.toInt + trendingResp.expirationTimeS.toNat < 2 ^ 63) →
        ((server.refreshTrendingVideos pass).trendingVids = server.trendingVids ↔
          ∃ err, pass.getTrendingVideos = .error err))) ∧
    ((∀ s ∈ h, s.ServesComplete) ↔
      (refresher options start).Run (fun s pass => s.Keeps pass) h) := by
  refine ⟨fun server pass hdue => ⟨refresh_of_succeeds hdue, fun _ => refresh_keeps_iff hdue,
    fun _ horder hsum => refresh_keeps_iff_error hdue horder hsum⟩, ?_⟩
  simp only [Refresher.servesComplete_iff]
  refine Machine.Run.invariant_iff (I := Refresher.Complete) (G := fun _ => True) ?_ ?_ ?_ run
    fun _ _ => trivial
  · exact fun _ videos hv => absurd hv (Option.not_mem_none videos)
  · exact fun s pass t hs _ hkeeps ht => (Refresher.complete_step hs ht).mpr hkeeps
  · exact fun s pass t hs hcomplete _ ht => (Refresher.complete_step hs ht).mp hcomplete

/-- A pass that gets the videos 7 and 8 one by one, except for those whose call fails. It
takes no time, and the answer is good for a minute. -/
def sampleRefresh (now : Int64) (failing : List Nat) : Pass where
  checked := now
  getTrendingVideos := .ok ⟨[7, 8], (now + 60).toUInt64⟩
  answered := now
  getVideo n videoIds :=
    if n ∈ failing then .error VideoServiceServer.injected
    else .ok (videoIds.map fun videoId => ⟨videoId, ∅⟩)
  stored := now

def oneByOne : VideoRecServiceOptions := ⟨1, Nat.le_refl 1, false⟩

/-- The ids of the videos of the last refresh that succeeded. -/
def Refresher.completeIds (s : Refresher) : Option (List UInt64) :=
  s.complete.map fun videos => videos.map (·.videoId)

def VideoRecServiceServer.cachedIds (server : VideoRecServiceServer) : List UInt64 :=
  server.trendingVids.videos.map (·.videoId)

/-- Two refreshes in a row succeed. -/
theorem failed_refresh_intact_iff_twice :
    ∃ h, (refresher oneByOne 1700000000).Run (fun _ _ => True) h ∧
      (∃ s ∈ h, s.completeIds = some [7, 8]) ∧ ∀ s ∈ h, s.ServesComplete := by
  obtain ⟨h, run, hs⟩ := (refresher oneByOne 1700000000).exists_run_of_replay
    (fun s pass => s.server.succeeds pass = true)
    [sampleRefresh 1700000000 [], sampleRefresh 3400000061 []]
    (fun h => ∃ s ∈ h, s.completeIds = some [7, 8]) (by decide +kernel)
  have hall := Machine.Run.mono (Q := fun _ _ => True) (fun _ _ _ => trivial) run
  refine ⟨h, hall, hs, (failed_refresh_intact_iff hall).2.mpr ?_⟩
  exact Machine.Run.mono (fun _ _ hok => Refresher.keeps_of_succeeds hok) run

/-- The call for video 8 fails in the first refresh: the cache gets video 7 alone, and a
timeout. The first refresh succeeds and the call for video 7 fails in the second: the cache
is emptied, and the fallback serves nothing. -/
theorem failed_refresh_truncates :
    (∃ h, (refresher oneByOne 1700000000).Run (fun _ _ => True) h ∧
      ∃ s ∈ h, s.completeIds = none ∧ s.server.cachedIds = [7] ∧
        s.server.trendingVids.timeout = 3400000060) ∧
    ∃ h, (refresher oneByOne 1700000000).Run (fun _ _ => True) h ∧
      ∃ s ∈ h, s.completeIds = some [7, 8] ∧ s.server.cachedIds = [] ∧
        ¬ s.ServesComplete := by
  constructor
  · exact (refresher oneByOne 1700000000).exists_run_of_replay (fun _ _ => True)
      [sampleRefresh 1700000000 [1]]
      (fun h => ∃ s ∈ h, s.completeIds = none ∧ s.server.cachedIds = [7] ∧
        s.server.trendingVids.timeout = 3400000060)
      (by decide +kernel)
  · obtain ⟨h, run, s, hs, henabled, hcomplete, hcached⟩ :=
      (refresher oneByOne 1700000000).exists_run_of_replay (fun _ _ => True)
        [sampleRefresh 1700000000 [], sampleRefresh 3400000061 [0]]
        (fun h => ∃ s ∈ h, s.server.options.disableFallback = false ∧
          s.completeIds = some [7, 8] ∧ s.server.cachedIds = [])
        (by decide +kernel)
    refine ⟨h, run, s, hs, hcomplete, hcached, fun hserves => ?_⟩
    obtain ⟨videos, hvideos, hids⟩ := Option.map_eq_some_iff.mp hcomplete
    have hfull := Refresher.servesComplete_iff.mp hserves henabled videos hvideos
    rw [VideoRecServiceServer.cachedIds, hfull, hids] at hcached
    cases hcached

end VideoLab
