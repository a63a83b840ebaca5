import DistributedLabs.Lab1.Paths
import DistributedLabs.Library.History
import DistributedLabs.Library.Phases

/-!
The error counters that `GetStats` reports, over any number of concurrent requests. A
request first makes its calls and then adds to the counters. The only counter that it adds
to on account of a failed call is the one of the user service, once, when it takes the
fallback while that is disabled.
-/

namespace VideoLab

structure GetStatsResponse where
  totalRequests : UInt64
  totalErrors : UInt64
  activeRequests : UInt64
  userServiceErrors : UInt64
  videoServiceErrors : UInt64
  averageLatencyMs : Float32
  staleResponses : UInt64

namespace Stats

variable (stats : Stats)

def getStats : GetStatsResponse where
  totalRequests := stats.totalReqs
  totalErrors := stats.totalErrs
  activeRequests := stats.totalActiveReqs.toUInt64
  userServiceErrors := stats.totalUsrServErrs
  videoServiceErrors := stats.totalVidServErrs
  averageLatencyMs :=
    if stats.totalReqs > 0 then stats.totalLatency.toFloat32 / stats.totalReqs.toFloat32 else 0
  staleResponses := stats.totalStaleResp

/-- What `GetTopVideos` counts when it is entered. -/
def enter : Stats :=
  { stats with
    totalActiveReqs := stats.totalActiveReqs + 1
    totalReqs := stats.totalReqs + 1 }

/-- The deferred decrement. -/
def leave : Stats := { stats with totalActiveReqs := stats.totalActiveReqs - 1 }

end Stats

inductive RequestPhase where
  | calling (req : GetTopVideosRequest)
  | called (req : GetTopVideosRequest) (env : Env)
  | returning
  | returned

def RequestPhase.active : RequestPhase → Bool
  | .calling _ | .called _ _ | .returning => true
  | .returned => false

/-- The server with its requests, and the calls of those that have made them, newest first.
A panic ends the process. -/
structure Serving where
  server : VideoRecServiceServer
  stats : Stats
  phases : List RequestPhase
  requests : List (List Call)
  panicked : Bool

inductive ServingEvent where
  | refresh (cache : CachedVideos)
  | start (req : GetTopVideosRequest)
  | call (i : Nat) (env : Env)
  | count (i : Nat)
  | finish (i : Nat)

namespace Serving

variable (s : Serving)

def step (e : ServingEvent) : Option Serving :=
  if s.panicked then none
  else
    match e with
    | .refresh cache => some { s with server := { s.server with trendingVids := cache } }
    | .start req => some { s with
        stats := s.stats.enter
        phases := s.phases ++ [.calling req] }
    | .call i env =>
        match s.phases[i]? with
        | some (.calling req) => some { s with
            phases := s.phases.set i (.called req env)
            requests := (s.server.serve env req s.stats).calls :: s.requests }
        | _ => none
    | .count i =>
        match s.phases[i]? with
        | some (.called req env) => some { s with
            stats := (s.server.serve env req s.stats).stats
            phases := s.phases.set i .returning
            panicked := (s.server.serve env req s.stats).result.isNone }
        | _ => none
    | .finish i =>
        match s.phases[i]? with
        | some .returning => some { s with
            stats := s.stats.leave
            phases := s.phases.set i .returned }
        | _ => none

end Serving

def serving (options : VideoRecServiceOptions) : Machine Serving ServingEvent where
  init := ⟨⟨options, ⟨[], 0⟩⟩, ⟨0, 0, 0, 0, 0, 0, 0⟩, [], [], false⟩
  step := Serving.step

namespace Call

def userFailed (call : Call) : Bool := !call.isGetVideo && call.failed

def videoFailed (call : Call) : Bool := call.isGetVideo && call.failed

end Call

namespace Serving

variable (s : Serving)

def userFailures : Nat := s.requests.flatten.countP Call.userFailed

def videoFailures : Nat := s.requests.flatten.countP Call.videoFailed

def fallbacks : Nat := s.requests.countP fellBack

/-- The requests whose user the user service knows nothing of. -/
def nobodies : Nat := s.requests.countP fun calls => calls.head?.any Call.nobody

/-- The failed calls for subscribed users. -/
def swallowed : Nat := (s.requests.flatMap List.tail).countP Call.userFailed

/-- Each service is charged with its own failed calls. -/
def Attributed : Prop :=
  s.stats.getStats.userServiceErrors.toNat = s.userFailures ∧
    s.stats.getStats.videoServiceErrors.toNat = s.videoFailures

end Serving

/-- Which calls are made depends neither on the counters nor on the cache. -/
theorem serve_calls_eq {server server' : VideoRecServiceServer} (env : Env)
    (req : GetTopVideosRequest) (stats stats' : Stats)
    (hoptions : server.options = server'.options) :
    (server.serve env req stats).calls = (server'.serve env req stats').calls := by
  unfold VideoRecServiceServer.serve
  cases env.getUser 0 [req.userId] with
  | error err => rfl
  | ok users =>
      cases users with
      | nil => rfl
      | cons user rest =>
          simp only [VideoRecServiceServer.getSubscribedVideos,
            VideoRecServiceServer.getVideoInfo, hoptions]
          split <;> rfl

/-- A request with these calls is charged to the user service. -/
def charged (options : VideoRecServiceOptions) (calls : List Call) : Bool :=
  options.disableFallback && fellBack calls

/-- What a request adds to the two counters. -/
theorem VideoRecServiceServer.Served.errors {server : VideoRecServiceServer} {env : Env}
    {req : GetTopVideosRequest} {stats : Stats} {outcome : Outcome}
    (h : server.Served env req stats outcome) :
    outcome.stats.totalUsrServErrs.toNat =
        (stats.totalUsrServErrs.toNat + (charged server.options outcome.calls).toNat) % 2 ^ 64 ∧
      outcome.stats.totalVidServErrs = stats.totalVidServErrs := by
  cases h with
  | fallback hfell =>
      unfold VideoRecServiceServer.fallback VideoRecServiceServer.handleFallback charged
      cases hdisable : server.options.disableFallback with
      | true => simp [hfell, UInt64.toNat_add]
      | false => simp
  | ranked rankedVids hfell => simp [charged, hfell]

namespace Serving

variable {options : VideoRecServiceOptions} {s t : Serving} {e : ServingEvent}

/-- The steps of the server and its requests. -/
inductive Step (s : Serving) : ServingEvent → Serving → Prop
  | refresh (cache : CachedVideos) :
      Step s (.refresh cache) { s with server := { s.server with trendingVids := cache } }
  | start (req : GetTopVideosRequest) :
      Step s (.start req) { s with
        stats := s.stats.enter
        phases := s.phases ++ [.calling req] }
  | call {i : Nat} {req : GetTopVideosRequest} (env : Env)
      (hi : s.phases[i]? = some (.calling req)) :
      Step s (.call i env) { s with
        phases := s.phases.set i (.called req env)
        requests := (s.server.serve env req s.stats).calls :: s.requests }
  | count {i : Nat} {req : GetTopVideosRequest} {env : Env}
      (hi : s.phases[i]? = some (.called req env)) :
      Step s (.count i) { s with
        stats := (s.server.serve env req s.stats).stats
        phases := s.phases.set i .returning
        panicked := (s.server.serve env req s.stats).result.isNone }
  | finish {i : Nat} (hi : s.phases[i]? = some .returning) :
      Step s (.finish i) { s with
        stats := s.stats.leave
        phases := s.phases.set i .returned }

theorem step_cases (h : s.step e = some t) : Step s e t := by
  unfold step at h
  split at h
  · cases h
  · cases e with
    | refresh cache => exact Option.some.inj h ▸ .refresh cache
    | start req => exact Option.some.inj h ▸ .start req
    | call i env =>
        simp only at h
        split at h
        · rename_i hi
          exact Option.some.inj h ▸ .call env hi
        · cases h
    | count i =>
        simp only at h
        split at h
        · rename_i hi
          exact Option.some.inj h ▸ .count hi
        · cases h
    | finish i =>
        simp only at h
        split at h
        · rename_i hi
          exact Option.some.inj h ▸ .finish hi
        · cases h

end Serving

/-- The calls of a request. -/
def requestCalls (options : VideoRecServiceOptions) (env : Env) (req : GetTopVideosRequest) :
    List Call :=
  ((⟨options, ⟨[], 0⟩⟩ : VideoRecServiceServer).serve env req ⟨0, 0, 0, 0, 0, 0, 0⟩).calls

/-- The request has made its calls and is still to be charged to the user service. -/
def RequestPhase.pending (options : VideoRecServiceOptions) : RequestPhase → Bool
  | .called req env => charged options (requestCalls options env req)
  | .calling _ | .returning | .returned => false

namespace Serving

variable {options : VideoRecServiceOptions} {s t : Serving} {e : ServingEvent}

/-- The counter of the user service has the requests that were charged to it, but for those
that are still to be counted. -/
structure Ok (options : VideoRecServiceOptions) (s : Serving) : Prop where
  options_eq : s.server.options = options
  users : (s.stats.totalUsrServErrs.toNat + s.phases.countP (·.pending options)) % 2 ^ 64 =
    s.requests.countP (charged options) % 2 ^ 64
  videos : s.stats.totalVidServErrs = 0

theorem Ok.step (hok : Ok options s) (ht : s.step e = some t) : Ok options t := by
  obtain ⟨hoptions, husers, hvideos⟩ := hok
  have hcalls (env : Env) (req : GetTopVideosRequest) :
      (s.server.serve env req s.stats).calls = requestCalls options env req :=
    serve_calls_eq env req _ _ hoptions
  cases step_cases ht with
  | refresh cache => exact ⟨hoptions, husers, hvideos⟩
  | start req =>
      refine ⟨hoptions, ?_, hvideos⟩
      simpa [RequestPhase.pending, Stats.enter] using husers
  | @call i req env hi =>
      -- the request is pending from now on, until it adds to the counter
      refine ⟨hoptions, ?_, hvideos⟩
      have hmove : _ + 0 = s.phases.countP (·.pending options) +
          (charged options (requestCalls options env req)).toNat :=
        Phases.countP_move (·.pending options) (.called req env) hi
      simp only [hcalls, Phases.countP_cons_toNat]
      omega
  | @count i req env hi =>
      obtain ⟨hadd, hkeep⟩ := (s.server.serve_served env req s.stats).errors
      refine ⟨hoptions, ?_, hkeep.trans hvideos⟩
      have hmove : _ + (charged options (requestCalls options env req)).toNat =
          s.phases.countP (·.pending options) + 0 :=
        Phases.countP_move (·.pending options) .returning hi
      rw [hoptions, hcalls] at hadd
      simp only [hadd]
      omega
  | finish hi =>
      refine ⟨hoptions, ?_, hvideos⟩
      rw [Phases.countP_keep _ _ hi (by rfl)]
      exact husers

end Serving

/-- A request none of whose calls to the video service failed takes the fallback if its
first call failed or found nobody. -/
theorem fellBack_balance {calls : List Call} (h : calls.countP Call.videoFailed = 0) :
    (fellBack calls).toNat + calls.tail.countP Call.userFailed =
      (calls.head?.any Call.nobody).toNat + calls.countP Call.userFailed := by
  have hnone : (calls.any fun call => call.isGetVideo && call.failed) = false :=
    List.any_eq_false.mpr (List.countP_eq_zero.mp h)
  rw [fellBack, hnone, Bool.or_false]
  cases calls with
  | nil => rfl
  | cons first rest =>
      rw [List.countP_cons]
      simp only [List.head?_cons, Option.any_some, List.tail_cons]
      have hvideo : first.videoFailed = false :=
        Bool.eq_false_iff.mpr (List.countP_eq_zero.mp h first List.mem_cons_self)
      cases first with
      | getUser userIds result =>
          cases result with
          | error err => simp [Call.failed, Call.nobody, Call.userFailed, Call.isGetVideo]; omega
          | ok users =>
              cases users <;> simp [Call.failed, Call.nobody, Call.userFailed]
      | getVideo videoIds result =>
          cases result with
          | error err => cases hvideo
          | ok infos => simp [Call.failed, Call.nobody, Call.userFailed]

theorem fallbacks_balance {requests : List (List Call)}
    (h : requests.flatten.countP Call.videoFailed = 0) :
    requests.countP fellBack + (requests.flatMap List.tail).countP Call.userFailed =
      requests.countP (fun calls => calls.head?.any Call.nobody) +
        requests.flatten.countP Call.userFailed := by
  induction requests with
  | nil => rfl
  | cons calls requests ih =>
      simp only [List.flatten_cons, List.countP_append, List.flatMap_cons,
        Phases.countP_cons_toNat] at h ⊢
      have hhead := fellBack_balance (Nat.eq_zero_of_add_eq_zero_right h)
      have hrest := ih (Nat.eq_zero_of_add_eq_zero_left h)
      omega

namespace Serving

variable {options : VideoRecServiceOptions} {s : Serving}

/-- A request that runs alone is `GetTopVideos`. -/
theorem request_alone (hp : s.panicked = false) (req : GetTopVideosRequest) (env : Env)
    (hreturns : (s.server.getTopVideos env req s.stats).result ≠ none) :
    (do let entered ← s.step (.start req)
        let called ← entered.step (.call s.phases.length env)
        let counted ← called.step (.count s.phases.length)
        counted.step (.finish s.phases.length)) =
      some { s with
        stats := (s.server.getTopVideos env req s.stats).stats
        phases := s.phases ++ [.returned]
        requests := (s.server.getTopVideos env req s.stats).calls :: s.requests } := by
  have htop : s.server.getTopVideos env req s.stats =
      { s.server.serve env req s.stats.enter with
        stats := (s.server.serve env req s.stats.enter).stats.leave } := rfl
  rw [htop] at hreturns ⊢
  have hnone : (s.server.serve env req s.stats.enter).result ≠ none := hreturns
  simp [Serving.step, hp, hnone, Option.isSome_iff_ne_none]

/-- When all requests have returned, the counters are those of all requests. -/
theorem Ok.attributed_iff (hok : Ok options s)
    (hidle : ∀ phase ∈ s.phases, phase.active = false) :
    s.Attributed ↔ s.videoFailures = 0 ∧
      s.requests.countP (charged options) % 2 ^ 64 = s.userFailures := by
  obtain ⟨_, husers, hvideos⟩ := hok
  have hpending : s.phases.countP (·.pending options) = 0 := by
    refine List.countP_eq_zero.mpr fun phase hphase => ?_
    have hactive := hidle phase hphase
    cases phase with
    | calling req => cases hactive
    | called req env => cases hactive
    | returning => cases hactive
    | returned => exact Bool.false_ne_true
  have hlt := s.stats.totalUsrServErrs.toNat_lt
  rw [hpending, Nat.add_zero, Nat.mod_eq_of_lt hlt] at husers
  unfold Attributed Stats.getStats
  simp only [husers, hvideos]
  rw [and_comm, eq_comm (a := UInt64.toNat 0)]
  exact Iff.rfl

theorem countP_charged : s.requests.countP (charged options) =
    if options.disableFallback then s.fallbacks else 0 := by
  cases hdisable : options.disableFallback with
  | true =>
      have hcharged : charged options = fellBack := by
        funext calls
        simp [charged, hdisable]
      rw [hcharged, if_pos rfl, fallbacks]
  | false =>
      have hcharged : charged options = fun _ => false := by
        funext calls
        simp [charged, hdisable]
      rw [hcharged, if_neg Bool.false_ne_true, List.countP_false, Function.const_apply]

end Serving

theorem serving_ok {options : VideoRecServiceOptions} {h : List Serving}
    (run : (serving options).Run (fun _ _ => True) h) : ∀ s ∈ h, s.Ok options := by
  refine run.invariant (I := Serving.Ok options) ?_ ?_
  · exact ⟨rfl, rfl, rfl⟩
  · exact fun s e t hok _ ht => hok.step ht

/-- When no request is active, the two counters are the numbers of failed calls if and only
if no call to the video service failed and: with the fallback enabled, no call to the user
service either; with the fallback disabled, there are as many failed calls for subscribed
users as requests whose user the user service knows nothing of. -/
theorem errors_attributed_iff {options : VideoRecServiceOptions} {h : List Serving}
    (run : (serving options).Run (fun _ _ => True) h) :
    ∀ s ∈ h, (∀ phase ∈ s.phases, phase.active = false) →
      (s.Attributed ↔ s.videoFailures = 0 ∧
        (options.disableFallback = false → s.userFailures = 0) ∧
        (options.disableFallback = true → s.fallbacks % 2 ^ 64 = s.userFailures)) ∧
      (s.requests.length < 2 ^ 64 → (s.Attributed ↔ s.videoFailures = 0 ∧
        (options.disableFallback = false → s.userFailures = 0) ∧
        (options.disableFallback = true → s.nobodies = s.swallowed))) := by
  intro s hs hidle
  have hiff := (serving_ok run s hs).attributed_iff hidle
  rw [Serving.countP_charged] at hiff
  have hfallbacks : s.fallbacks ≤ s.requests.length := List.countP_le_length
  cases hdisable : options.disableFallback with
  | false =>
      rw [hdisable] at hiff
      simp only [Bool.false_eq_true, if_false, Nat.zero_mod] at hiff
      simp [hiff, eq_comm]
  | true =>
      rw [hdisable] at hiff
      simp only [if_true] at hiff
      refine ⟨by simp [hiff], fun hlen => ?_⟩
      -- there are at most as many fallbacks as requests, so the counter has not wrapped
      rw [Nat.mod_eq_of_lt (by omega)] at hiff
      simp only [hiff, Bool.true_eq_false, false_imp_iff, true_imp_iff, true_and]
      refine and_congr_right fun hvideo => ?_
      have hbalance : s.fallbacks + s.swallowed = s.nobodies + s.userFailures :=
        fallbacks_balance hvideo
      omega

/-- One request, from its start to its end. -/
def soleRequest (env : Env) : List ServingEvent :=
  [.start ⟨1, 0⟩, .call 0 env, .count 0, .finish 0]

/-- The user service is down and the fallback disabled: its one failed call is counted. -/
theorem errors_attributed_iff_user_down :
    ∃ h, (serving ⟨1, Nat.le_refl 1, true⟩).Run (fun _ _ => True) h ∧
      ∃ s ∈ h, (s.userFailures = 1 ∧ s.stats.getStats.userServiceErrors = 1) ∧ s.Attributed := by
  obtain ⟨h, run, s, hs, hidle, hend, hlen, hvideo, hbalance⟩ :=
    (serving ⟨1, Nat.le_refl 1, true⟩).exists_run_of_replay (fun _ _ => True)
      (soleRequest VideoRecServiceServer.userServiceDown)
      (fun h => ∃ s ∈ h, (∀ phase ∈ s.phases, phase.active = false) ∧
        (s.userFailures = 1 ∧ s.stats.getStats.userServiceErrors = 1) ∧
        s.requests.length < 2 ^ 64 ∧ s.videoFailures = 0 ∧ s.nobodies = s.swallowed)
      (by decide +kernel)
  refine ⟨h, run, s, hs, hend, ((errors_attributed_iff run s hs hidle).2 hlen).mpr ⟨hvideo, ?_⟩⟩
  exact ⟨fun henabled => absurd henabled.symm Bool.false_ne_true, fun _ => hbalance⟩

/-- User 1 subscribes to 2, who likes video 7, and the video service is down. -/
def videoServiceDown : Env :=
  { VideoRecServiceServer.oneFailure with
    getUser := fun n _ => if n = 0 then .ok [⟨[2], ∅, []⟩] else .ok [⟨[], ∅, [7]⟩]
    getVideo := fun _ _ => .error VideoServiceServer.injected }

/-- A failed call for a subscribed user is not counted, and one to the video service is
counted as one to the user service. -/
theorem errors_misattributed :
    (∃ h, (serving ⟨1, Nat.le_refl 1, false⟩).Run (fun _ _ => True) h ∧
      ∃ s ∈ h, (∀ phase ∈ s.phases, phase.active = false) ∧ s.userFailures = 1 ∧
        s.stats.getStats.userServiceErrors = 0) ∧
    ∃ h, (serving ⟨1, Nat.le_refl 1, true⟩).Run (fun _ _ => True) h ∧
      ∃ s ∈ h, (∀ phase ∈ s.phases, phase.active = false) ∧
        (s.userFailures = 0 ∧ s.stats.getStats.userServiceErrors = 1) ∧
        s.videoFailures = 1 ∧ s.stats.getStats.videoServiceErrors = 0 := by
  constructor
  · exact (serving ⟨1, Nat.le_refl 1, false⟩).exists_run_of_replay (fun _ _ => True)
      (soleRequest VideoRecServiceServer.oneFailure)
      (fun h => ∃ s ∈ h, (∀ phase ∈ s.phases, phase.active = false) ∧ s.userFailures = 1 ∧
        s.stats.getStats.userServiceErrors = 0)
      (by decide +kernel)
  · exact (serving ⟨1, Nat.le_refl 1, true⟩).exists_run_of_replay (fun _ _ => True)
      (soleRequest videoServiceDown)
      (fun h => ∃ s ∈ h, (∀ phase ∈ s.phases, phase.active = false) ∧
        (s.userFailures = 0 ∧ s.stats.getStats.userServiceErrors = 1) ∧
        s.videoFailures = 1 ∧ s.stats.getStats.videoServiceErrors = 0)
      (by decide +kernel)

end VideoLab
