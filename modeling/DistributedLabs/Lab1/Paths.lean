import DistributedLabs.Lab1.Fallback

/-!
The two ways in which `GetTopVideos` ends: the ranked videos, or the fallback, which is
taken if the user is not found or a call to the video service fails. Both cut their list at
the limit of the request, which comes from the client as an `int32`.
-/

namespace VideoLab

/-- The answer has no users. -/
def Call.nobody : Call → Bool
  | .getUser _ (.ok []) => true
  | .getUser _ (.ok (_ :: _)) | .getUser _ (.error _) | .getVideo _ _ => false

def fellBack (calls : List Call) : Bool :=
  calls.head?.any (fun call => call.failed || call.nobody) ||
    calls.any fun call => call.isGetVideo && call.failed

theorem fellBack_iff {calls : List Call} :
    fellBack calls = true ↔ Noticed calls ∨ ∃ call ∈ calls.head?, call.nobody = true := by
  cases calls with
  | nil => simp [fellBack, Noticed]
  | cons first rest =>
      simp only [fellBack, Noticed, List.head?_cons, Option.any_some, Bool.or_eq_true,
        List.any_eq_true, Bool.and_eq_true, Option.mem_def, Option.some.injEq, exists_eq_left']
      exact or_right_comm

namespace VideoRecServiceServer

variable {server : VideoRecServiceServer} {env : Env} {req : GetTopVideosRequest}
  {stats : Stats}

/-- How a request ends after its calls. -/
inductive Served (server : VideoRecServiceServer) (env : Env) (req : GetTopVideosRequest)
    (stats : Stats) : Outcome → Prop
  | fallback {calls : List Call} (h : fellBack calls = true) :
      Served server env req stats (server.fallback req stats calls)
  | ranked {calls : List Call} (rankedVids : List VideoInfo) (h : fellBack calls = false) :
      Served server env req stats
        ⟨(GoSlice.sliceTo rankedVids (limNumVids req.limit rankedVids)).map
          fun videos => .ok ⟨videos, false⟩,
          { stats with totalLatency := stats.totalLatency + (env.ended - env.started) }, calls⟩

/-- Once the user is found, only failed calls to the video service lead to the fallback. -/
theorem fellBack_append (userIds : List UInt64) (user : UserInfo) (rest : List UserInfo)
    {asked looked : List Call} (hasked : ∀ call ∈ asked, call.isGetVideo = false)
    (hlooked : ∀ call ∈ looked, call.isGetVideo = true) :
    fellBack (.getUser userIds (.ok (user :: rest)) :: (asked ++ looked)) = true ↔
      ∃ call ∈ looked, call.failed = true := by
  rw [fellBack_iff, noticed_append hasked hlooked]
  simp [Call.nobody]

theorem serve_served (server : VideoRecServiceServer) (env : Env) (req : GetTopVideosRequest)
    (stats : Stats) : Served server env req stats (server.serve env req stats) := by
  cases huser : env.getUser 0 [req.userId] with
  | error err =>
      simp only [serve, huser]
      exact .fallback (by simp [fellBack, Call.failed])
  | ok users =>
      cases users with
      | nil =>
          simp only [serve, huser]
          exact .fallback (by simp [fellBack, Call.nobody])
      | cons user rest =>
          obtain ⟨asked, looked, vids, hasked, hlooked, hfailed, hserve⟩ :=
            server.serve_found env req stats huser
          have hfell := fellBack_append [req.userId] user rest hasked hlooked
          rw [hfailed] at hfell
          rw [hserve]
          cases vids with
          | error err => exact .fallback (hfell.mpr ⟨err, rfl⟩)
          | ok vids => exact .ranked _ (by simpa using hfell)

end VideoRecServiceServer

/-- A list that is cut at the limit: nothing comes back if and only if the limit is
negative, and no more than a positive limit allows. -/
theorem sliceTo_limNumVids_ne_none {limit : Int32} {videos : List VideoInfo} :
    GoSlice.sliceTo videos (limNumVids limit videos) ≠ none ↔ 0 ≤ limit.toInt := by
  by_cases hlimit : 0 ≤ limit.toInt
  · simp [sliceTo_limNumVids hlimit, hlimit]
  · simp [sliceTo_limNumVids_neg (Int.not_le.mp hlimit), hlimit]

theorem length_sliceTo_limNumVids {limit : Int32} {videos cut : List VideoInfo}
    (hcut : GoSlice.sliceTo videos (limNumVids limit videos) = some cut)
    (hlimit : 0 < limit.toInt) : (cut.length : Int) ≤ limit.toInt := by
  rw [sliceTo_limNumVids (Int.le_of_lt hlimit), if_neg (Int.ne_of_gt hlimit)] at hcut
  rw [← Option.some.inj hcut, List.length_take]
  omega

namespace VideoRecServiceServer

variable {server : VideoRecServiceServer} {env : Env} {req : GetTopVideosRequest}
  {stats : Stats} {outcome : Outcome}

theorem Served.returns_iff (h : Served server env req stats outcome) :
    outcome.result ≠ none ↔ 0 ≤ req.limit.toInt ∨
      (server.options.disableFallback = true ∧ fellBack outcome.calls = true) := by
  cases h with
  | fallback hfell =>
      unfold VideoRecServiceServer.fallback handleFallback
      cases hdisable : server.options.disableFallback with
      | true => simp [hfell]
      | false => simpa using sliceTo_limNumVids_ne_none
  | ranked rankedVids hfell => simpa [hfell] using sliceTo_limNumVids_ne_none

theorem Served.length_le (h : Served server env req stats outcome)
    {response : GetTopVideosResponse} (hresult : outcome.result = some (.ok response))
    (hlimit : 0 < req.limit.toInt) : (response.videos.length : Int) ≤ req.limit.toInt := by
  cases h with
  | fallback hfell =>
      unfold VideoRecServiceServer.fallback handleFallback at hresult
      cases hdisable : server.options.disableFallback with
      | true => simp [hdisable] at hresult
      | false =>
          simp only [hdisable, Bool.false_eq_true, if_false, Option.map_eq_some_iff] at hresult
          obtain ⟨cut, hcut, hresponse⟩ := hresult
          cases hresponse
          exact length_sliceTo_limNumVids hcut hlimit
  | ranked rankedVids hfell =>
      obtain ⟨cut, hcut, hresponse⟩ := Option.map_eq_some_iff.mp hresult
      cases hresponse
      exact length_sliceTo_limNumVids hcut hlimit

/-- A request comes to an end, with a response or an error, if and only if its limit is not
negative or it takes the fallback while that is disabled. -/
theorem getTopVideos_returns_iff (server : VideoRecServiceServer) (env : Env)
    (req : GetTopVideosRequest) (stats : Stats) :
    ((server.getTopVideos env req stats).result ≠ none ↔ 0 ≤ req.limit.toInt ∨
      (server.options.disableFallback = true ∧
        fellBack (server.getTopVideos env req stats).calls = true)) ∧
    ∀ response, (server.getTopVideos env req stats).result = some (.ok response) →
      0 < req.limit.toInt → (response.videos.length : Int) ≤ req.limit.toInt := by
  have hserved := server.serve_served env req
    { stats with
      totalActiveReqs := stats.totalActiveReqs + 1
      totalReqs := stats.totalReqs + 1 }
  exact ⟨hserved.returns_iff, fun response hresult => hserved.length_le hresult⟩

/-- The calls of `oneFailure` with a user service that is down. -/
def userServiceDown : Env :=
  { oneFailure with getUser := fun _ _ => .error UserServiceServer.injected }

/-- The limit -1 makes both paths panic. -/
theorem getTopVideos_negative_limit :
    ∃ server : VideoRecServiceServer, ∃ req stats,
      (fellBack (server.getTopVideos oneFailure req stats).calls = false ∧
        (server.getTopVideos oneFailure req stats).result = none) ∧
      fellBack (server.getTopVideos userServiceDown req stats).calls = true ∧
        (server.getTopVideos userServiceDown req stats).result = none := by
  refine ⟨⟨⟨1, by decide, false⟩, ⟨[], 0⟩⟩, ⟨1, -1⟩, ⟨0, 0, 0, 0, 0, 0, 0⟩, ⟨?_, ?_⟩, ?_, ?_⟩
  · decide
  · rfl
  · decide
  · rfl

end VideoRecServiceServer

end VideoLab
