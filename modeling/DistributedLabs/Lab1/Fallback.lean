import DistributedLabs.Lab1.Recommendations

/-!
What becomes of failed calls in `GetTopVideos`. A failure of the call for the user or of a
call to the video service leads to the fallback. A failure of a call for subscribed users is
only logged.
-/

namespace VideoLab

/-- The request ended in an error or in a response that says it is stale. A panic is
neither. -/
def Outcome.Disclosed (outcome : Outcome) : Prop :=
  match outcome.result with
  | some (.error _) => True
  | some (.ok response) => response.staleResponse = true
  | none => False

theorem fresh_not_disclosed (videos : Option (List VideoInfo)) (stats : Stats)
    (calls : List Call) :
    ¬ (⟨videos.map fun videos => .ok ⟨videos, false⟩, stats, calls⟩ : Outcome).Disclosed := by
  cases videos with
  | none => simp [Outcome.Disclosed]
  | some videos => simp [Outcome.Disclosed]

/-- A failure of the first call or of a call to the video service leads to the fallback. -/
def Noticed (calls : List Call) : Prop :=
  (∃ call ∈ calls.head?, call.failed = true) ∨
    ∃ call ∈ calls, call.isGetVideo = true ∧ call.failed = true

theorem noticed_singleton {call : Call} (h : call.failed = true) : Noticed [call] :=
  Or.inl ⟨call, rfl, h⟩

/-- After a call for the user that succeeded only those to the video service count. -/
theorem noticed_append {userIds : List UInt64} {users : List UserInfo}
    {asked looked : List Call} (hasked : ∀ call ∈ asked, call.isGetVideo = false)
    (hlooked : ∀ call ∈ looked, call.isGetVideo = true) :
    Noticed (.getUser userIds (.ok users) :: (asked ++ looked)) ↔
      ∃ call ∈ looked, call.failed = true := by
  constructor
  · intro h
    cases h with
    | inl hhead =>
        obtain ⟨call, hcall, hfail⟩ := hhead
        cases hcall
        cases hfail
    | inr hvideo =>
        obtain ⟨call, hcall, hvideo, hfail⟩ := hvideo
        cases hcall with
        | head => cases hvideo
        | tail _ hcall =>
            cases List.mem_append.mp hcall with
            | inl hin => exact absurd hvideo (Bool.eq_false_iff.mp (hasked call hin))
            | inr hin => exact ⟨call, hin, hfail⟩
  · intro h
    obtain ⟨call, hcall, hfail⟩ := h
    refine Or.inr ⟨call, ?_, hlooked call hcall, hfail⟩
    exact List.mem_cons_of_mem _ (List.mem_append_right _ hcall)

namespace VideoRecServiceServer

variable {server : VideoRecServiceServer} (env : Env) {req : GetTopVideosRequest}
  {stats : Stats}

theorem subscribedLoop_calls (batches : List (List UInt64)) (liked : List UInt64)
    (calls : List Call) :
    ∃ liked' new, subscribedLoop env batches liked calls = (liked', calls ++ new) ∧
      ∀ call ∈ new, call.isGetVideo = false := by
  induction batches generalizing liked calls with
  | nil => exact ⟨liked, [], by simp [subscribedLoop], by simp⟩
  | cons userIds batches ih =>
      simp only [subscribedLoop]
      split
      · rename_i err _
        obtain ⟨liked', new, hloop, hnew⟩ :=
          ih liked (calls ++ [.getUser userIds (.error err)])
        refine ⟨liked', .getUser userIds (.error err) :: new, by simpa using hloop, ?_⟩
        simpa [Call.isGetVideo] using hnew
      · rename_i users _
        obtain ⟨liked', new, hloop, hnew⟩ := ih (liked ++ users.flatMap (·.likedVideos))
          (calls ++ [.getUser userIds (.ok users)])
        refine ⟨liked', .getUser userIds (.ok users) :: new, by simpa using hloop, ?_⟩
        simpa [Call.isGetVideo] using hnew

/-- The loop ends in an error if and only if one of its calls failed. -/
theorem videoLoop_calls (batches : List (List UInt64)) (videos : List VideoInfo)
    (calls : List Call) :
    ∃ vids new, videoLoop env batches videos calls = (vids, calls ++ new) ∧
      (∀ call ∈ new, call.isGetVideo = true) ∧
      ((∃ call ∈ new, call.failed = true) ↔ ∃ err, vids = .error err) := by
  induction batches generalizing videos calls with
  | nil => exact ⟨.ok videos, [], by simp [videoLoop], by simp, by simp⟩
  | cons videoIds batches ih =>
      simp only [videoLoop]
      split
      · rename_i err _
        exact ⟨.error err, [.getVideo videoIds (.error err)], rfl, by simp [Call.isGetVideo],
          by simp [Call.failed]⟩
      · rename_i infos _
        obtain ⟨vids, new, hloop, hnew, hfailed⟩ :=
          ih (videos ++ infos) (calls ++ [.getVideo videoIds (.ok infos)])
        refine ⟨vids, .getVideo videoIds (.ok infos) :: new, by simpa using hloop, ?_, ?_⟩
        · simpa [Call.isGetVideo] using hnew
        · simpa [Call.failed] using hfailed

/-- The fallback is cut short only by a negative limit. -/
theorem fallback_disclosed (calls : List Call) :
    (server.fallback req stats calls).Disclosed ↔
      server.options.disableFallback = true ∨ 0 ≤ req.limit.toInt := by
  unfold fallback handleFallback Outcome.Disclosed
  cases hdisable : server.options.disableFallback with
  | true => simp
  | false =>
      by_cases hlimit : 0 ≤ req.limit.toInt
      · simp [sliceTo_limNumVids hlimit, hlimit]
      · simp [sliceTo_limNumVids_neg (Int.not_le.mp hlimit), hlimit]

/-- A request whose user is found makes its calls to the user service and then those to the
video service, which end in an error if and only if one of them failed. -/
theorem serve_found (server : VideoRecServiceServer) (req : GetTopVideosRequest)
    (stats : Stats) {user : UserInfo} {rest : List UserInfo}
    (huser : env.getUser 0 [req.userId] = .ok (user :: rest)) :
    ∃ asked looked vids,
      (∀ call ∈ asked, call.isGetVideo = false) ∧ (∀ call ∈ looked, call.isGetVideo = true) ∧
      ((∃ call ∈ looked, call.failed = true) ↔ ∃ err, vids = .error err) ∧
      server.serve env req stats =
        match (vids : Except Status (List VideoInfo)) with
        | .error _ => server.fallback req stats
            (.getUser [req.userId] (.ok (user :: rest)) :: (asked ++ looked))
        | .ok vids =>
            ⟨(GoSlice.sliceTo (rankerVids env user.userCoefficients vids)
              (limNumVids req.limit (rankerVids env user.userCoefficients vids))).map
                fun videos => .ok ⟨videos, false⟩,
              { stats with totalLatency := stats.totalLatency + (env.ended - env.started) },
              .getUser [req.userId] (.ok (user :: rest)) :: (asked ++ looked)⟩ := by
  obtain ⟨liked, asked, hsubscribed, hasked⟩ := subscribedLoop_calls env
    (GoSlice.batches server.options.maxBatchSize user.subscribedTo) []
    [.getUser [req.userId] (.ok (user :: rest))]
  obtain ⟨vids, looked, hvideos, hlooked, hfailed⟩ := videoLoop_calls env
    (GoSlice.batches server.options.maxBatchSize (deduplicate liked)) []
    ([.getUser [req.userId] (.ok (user :: rest))] ++ asked)
  refine ⟨asked, looked, vids, hasked, hlooked, hfailed, ?_⟩
  simp only [serve, huser, getSubscribedVideos, hsubscribed, getVideoInfo, hvideos]
  rfl

/-- The calls after the first one: those to the user service, whose failures are passed
over, and those to the video service, of which a failed one ends the request with the
fallback. -/
theorem serve_calls (server : VideoRecServiceServer) (req : GetTopVideosRequest)
    (stats : Stats) {user : UserInfo} {rest : List UserInfo}
    (huser : env.getUser 0 [req.userId] = .ok (user :: rest)) :
    ∃ asked looked,
      (server.serve env req stats).calls =
        .getUser [req.userId] (.ok (user :: rest)) :: (asked ++ looked) ∧
      (∀ call ∈ asked, call.isGetVideo = false) ∧ (∀ call ∈ looked, call.isGetVideo = true) ∧
      ((server.serve env req stats).Disclosed ↔ (∃ call ∈ looked, call.failed = true) ∧
        (server.options.disableFallback = true ∨ 0 ≤ req.limit.toInt)) := by
  obtain ⟨asked, looked, vids, hasked, hlooked, hfailed, hserve⟩ :=
    server.serve_found env req stats huser
  rw [hserve]
  refine ⟨asked, looked, ?_, hasked, hlooked, ?_⟩
  · cases vids with
    | error err => rfl
    | ok vids => rfl
  · rw [hfailed]
    cases vids with
    | error err => exact (fallback_disclosed _).trans (and_iff_right ⟨err, rfl⟩).symm
    | ok vids =>
        exact iff_of_false (fresh_not_disclosed _ _ _) (by simp)

/-- A failed call is disclosed if and only if one was noticed and the fallback returns. -/
theorem serve_disclosed
    (hfailed : ∃ call ∈ (server.serve env req stats).calls, call.failed = true) :
    (server.serve env req stats).Disclosed ↔
      Noticed (server.serve env req stats).calls ∧
        (server.options.disableFallback = true ∨ 0 ≤ req.limit.toInt) := by
  cases huser : env.getUser 0 [req.userId] with
  | error err =>
      have hserve : server.serve env req stats =
          server.fallback req stats [.getUser [req.userId] (.error err)] := by
        simp only [serve, huser]
      have hnoticed : Noticed [.getUser [req.userId] (.error err)] :=
        noticed_singleton rfl
      rw [hserve, fallback_disclosed]
      exact (and_iff_right hnoticed).symm
  | ok users =>
      cases users with
      | nil => simp [serve, huser, fallback, Call.failed] at hfailed
      | cons user rest =>
          obtain ⟨asked, looked, hcalls, hasked, hlooked, hdisclosed⟩ :=
            server.serve_calls env req stats huser
          rw [hdisclosed, hcalls, noticed_append hasked hlooked]

/-- No matter which calls fail: failures are disclosed if and only if, when there is one,
one is noticed and the fallback returns. -/
theorem failures_disclosed (server : VideoRecServiceServer) (req : GetTopVideosRequest)
    (stats : Stats) :
    ((∃ call ∈ (server.getTopVideos env req stats).calls, call.failed = true) →
      (server.getTopVideos env req stats).Disclosed) ↔
    ((∃ call ∈ (server.getTopVideos env req stats).calls, call.failed = true) →
      Noticed (server.getTopVideos env req stats).calls ∧
        (server.options.disableFallback = true ∨ 0 ≤ req.limit.toInt)) :=
  imp_congr_right (serve_disclosed env)

/-- User 1 subscribes to 2 and 3. The call for 2 fails; 3 likes video 7. -/
def oneFailure : Env where
  getUser n _ :=
    if n = 0 then .ok [⟨[2, 3], ∅, []⟩]
    else if n = 1 then .error UserServiceServer.injected
    else .ok [⟨[], ∅, [7]⟩]
  getVideo _ videoIds := .ok (videoIds.map fun videoId => ⟨videoId, ∅⟩)
  rank _ _ := 0
  sortSlice := stableScores
  started := 0
  ended := 1

theorem subscription_failure_undisclosed :
    ∃ server : VideoRecServiceServer, ∃ env req stats,
      (∃ call ∈ (server.getTopVideos env req stats).calls, call.failed = true) ∧
      (server.getTopVideos env req stats).result = some (.ok ⟨[⟨7, ∅⟩], false⟩) := by
  refine ⟨⟨⟨1, by decide, false⟩, ⟨[], 0⟩⟩, oneFailure, ⟨1, 0⟩, ⟨0, 0, 0, 0, 0, 0, 0⟩, ?_, ?_⟩
  · decide
  · rfl

end VideoRecServiceServer

end VideoLab
