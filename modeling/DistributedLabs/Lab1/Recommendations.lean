import DistributedLabs.Lab1.Services
import DistributedLabs.Library.GoSlice

/-!
`GetTopVideos` of the video recommendation service. A request asks the user service for the
user, then in batches for the users that the user subscribes to, and the video service in
batches for the videos that those like. What the calls return is left open, call by call;
all calls are recorded. `none` is a panic.
-/

namespace VideoLab

/-- With a batch size that is not positive the loops would not advance. -/
structure VideoRecServiceOptions where
  maxBatchSize : Nat
  maxBatchSize_pos : 1 ≤ maxBatchSize
  disableFallback : Bool

structure Stats where
  totalReqs : UInt64
  totalErrs : UInt64
  totalUsrServErrs : UInt64
  totalActiveReqs : Int64
  totalLatency : Int64
  totalStaleResp : UInt64
  totalVidServErrs : UInt64
  deriving DecidableEq

structure CachedVideos where
  videos : List VideoInfo
  timeout : Int64

structure VideoRecServiceServer where
  options : VideoRecServiceOptions
  trendingVids : CachedVideos

structure GetTopVideosRequest where
  userId : UInt64
  limit : Int32

structure GetTopVideosResponse where
  videos : List VideoInfo
  staleResponse : Bool
  deriving DecidableEq

inductive Call where
  | getUser (userIds : List UInt64) (result : Except Status (List UserInfo))
  | getVideo (videoIds : List UInt64) (result : Except Status (List VideoInfo))

namespace Call

def failed : Call → Bool
  | .getUser _ (.error _) | .getVideo _ (.error _) => true
  | .getUser _ (.ok _) | .getVideo _ (.ok _) => false

def isGetVideo : Call → Bool
  | .getUser _ _ => false
  | .getVideo _ _ => true

end Call

abbrev Ranker := Coeffs → Coeffs → UInt64

/-- `scores[i].Score > scores[j].Score` -/
def higherScore (x y : VideoInfo × UInt64) : Bool := x.2 > y.2

theorem higherScore_eq_false {x y : VideoInfo × UInt64} :
    higherScore y x = false ↔ y.2 ≤ x.2 := by
  simp [higherScore]

def stableScores : GoSlice.SortSlice higherScore :=
  .stable higherScore
    (fun x y => by
      rw [higherScore_eq_false, higherScore_eq_false]
      exact UInt64.le_total y.2 x.2)
    (fun x y z => by
      rw [higherScore_eq_false, higherScore_eq_false, higherScore_eq_false]
      exact fun hyx hzy => UInt64.le_trans hzy hyx)

/-- What a request finds outside: what the clients return for the `n`-th call of the
request, the ranker, the order in which `sort.Slice` leaves equal scores, and the times at
which the request starts and ends. -/
structure Env where
  getUser : Nat → List UInt64 → Except Status (List UserInfo)
  getVideo : Nat → List UInt64 → Except Status (List VideoInfo)
  rank : Ranker
  sortSlice : GoSlice.SortSlice higherScore
  started : Int64
  ended : Int64

/-- The result of a request, the new counters and the calls that were made, oldest first. -/
structure Outcome where
  result : Option (Except Status GetTopVideosResponse)
  stats : Stats
  calls : List Call

def deduplicate (items : List UInt64) : List UInt64 := firstOccurrences [] items

/-- The number of videos to return. -/
def limNumVids (limit : Int32) (videos : List VideoInfo) : Int :=
  if limit.toInt = 0 ∨ limit.toInt > videos.length then videos.length else limit.toInt

theorem sliceTo_limNumVids {limit : Int32} (h : 0 ≤ limit.toInt) (videos : List VideoInfo) :
    GoSlice.sliceTo videos (limNumVids limit videos) =
      some (videos.take
        (if limit.toInt = 0 then videos.length else min limit.toInt.toNat videos.length)) := by
  obtain ⟨n, hn⟩ := Int.eq_ofNat_of_zero_le h
  rw [limNumVids, hn]
  split
  · rename_i hall
    rw [GoSlice.sliceTo_natCast _ (Nat.le_refl _)]
    split
    · rfl
    · rw [Int.toNat_natCast, Nat.min_eq_right (by omega)]
  · rename_i hcut
    rw [GoSlice.sliceTo_natCast _ (by omega), if_neg (fun h0 => hcut (Or.inl h0)),
      Int.toNat_natCast, Nat.min_eq_left (by omega)]

theorem sliceTo_limNumVids_neg {limit : Int32} (h : limit.toInt < 0) (videos : List VideoInfo) :
    GoSlice.sliceTo videos (limNumVids limit videos) = none := by
  rw [limNumVids, if_neg (by omega), GoSlice.sliceTo, if_neg (by omega)]

namespace VideoRecServiceServer

variable (server : VideoRecServiceServer) (env : Env)

/-- The loop goes on after an error. -/
def subscribedLoop : List (List UInt64) → List UInt64 → List Call → List UInt64 × List Call
  | [], liked, calls => (liked, calls)
  | userIds :: batches, liked, calls =>
      match env.getUser calls.length userIds with
      | .error err => subscribedLoop batches liked (calls ++ [.getUser userIds (.error err)])
      | .ok users => subscribedLoop batches (liked ++ users.flatMap (·.likedVideos))
          (calls ++ [.getUser userIds (.ok users)])

def getSubscribedVideos (subscribedUserIDs : List UInt64) (calls : List Call) :
    List UInt64 × List Call :=
  subscribedLoop env (GoSlice.batches server.options.maxBatchSize subscribedUserIDs) [] calls

def videoLoop : List (List UInt64) → List VideoInfo → List Call →
    Except Status (List VideoInfo) × List Call
  | [], videos, calls => (.ok videos, calls)
  | videoIds :: batches, videos, calls =>
      match env.getVideo calls.length videoIds with
      | .error err => (.error err, calls ++ [.getVideo videoIds (.error err)])
      | .ok infos => videoLoop batches (videos ++ infos) (calls ++ [.getVideo videoIds (.ok infos)])

def getVideoInfo (videoIds : List UInt64) (calls : List Call) :
    Except Status (List VideoInfo) × List Call :=
  videoLoop env (GoSlice.batches server.options.maxBatchSize videoIds) [] calls

def rankerVids (userCoeffs : Coeffs) (videos : List VideoInfo) : List VideoInfo :=
  (env.sortSlice.sort
    (videos.map fun video => (video, env.rank userCoeffs video.videoCoefficients))).map Prod.fst

def handleFallback (req : GetTopVideosRequest) (stats : Stats) :
    Option (Except Status GetTopVideosResponse) × Stats :=
  if server.options.disableFallback then
    (some (.error ⟨.unavailable, "Fallback is disabled"⟩), stats)
  else
    ((GoSlice.sliceTo server.trendingVids.videos
        (limNumVids req.limit server.trendingVids.videos)).map fun videos => .ok ⟨videos, true⟩,
      { stats with totalStaleResp := stats.totalStaleResp + 1 })

/-- Both error paths count an error of the user service. -/
def fallback (req : GetTopVideosRequest) (stats : Stats) (calls : List Call) : Outcome :=
  let stats :=
    if server.options.disableFallback then
      { stats with
        totalUsrServErrs := stats.totalUsrServErrs + 1
        totalErrs := stats.totalErrs + 1 }
    else stats
  let (result, stats) := server.handleFallback req stats
  ⟨result, stats, calls⟩

def serve (req : GetTopVideosRequest) (stats : Stats) : Outcome :=
  let usrResp := env.getUser 0 [req.userId]
  let calls := [.getUser [req.userId] usrResp]
  match usrResp with
  | .error _ | .ok [] => server.fallback req stats calls
  | .ok (users :: _) =>
      let (liked, calls) := server.getSubscribedVideos env users.subscribedTo calls
      let (vids, calls) := server.getVideoInfo env (deduplicate liked) calls
      match vids with
      | .error _ => server.fallback req stats calls
      | .ok vids =>
          let rankedVids := rankerVids env users.userCoefficients vids
          let stats := { stats with
            totalLatency := stats.totalLatency + (env.ended - env.started) }
          ⟨(GoSlice.sliceTo rankedVids (limNumVids req.limit rankedVids)).map
            fun videos => .ok ⟨videos, false⟩, stats, calls⟩

/-- The number of active requests goes up at the start and down at the end. -/
def getTopVideos (req : GetTopVideosRequest) (stats : Stats) : Outcome :=
  let stats := { stats with
    totalActiveReqs := stats.totalActiveReqs + 1
    totalReqs := stats.totalReqs + 1 }
  let outcome := server.serve env req stats
  { outcome with
    stats := { outcome.stats with totalActiveReqs := outcome.stats.totalActiveReqs - 1 } }

end VideoRecServiceServer

end VideoLab
