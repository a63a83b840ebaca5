import DistributedLabs.Lab1.Recommendations

/-!
`GetTopVideos` against its two backends when nothing fails. The checks of the backends
accept every batch, and the answer is the first part of a ranking of the videos liked by
the users that the user subscribes to.
-/

namespace VideoLab

variable (users : UserServiceServer) (videos : VideoServiceServer)

/-- The clients are connected to the backends and no failures are injected. -/
def backends (rank : Ranker) (sortSlice : GoSlice.SortSlice higherScore)
    (started ended : Int64) : Env where
  getUser _ userIds := users.getUser false userIds
  getVideo _ videoIds := videos.getVideo false videoIds
  rank := rank
  sortSlice := sortSlice
  started := started
  ended := ended

/-- All ids that the users refer to exist. -/
structure Consistent : Prop where
  subscribed : ∀ id user, users.users.lookup id = some user →
    ∀ userId ∈ user.subscribedTo, userId ∈ users.users
  liked : ∀ id user, users.users.lookup id = some user →
    ∀ videoId ∈ user.likedVideos, videoId ∈ videos.videos

/-- The call meets the rules of the backends and was answered. -/
def Call.Passes (size : Nat) : Call → Prop
  | .getUser userIds result =>
      userIds ≠ [] ∧ userIds.length ≤ size ∧
        ∃ infos, users.getUser false userIds = .ok infos ∧ result = .ok infos
  | .getVideo videoIds result =>
      videoIds ≠ [] ∧ videoIds.length ≤ size ∧ videoIds.Nodup ∧
        ∃ infos, videos.getVideo false videoIds = .ok infos ∧ result = .ok infos

/-- The call for the user, one call for each batch of users and one for each batch of
videos, all answered with what the databases hold. -/
def answeredCalls (userId : UInt64) (user : UserInfo)
    (userBatches videoBatches : List (List UInt64)) : List Call :=
  .getUser [userId] (.ok [user]) ::
    (userBatches.map (fun batch => .getUser batch (.ok (batch.filterMap users.users.lookup))) ++
      videoBatches.map fun batch => .getVideo batch (.ok (batch.filterMap videos.videos.lookup)))

/-- The videos `ids` are those liked by a user that `user` subscribes to, each once, and
`ranked` has their infos with descending scores. -/
structure Ranking (rank : Ranker) (user : UserInfo) (ids : List UInt64)
    (ranked : List VideoInfo) : Prop where
  nodup : ids.Nodup
  mem_ids : ∀ id, id ∈ ids ↔ ∃ userId ∈ user.subscribedTo, ∃ info,
    users.users.lookup userId = some info ∧ id ∈ info.likedVideos
  perm : (ranked.map some).Perm (ids.map videos.videos.lookup)
  sorted : ranked.Pairwise fun v w =>
    rank user.userCoefficients w.videoCoefficients ≤
      rank user.userCoefficients v.videoCoefficients

/-- What a map holds under ids that all exist. -/
theorem map_some_filterMap_lookup {ν : Type} {infos : GoMap UInt64 ν} {ids : List UInt64}
    (h : ∀ id ∈ ids, id ∈ infos) :
    (ids.filterMap infos.lookup).map some = ids.map infos.lookup := by
  induction ids with
  | nil => rfl
  | cons id ids ih =>
      obtain ⟨info, hinfo⟩ := Option.isSome_iff_exists.mp
        (AList.lookup_isSome.mpr (h id List.mem_cons_self))
      have hrest := ih fun other ho => h other (List.mem_cons_of_mem _ ho)
      simp only [List.filterMap_cons, List.map_cons, hinfo, hrest]

namespace VideoRecServiceServer

section Loops

variable {env : Env}

/-- Every call is answered: the loop collects what the users like, batch after batch. -/
theorem subscribedLoop_ok {infos : UInt64 → Option UserInfo} {batches : List (List UInt64)}
    (h : ∀ batch ∈ batches, ∀ n, env.getUser n batch = .ok (batch.filterMap infos))
    (liked : List UInt64) (calls : List Call) :
    subscribedLoop env batches liked calls =
      (liked ++ (batches.flatten.filterMap infos).flatMap (·.likedVideos),
        calls ++ batches.map fun batch => .getUser batch (.ok (batch.filterMap infos))) := by
  induction batches generalizing liked calls with
  | nil => simp [subscribedLoop]
  | cons batch batches ih =>
      rw [subscribedLoop, h batch List.mem_cons_self]
      simp only
      rw [ih fun other ho => h other (List.mem_cons_of_mem _ ho)]
      simp

theorem videoLoop_ok {infos : UInt64 → Option VideoInfo} {batches : List (List UInt64)}
    (h : ∀ batch ∈ batches, ∀ n, env.getVideo n batch = .ok (batch.filterMap infos))
    (vids : List VideoInfo) (calls : List Call) :
    videoLoop env batches vids calls =
      (.ok (vids ++ batches.flatten.filterMap infos),
        calls ++ batches.map fun batch => .getVideo batch (.ok (batch.filterMap infos))) := by
  induction batches generalizing vids calls with
  | nil => simp [videoLoop]
  | cons batch batches ih =>
      rw [videoLoop, h batch List.mem_cons_self]
      simp only
      rw [ih fun other ho => h other (List.mem_cons_of_mem _ ho)]
      simp

theorem rankerVids_perm (userCoeffs : Coeffs) (vids : List VideoInfo) :
    (rankerVids env userCoeffs vids).Perm vids := by
  have hperm := (env.sortSlice.perm
    (vids.map fun video => (video, env.rank userCoeffs video.videoCoefficients))).map Prod.fst
  simpa [rankerVids, Function.comp_def] using hperm

theorem rankerVids_sorted (userCoeffs : Coeffs) (vids : List VideoInfo) :
    (rankerVids env userCoeffs vids).Pairwise fun v w =>
      env.rank userCoeffs w.videoCoefficients ≤ env.rank userCoeffs v.videoCoefficients := by
  let scores := vids.map fun video => (video, env.rank userCoeffs video.videoCoefficients)
  have hscore : ∀ x ∈ env.sortSlice.sort scores,
      x.2 = env.rank userCoeffs x.1.videoCoefficients := by
    intro x hx
    obtain ⟨video, _, rfl⟩ := List.mem_map.mp ((env.sortSlice.perm scores).mem_iff.mp hx)
    rfl
  refine List.pairwise_map.mpr ((env.sortSlice.sorted scores).imp_of_mem ?_)
  intro x y hx hy hless
  rw [← hscore x hx, ← hscore y hy]
  exact higherScore_eq_false.mp hless

end Loops

section Backends

variable {users : UserServiceServer} {videos : VideoServiceServer}
variable {server : VideoRecServiceServer} {ids : List UInt64}

theorem getUser_single (hmax : 1 ≤ users.maxBatchSize) {id : UInt64} {user : UserInfo}
    (huser : users.users.lookup id = some user) : users.getUser false [id] = .ok [user] := by
  have hmem : id ∈ users.users := AList.lookup_isSome.mp (Option.isSome_of_eq_some huser)
  rw [users.getUser_ok (List.cons_ne_nil id []) hmax
    fun _ h => List.mem_singleton.mp h ▸ hmem]
  simp [huser]

theorem getUser_batch (hmax : server.options.maxBatchSize ≤ users.maxBatchSize)
    (hids : ∀ id ∈ ids, id ∈ users.users) {batch : List UInt64}
    (hbatch : batch ∈ GoSlice.batches server.options.maxBatchSize ids) :
    users.getUser false batch = .ok (batch.filterMap users.users.lookup) := by
  obtain ⟨hne, hlen, hsub⟩ := GoSlice.mem_batches server.options.maxBatchSize_pos hbatch
  exact users.getUser_ok hne (by omega) fun id hid => hids id (hsub.subset hid)

theorem getVideo_batch (hmax : server.options.maxBatchSize ≤ videos.maxBatchSize)
    (hids : ∀ id ∈ ids, id ∈ videos.videos) (hnodup : ids.Nodup) {batch : List UInt64}
    (hbatch : batch ∈ GoSlice.batches server.options.maxBatchSize ids) :
    videos.getVideo false batch = .ok (batch.filterMap videos.videos.lookup) := by
  obtain ⟨hne, hlen, hsub⟩ := GoSlice.mem_batches server.options.maxBatchSize_pos hbatch
  exact videos.getVideo_ok hne (by omega) (hnodup.sublist hsub)
    fun id hid => hids id (hsub.subset hid)

end Backends

/-- The distinct ids of the liked videos, in the order in which they are met. -/
def likedIds (user : UserInfo) : List UInt64 :=
  deduplicate ((user.subscribedTo.filterMap users.users.lookup).flatMap (·.likedVideos))

theorem mem_likedIds (user : UserInfo) (id : UInt64) :
    id ∈ likedIds users user ↔ ∃ userId ∈ user.subscribedTo, ∃ info,
      users.users.lookup userId = some info ∧ id ∈ info.likedVideos := by
  simp only [likedIds, deduplicate, mem_firstOccurrences, List.not_mem_nil, not_false_iff,
    and_true, List.mem_flatMap, List.mem_filterMap]
  constructor
  · rintro ⟨info, ⟨userId, hsub, hinfo⟩, hid⟩
    exact ⟨userId, hsub, info, hinfo, hid⟩
  · rintro ⟨userId, hsub, info, hinfo, hid⟩
    exact ⟨info, ⟨userId, hsub, hinfo⟩, hid⟩

section Agreement

variable {users : UserServiceServer} {videos : VideoServiceServer}
variable (hdb : Consistent users videos)
include hdb

theorem likedIds_exist (user : UserInfo) : ∀ id ∈ likedIds users user, id ∈ videos.videos := by
  intro id hid
  obtain ⟨userId, _, info, hinfo, hliked⟩ := (mem_likedIds users user id).mp hid
  exact hdb.liked userId info hinfo id hliked

theorem ranking_rankerVids (env : Env) (user : UserInfo) :
    Ranking users videos env.rank user (likedIds users user)
      (rankerVids env user.userCoefficients
        ((likedIds users user).filterMap videos.videos.lookup)) where
  nodup := nodup_firstOccurrences
  mem_ids := mem_likedIds users user
  perm := by
    rw [← map_some_filterMap_lookup (likedIds_exist hdb user)]
    exact (rankerVids_perm _ _).map some
  sorted := rankerVids_sorted _ _

variable (server : VideoRecServiceServer)
variable (hmaxUsers : server.options.maxBatchSize ≤ users.maxBatchSize)
variable (hmaxVideos : server.options.maxBatchSize ≤ videos.maxBatchSize)
include hmaxUsers hmaxVideos

/-- The request makes the call for the user and one call for each batch, and takes the first
part of the ranking. -/
theorem serve_backends (rank : Ranker) (sortSlice : GoSlice.SortSlice higherScore)
    (started ended : Int64) (req : GetTopVideosRequest) (stats : Stats) {user : UserInfo}
    (huser : users.users.lookup req.userId = some user) :
    let env := backends users videos rank sortSlice started ended
    let ranked := rankerVids env user.userCoefficients
      ((likedIds users user).filterMap videos.videos.lookup)
    (server.serve env req stats).calls = answeredCalls users videos req.userId user
        (GoSlice.batches server.options.maxBatchSize user.subscribedTo)
        (GoSlice.batches server.options.maxBatchSize (likedIds users user)) ∧
      (server.serve env req stats).result =
        (GoSlice.sliceTo ranked (limNumVids req.limit ranked)).map
          fun videos => .ok ⟨videos, false⟩ := by
  intro env ranked
  have hpos := server.options.maxBatchSize_pos
  have hfirst : env.getUser 0 [req.userId] = .ok [user] :=
    getUser_single (by omega) huser
  have hsubscribed : server.getSubscribedVideos env user.subscribedTo
      [.getUser [req.userId] (.ok [user])] = _ :=
    subscribedLoop_ok
      (fun batch hb _ => getUser_batch hmaxUsers (hdb.subscribed _ _ huser) hb) [] _
  have hvideos : ∀ calls, server.getVideoInfo env (likedIds users user) calls = _ :=
    videoLoop_ok (fun batch hb _ => getVideo_batch hmaxVideos (likedIds_exist hdb user)
      nodup_firstOccurrences hb) []
  rw [GoSlice.batches_flatten hpos, List.nil_append] at hsubscribed
  simp only [GoSlice.batches_flatten hpos, List.nil_append] at hvideos
  simp only [serve, hfirst, hsubscribed]
  rw [← likedIds, hvideos]
  exact ⟨List.append_assoc _ _ _, rfl⟩

/-- Every call passes the checks of its backend. -/
theorem calls_pass {user : UserInfo} {id : UInt64}
    (huser : users.users.lookup id = some user) :
    ∀ call ∈ answeredCalls users videos id user
        (GoSlice.batches server.options.maxBatchSize user.subscribedTo)
        (GoSlice.batches server.options.maxBatchSize (likedIds users user)),
      call.Passes users videos server.options.maxBatchSize := by
  have hpos := server.options.maxBatchSize_pos
  intro call hcall
  rcases List.mem_cons.mp hcall with rfl | hcall
  · exact ⟨List.cons_ne_nil _ _, hpos, [user], getUser_single (by omega) huser, rfl⟩
  · rcases List.mem_append.mp hcall with hcall | hcall
    · obtain ⟨batch, hbatch, rfl⟩ := List.mem_map.mp hcall
      obtain ⟨hne, hlen, _⟩ := GoSlice.mem_batches hpos hbatch
      exact ⟨hne, hlen, _, getUser_batch hmaxUsers (hdb.subscribed _ _ huser) hbatch, rfl⟩
    · obtain ⟨batch, hbatch, rfl⟩ := List.mem_map.mp hcall
      obtain ⟨hne, hlen, hsub⟩ := GoSlice.mem_batches hpos hbatch
      have hnodup : (likedIds users user).Nodup := nodup_firstOccurrences
      exact ⟨hne, hlen, hnodup.sublist hsub, _,
        getVideo_batch hmaxVideos (likedIds_exist hdb user) hnodup hbatch, rfl⟩

/-- For every pair of databases, every ranker and every order that `sort.Slice` may leave:
all calls pass, the batches make up the subscribed users and the liked videos, and the
answer is the first part of the ranking. -/
theorem agrees_with_backends (rank : Ranker) (sortSlice : GoSlice.SortSlice higherScore)
    (started ended : Int64) (req : GetTopVideosRequest) (stats : Stats) {user : UserInfo}
    (huser : users.users.lookup req.userId = some user) (hlimit : 0 ≤ req.limit.toInt) :
    ∃ userBatches videoBatches : List (List UInt64), ∃ ids ranked,
      let outcome := server.getTopVideos
        (backends users videos rank sortSlice started ended) req stats
      outcome.calls =
        answeredCalls users videos req.userId user userBatches videoBatches ∧
      (∀ call ∈ outcome.calls, call.Passes users videos server.options.maxBatchSize) ∧
      userBatches.flatten = user.subscribedTo ∧ videoBatches.flatten = ids ∧
      Ranking users videos rank user ids ranked ∧
      outcome.result = some (.ok ⟨ranked.take
        (if req.limit.toInt = 0 then ranked.length else min req.limit.toInt.toNat ranked.length),
        false⟩) := by
  have hpos := server.options.maxBatchSize_pos
  obtain ⟨hcalls, hresult⟩ := serve_backends hdb server hmaxUsers hmaxVideos rank sortSlice
    started ended req
    { stats with
      totalActiveReqs := stats.totalActiveReqs + 1
      totalReqs := stats.totalReqs + 1 } huser
  refine ⟨_, _, likedIds users user, _, hcalls, ?_, GoSlice.batches_flatten hpos _,
    GoSlice.batches_flatten hpos _,
    ranking_rankerVids hdb (backends users videos rank sortSlice started ended) user, ?_⟩
  · intro call hcall
    exact calls_pass hdb server hmaxUsers hmaxVideos huser call (hcalls ▸ hcall)
  · rw [sliceTo_limNumVids hlimit, Option.map_some] at hresult
    exact hresult

end Agreement

/-- User 1 subscribes to 2 twice and to 3; both like video 8. -/
def threeUsers : UserServiceServer where
  maxBatchSize := 2
  users := GoMap.insertAll ∅ [(1, ⟨[2, 3, 2], ∅, []⟩), (2, ⟨[], ∅, [7, 8]⟩), (3, ⟨[], ∅, [8, 9]⟩)]

def threeVideos : VideoServiceServer where
  maxBatchSize := 3
  videos := GoMap.insertAll ∅
    [(7, ⟨7, AList.singleton 0 70⟩), (8, ⟨8, AList.singleton 0 80⟩),
      (9, ⟨9, AList.singleton 0 90⟩)]

theorem consistent_threeUsers : Consistent threeUsers threeVideos := by
  -- As lists of tests: `decide` must not range over all ids.
  have hsubscribed : (GoMap.items threeUsers.users).all (fun e =>
      e.2.subscribedTo.all fun id => decide (id ∈ threeUsers.users)) = true := by
    decide
  have hliked : (GoMap.items threeUsers.users).all (fun e =>
      e.2.likedVideos.all fun id => decide (id ∈ threeVideos.videos)) = true := by
    decide
  constructor
  · intro id user h userId hmem
    have huser := List.all_eq_true.mp hsubscribed (id, user) (GoMap.mem_items.mpr h)
    exact of_decide_eq_true (List.all_eq_true.mp huser userId hmem)
  · intro id user h videoId hmem
    have huser := List.all_eq_true.mp hliked (id, user) (GoMap.mem_items.mpr h)
    exact of_decide_eq_true (List.all_eq_true.mp huser videoId hmem)

/-- A request for two videos with batches of two: two calls for users, two for videos. -/
def sharedVideo : Outcome :=
  (⟨⟨2, by decide, false⟩, ⟨[], 0⟩⟩ : VideoRecServiceServer).getTopVideos
    (backends threeUsers threeVideos (fun _ coeffs => (coeffs.lookup 0).getD 0) stableScores 0 5)
    ⟨1, 2⟩ ⟨0, 0, 0, 0, 0, 0, 0⟩

theorem agrees_with_backends_shared_video :
    sharedVideo.calls.length = 5 ∧
    (∀ call ∈ sharedVideo.calls, call.Passes threeUsers threeVideos 2) ∧
    sharedVideo.result =
      some (.ok ⟨[⟨9, AList.singleton 0 90⟩, ⟨8, AList.singleton 0 80⟩], false⟩) ∧
    ∃ ids ranked, Ranking threeUsers threeVideos (fun _ coeffs => (coeffs.lookup 0).getD 0)
        ⟨[2, 3, 2], ∅, []⟩ ids ranked ∧
      sharedVideo.result = some (.ok ⟨ranked.take (min 2 ranked.length), false⟩) := by
  obtain ⟨_, _, ids, ranked, _, hpass, _, _, hranking, hresult⟩ :=
    agrees_with_backends consistent_threeUsers ⟨⟨2, by decide, false⟩, ⟨[], 0⟩⟩
      (by decide) (by decide)
      (fun _ coeffs => (coeffs.lookup 0).getD 0) stableScores 0 5 ⟨1, 2⟩ ⟨0, 0, 0, 0, 0, 0, 0⟩
      rfl (by decide)
  exact ⟨rfl, hpass, rfl, ids, ranked, hranking, hresult⟩

end VideoRecServiceServer

end VideoLab
