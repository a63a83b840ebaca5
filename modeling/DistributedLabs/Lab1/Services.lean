import DistributedLabs.Library.GoMap

/-!
The two backends of the video recommendations: `GetUser` of the user service and
`GetVideo` of the video service, with their checks and their errors. Whether a failure is
injected is a parameter of each call.
-/

namespace VideoLab

inductive Code where
  | internal
  | invalidArgument
  | notFound
  | unavailable
  deriving DecidableEq

structure Status where
  code : Code
  message : String
  deriving DecidableEq

/-- A sparse vector of features. -/
abbrev Coeffs := GoMap Int32 UInt64

structure UserInfo where
  subscribedTo : List UInt64
  userCoefficients : Coeffs
  likedVideos : List UInt64
  deriving DecidableEq

structure VideoInfo where
  videoId : UInt64
  videoCoefficients : Coeffs
  deriving DecidableEq

/-- The elements that are not in the set, each at its first occurrence. -/
def firstOccurrences : List UInt64 → List UInt64 → List UInt64
  | _, [] => []
  | set, id :: ids =>
      if id ∈ set then firstOccurrences set ids
      else id :: firstOccurrences (id :: set) ids

def deduplicateIds (ids : List UInt64) : List UInt64 := firstOccurrences [] ids

/-- The loop over the requested ids, which ends at the first one that is not there. -/
def lookupAll {ν : Type} (infos : GoMap UInt64 ν) (missing : UInt64 → Status) :
    List UInt64 → List ν → Except Status (List ν)
  | [], found => .ok found
  | id :: ids, found =>
      match infos.lookup id with
      | some info => lookupAll infos missing ids (found ++ [info])
      | none => .error (missing id)

structure UserServiceServer where
  maxBatchSize : Int
  users : GoMap UInt64 UserInfo

structure VideoServiceServer where
  maxBatchSize : Int
  videos : GoMap UInt64 VideoInfo

namespace UserServiceServer

variable (db : UserServiceServer)

def injected : Status := ⟨.internal, "UserService: (injected) internal error!"⟩

def empty : Status :=
  ⟨.invalidArgument, "UserService: user_ids in GetUserRequest should not be empty"⟩

def exceeded : Status :=
  ⟨.invalidArgument,
    "UserService: user_ids exceeded the max batch size " ++ toString db.maxBatchSize⟩

def missing (userId : UInt64) : Status :=
  ⟨.notFound, "UserService: user " ++ toString userId ++
    " cannot be found, it may have been deleted or never existed in the first place."⟩

def getUser (shouldError : Bool) (userIds : List UInt64) : Except Status (List UserInfo) :=
  if shouldError then .error injected
  else if userIds.length = 0 then .error empty
  else if userIds.length > db.maxBatchSize then .error db.exceeded
  else lookupAll db.users missing userIds []

end UserServiceServer

namespace VideoServiceServer

variable (db : VideoServiceServer)

def injected : Status := ⟨.internal, "VideoService: (injected) internal error!"⟩

def empty : Status :=
  ⟨.invalidArgument, "VideoService: video_ids in GetVideoRequest should not be empty"⟩

def exceeded : Status :=
  ⟨.invalidArgument,
    "VideoService: video_ids exceeded the max batch size " ++ toString db.maxBatchSize⟩

def duplicates : Status :=
  ⟨.invalidArgument, "VideoService: duplicate IDs found in video_ids"⟩

def missing (videoId : UInt64) : Status :=
  ⟨.notFound, "VideoService: video " ++ toString videoId ++
    " cannot be found, it may have been deleted or never existed in the first place."⟩

def getVideo (shouldError : Bool) (videoIds : List UInt64) : Except Status (List VideoInfo) :=
  if shouldError then .error injected
  else if videoIds.length = 0 then .error empty
  else if videoIds.length > db.maxBatchSize then .error db.exceeded
  else if (deduplicateIds videoIds).length ≠ videoIds.length then .error duplicates
  else lookupAll db.videos missing videoIds []

end VideoServiceServer

section Occurrences

variable {set ids : List UInt64} {id : UInt64}

theorem mem_firstOccurrences : id ∈ firstOccurrences set ids ↔ id ∈ ids ∧ id ∉ set := by
  induction ids generalizing set with
  | nil => simp [firstOccurrences]
  | cons i ids ih =>
      simp only [firstOccurrences]
      split
      · rename_i hi
        rw [ih, List.mem_cons]
        constructor
        · exact fun h => ⟨Or.inr h.1, h.2⟩
        · rintro ⟨rfl | h, hn⟩
          · exact absurd hi hn
          · exact ⟨h, hn⟩
      · rename_i hi
        rw [List.mem_cons, ih, List.mem_cons, List.mem_cons, not_or]
        by_cases heq : id = i
        · simp [heq, hi]
        · simp [heq]

theorem nodup_firstOccurrences : (firstOccurrences set ids).Nodup := by
  induction ids generalizing set with
  | nil => exact List.nodup_nil
  | cons i ids ih =>
      simp only [firstOccurrences]
      split
      · exact ih
      · refine List.nodup_cons.mpr ⟨fun h => ?_, ih⟩
        exact (mem_firstOccurrences.mp h).2 List.mem_cons_self

theorem firstOccurrences_of_nodup (h : ids.Nodup) (hset : ∀ id ∈ ids, id ∉ set) :
    firstOccurrences set ids = ids := by
  induction ids generalizing set with
  | nil => rfl
  | cons i ids ih =>
      obtain ⟨hi, hids⟩ := List.nodup_cons.mp h
      rw [firstOccurrences, if_neg (hset i List.mem_cons_self), ih hids]
      intro id hid
      refine List.not_mem_cons_of_ne_of_not_mem ?_ (hset id (List.mem_cons_of_mem _ hid))
      exact fun heq => hi (heq ▸ hid)

end Occurrences

/-- All ids are there: the loop collects their infos. -/
theorem lookupAll_ok {ν : Type} {infos : GoMap UInt64 ν} (missing : UInt64 → Status)
    {ids : List UInt64} (h : ∀ id ∈ ids, id ∈ infos) (found : List ν) :
    lookupAll infos missing ids found = .ok (found ++ ids.filterMap infos.lookup) := by
  induction ids generalizing found with
  | nil => simp [lookupAll]
  | cons id ids ih =>
      obtain ⟨info, hinfo⟩ := Option.isSome_iff_exists.mp
        (AList.lookup_isSome.mpr (h id List.mem_cons_self))
      have hrest := ih (fun other ho => h other (List.mem_cons_of_mem _ ho)) (found ++ [info])
      rw [List.append_assoc, List.singleton_append] at hrest
      simp only [lookupAll, List.filterMap_cons, hinfo]
      exact hrest

/-- A request that passes the checks is answered with the infos in order. -/
theorem UserServiceServer.getUser_ok (db : UserServiceServer) {userIds : List UInt64}
    (hne : userIds ≠ []) (hmax : userIds.length ≤ db.maxBatchSize)
    (h : ∀ id ∈ userIds, id ∈ db.users) :
    db.getUser false userIds = .ok (userIds.filterMap db.users.lookup) := by
  rw [getUser, if_neg Bool.false_ne_true, if_neg (List.length_eq_zero_iff.not.mpr hne),
    if_neg (Int.not_lt.mpr hmax), lookupAll_ok missing h, List.nil_append]

theorem VideoServiceServer.getVideo_ok (db : VideoServiceServer) {videoIds : List UInt64}
    (hne : videoIds ≠ []) (hmax : videoIds.length ≤ db.maxBatchSize) (hnodup : videoIds.Nodup)
    (h : ∀ id ∈ videoIds, id ∈ db.videos) :
    db.getVideo false videoIds = .ok (videoIds.filterMap db.videos.lookup) := by
  have hdedup : deduplicateIds videoIds = videoIds :=
    firstOccurrences_of_nodup hnodup fun _ _ => List.not_mem_nil
  rw [getVideo, if_neg Bool.false_ne_true, if_neg (List.length_eq_zero_iff.not.mpr hne),
    if_neg (Int.not_lt.mpr hmax), if_neg (not_not_intro (congrArg List.length hdedup)),
    lookupAll_ok missing h, List.nil_append]

end VideoLab
